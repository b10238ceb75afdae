import TetraBs.Lib.Run
import TetraBs.Llc.Ops

/-! One outstanding frame per endpoint, over any order of operations on the entity and any
bus found by each of them. -/
namespace TetraBs
open TetraBs.Bits TetraBs.Run

/-- An operation on the bus it finds: a full bucket or a small payload limit makes its posts
fail. -/
def onBus (s : LlcEnv) (bus : Bus) : LlcEnv := { s with bus := bus }

def llcStep (s : LlcEnv) (c : Bus × LlcOp) : LlcEnv := c.2.run (onBus s c.1)

/-- What the retransmission state of `id` may do in one operation. -/
structure StopAndWait (s : LlcEnv) (op : LlcOp) (s' : LlcEnv) (id : EndpointId) : Prop where
  one_outstanding : (s.llc.view id).awaitingAck = true →
    ∀ req ∈ emitted s.bus s'.bus, req.endpoint = id → isBlData (sduType req) = false
  changed_by_post : (s'.llc.view id).nsSend ≠ (s.llc.view id).nsSend ∨
      (s'.llc.view id).lastSent ≠ (s.llc.view id).lastSent ∨
      ((s.llc.view id).awaitingAck = false ∧ (s'.llc.view id).awaitingAck = true) →
    ∃ req ∈ emitted s.bus s'.bus, req.endpoint = id ∧ isBlData (sduType req) = true ∧
      req.bits = (s'.llc.view id).lastSent.bits
  released_by_ack : (s.llc.view id).awaitingAck = true → (s'.llc.view id).awaitingAck = false →
    ∃ ind pdu, op = .tmaInd ind ∧ ind.endpoint = id ∧ GoodPdu ind pdu ∧
      isBlAck pdu.pduType = true ∧ pdu.nr = seqByte (s.llc.view id).nsSend

/-- A TLE data PDU that would be sent finds its endpoint idle and the High bucket with room. -/
def DataFindsRoom (s : LlcEnv) : LlcOp → Prop
  | .tleMsg msg => ∀ m, tleOf msg = some m → TleReady s.llc m → isBlData m.pdu.pduType = true →
      (s.llc.view m.endpoint).awaitingAck = false ∧ TxRoom s.bus
  | _ => True

/-! Operations that leave the retransmission state alone. -/

theorem stopAndWait_of_same {s s' : LlcEnv} {op : LlcOp} {id : EndpointId}
    (h : SameTx (s.llc.view id) (s'.llc.view id))
    (hnew : ∀ req ∈ emitted s.bus s'.bus, isBlData (sduType req) = false) :
    StopAndWait s op s' id := by
  refine ⟨fun _ req hreq _ => hnew req hreq, fun hch => ?_, fun ha hb => ?_⟩
  · obtain hne | hne | ⟨ha, hb⟩ := hch
    · exact absurd h.ns_eq hne
    · exact absurd h.last_eq hne
    · rw [h.awaiting_eq, ha] at hb
      cases hb
  · rw [h.awaiting_eq, ha] at hb
    cases hb

theorem ack_not_data {b b' : Bus} {req : TmaUnitdata} {id : EndpointId} {addr : TetraAddress}
    {nr : Bool} {n : List (SapMsg Payload)} (hreq : ReqFor req id addr (ackPdu nr))
    (hp : Posts b b' (ifRoom (TxRoom b) (tmaUnitdataReq req)) n) :
    ∀ r ∈ emitted b b', isBlData (sduType r) = false := by
  intro r hr
  rw [mem_emitted_ifRoom hp hr, hreq.type_eq (ackPdu_encodable nr)]
  rfl

theorem none_emitted {b b' : Bus} {n : List (SapMsg Payload)} (hp : Posts b b' [] n) :
    ∀ r ∈ emitted b b', isBlData (sduType r) = false := by
  intro r hr
  rw [emitted_eq hp] at hr
  cases hr

theorem sendBlAck_stopAndWait (s : LlcEnv) (id : EndpointId) (addr : TetraAddress)
    (id' : EndpointId) :
    StopAndWait s (.sendBlAck id addr) (llcSendBlAck s id addr).1 id' := by
  obtain ⟨-, heq⟩ | ⟨-, req, hreq, hviews, hposts⟩ := llcSendBlAck_spec s id addr
  · rw [heq]
    exact stopAndWait_of_same ((SameViews.refl _).sameTx _) (none_emitted (Posts.refl _))
  · exact stopAndWait_of_same (hviews.sameTx _) (ack_not_data hreq hposts)

/-- Receiving touches the retransmission state only to release it on an acknowledgement. -/
theorem tmaInd_stopAndWait (s : LlcEnv) (ind : TmaUnitdata) (id : EndpointId) :
    StopAndWait s (.tmaInd ind) (llcHandleTmaUnitdataInd s ind).1 id := by
  cases llcHandleTmaUnitdataInd_cases s ind with
  | ignored _ views posts => exact stopAndWait_of_same (views.sameTx id) (none_emitted posts)
  | inSequence pdu req _ _ _ _ ack upd posts =>
    exact stopAndWait_of_same (upd.sameTx ⟨rfl, rfl, rfl⟩ id) (ack_not_data ack posts)
  | duplicate pdu req _ _ _ _ ack views posts =>
    exact stopAndWait_of_same (views.sameTx id) (ack_not_data ack posts)
  | ackIgnored _ _ _ _ _ views posts =>
    exact stopAndWait_of_same (views.sameTx id) (none_emitted posts)
  | passed _ _ _ _ _ views posts =>
    exact stopAndWait_of_same (views.sameTx id) (none_emitted posts)
  | acked pdu good _ isAck answers upd posts =>
    have hview := upd.view_eq id
    by_cases hid : id = ind.endpoint
    · rw [if_pos hid, ← hid] at hview
      refine ⟨fun _ req hreq _ => none_emitted posts req hreq, fun hch => ?_, fun _ _ => ?_⟩
      · rw [hview] at hch
        obtain hne | hne | ⟨-, hb⟩ := hch
        · exact absurd rfl hne
        · exact absurd rfl hne
        · cases hb
      · exact ⟨ind, pdu, rfl, hid.symm, good, isAck, by rw [hid]; exact answers.2⟩
    · rw [if_neg hid] at hview
      refine stopAndWait_of_same ?_ (none_emitted posts)
      rw [hview]
      exact ⟨rfl, rfl, rfl⟩

/-! Operations that send a data PDU. -/

/-- A data frame that is posted from an idle endpoint and committed. -/
theorem stopAndWait_of_commit {s s' : LlcEnv} {op : LlcOp} {id : EndpointId}
    {addr : TetraAddress} {pdu : LlcPdu} {req : TmaUnitdata} {n : List (SapMsg Payload)}
    (he : pdu.Encodable) (hdata : isBlData pdu.pduType = true)
    (hidle : (s.llc.view id).awaitingAck = false) (hreq : ReqFor req id addr pdu)
    (hupd : Updated s.llc s'.llc id ((s.llc.view id).commit pdu))
    (hp : Posts s.bus s'.bus [tmaUnitdataReq req] n) (id' : EndpointId) :
    StopAndWait s op s' id' := by
  have hview := hupd.view_eq id'
  have hnew := emitted_req hp
  by_cases hid : id' = id
  · rw [if_pos hid] at hview
    refine ⟨fun ha => ?_, fun _ => ⟨req, ?_, ?_, ?_, ?_⟩, fun ha => ?_⟩
    · rw [hid, hidle] at ha
      cases ha
    · rw [hnew]
      exact List.mem_singleton_self req
    · rw [hreq.endpoint_eq, hid]
    · rw [hreq.type_eq he, hdata]
    · rw [hview]
      exact hreq.bits_eq
    · rw [hid, hidle] at ha
      cases ha
  · rw [if_neg hid] at hview
    refine ⟨fun _ r hr hrid => ?_, fun hch => ?_, fun ha hb => ?_⟩
    · rw [hnew] at hr
      rw [List.mem_singleton.1 hr, hreq.endpoint_eq] at hrid
      exact absurd hrid.symm hid
    · rw [hview] at hch
      obtain hne | hne | ⟨ha, hb⟩ := hch
      · exact absurd rfl hne
      · exact absurd rfl hne
      · rw [ha] at hb
        cases hb
    · rw [hview, ha] at hb
      cases hb

theorem sendBlData_stopAndWait (s : LlcEnv) (id : EndpointId) (addr : TetraAddress)
    (body : List Byte) (n : Nat) (id' : EndpointId) :
    StopAndWait s (.sendBlData id addr body n) (llcSendBlData s id addr body n).1 id' := by
  obtain ⟨-, -, hviews, hposts⟩ | ⟨hok, -, req, hreq, hupd, hposts⟩ :=
    llcSendBlData_spec s id addr body n
  · exact stopAndWait_of_same (hviews.sameTx id') (none_emitted hposts)
  · exact stopAndWait_of_commit (dataPdu_encodable _ body hok.body_le) rfl hok.idle hreq hupd
      hposts id'

theorem handleTle_stopAndWait (s : LlcEnv) (op : LlcOp) (m : TleSapMsg)
    (h : TleReady s.llc m → isBlData m.pdu.pduType = true →
      (s.llc.view m.endpoint).awaitingAck = false ∧ TxRoom s.bus) (id : EndpointId) :
    StopAndWait s op (handleTleFromMle s m) id := by
  obtain ⟨-, hviews, hposts⟩ | ⟨hready, req, hreq, hupd, hposts⟩ := handleTleFromMle_spec s m
  · exact stopAndWait_of_same (hviews.sameTx id) (none_emitted hposts)
  have he := (stampPdu_encodable (s.llc.view m.endpoint) m.pdu).2 hready.encodable
  unfold tleEndpoint at hupd
  by_cases hdata : isBlData m.pdu.pduType = true
  · obtain ⟨hidle, hroom⟩ := h hready hdata
    rw [if_pos hdata] at hupd
    rw [ifRoom, if_pos hroom] at hposts
    exact stopAndWait_of_commit he hdata hidle hreq hupd hposts id
  · rw [if_neg hdata] at hupd
    refine stopAndWait_of_same (hupd.sameTx ⟨rfl, rfl, rfl⟩ id) fun r hr => ?_
    rw [mem_emitted_ifRoom hposts hr, hreq.type_eq he]
    simpa using hdata

/-- A TLE data PDU that finds its endpoint waiting, or no room, breaks the rule: it is either
a second outstanding frame or a commit to a frame nobody posted. -/
theorem handleTle_breaks (s : LlcEnv) {op : LlcOp} {m : TleSapMsg} (hready : TleReady s.llc m)
    (hdata : isBlData m.pdu.pduType = true)
    (h : StopAndWait s op (handleTleFromMle s m) m.endpoint) :
    (s.llc.view m.endpoint).awaitingAck = false ∧ TxRoom s.bus := by
  obtain ⟨hno, -⟩ | ⟨-, req, hreq, hupd, hposts⟩ := handleTleFromMle_spec s m
  · exact absurd hready hno
  have he := (stampPdu_encodable (s.llc.view m.endpoint) m.pdu).2 hready.encodable
  have hview := hupd.view_eq m.endpoint
  rw [if_pos rfl, tleEndpoint, if_pos hdata] at hview
  have hroom : TxRoom s.bus := by
    by_contra hno
    rw [ifRoom, if_neg hno] at hposts
    have hflip : ((handleTleFromMle s m).llc.view m.endpoint).nsSend ≠
        (s.llc.view m.endpoint).nsSend := by
      rw [hview]
      simp [LlcEndpoint.commit]
    obtain ⟨r, hr, -⟩ := h.changed_by_post (Or.inl hflip)
    rw [emitted_eq hposts] at hr
    cases hr
  refine ⟨?_, hroom⟩
  by_contra hbusy
  rw [ifRoom, if_pos hroom] at hposts
  have hnew := h.one_outstanding (by simpa using hbusy) req
    (by rw [emitted_req hposts]; exact List.mem_singleton_self req) hreq.endpoint_eq
  rw [hreq.type_eq he, stampPdu_type, hdata] at hnew
  cases hnew

theorem stopAndWait_step_iff (s : LlcEnv) (op : LlcOp) :
    (∀ id, StopAndWait s op (op.run s) id) ↔ DataFindsRoom s op := by
  cases op with
  | sendBlData id addr body n =>
    exact ⟨fun _ => trivial, fun _ => sendBlData_stopAndWait s id addr body n⟩
  | sendBlAck id addr => exact ⟨fun _ => trivial, fun _ => sendBlAck_stopAndWait s id addr⟩
  | tmaInd ind => exact ⟨fun _ => trivial, fun _ => tmaInd_stopAndWait s ind⟩
  | tleMsg msg =>
    simp only [LlcOp.run, DataFindsRoom, onTleMsgFromMle_eq]
    cases tleOf msg with
    | none =>
      refine ⟨fun _ m hm => ?_, fun _ id => ?_⟩
      · cases hm
      · exact stopAndWait_of_same ((SameViews.refl _).sameTx id) (none_emitted (Posts.refl _))
    | some m =>
      refine ⟨fun h m' hm' => ?_, fun h => handleTle_stopAndWait s _ m (h m rfl)⟩
      cases hm'
      exact fun hready hdata => handleTle_breaks s hready hdata (h m.endpoint)

/-- In a run of any operations on any buses, every step keeps at most one frame outstanding
per endpoint and commits only to posted frames exactly if every TLE data PDU on the way finds
its endpoint idle and the High bucket with room. -/
theorem one_outstanding_iff_data_finds_room (s : LlcEnv) (ops : List (Bus × LlcOp)) :
    Along llcStep (fun s c => ∀ id, StopAndWait (onBus s c.1) c.2 (llcStep s c) id) s ops ↔
      Along llcStep (fun s c => DataFindsRoom (onBus s c.1) c.2) s ops :=
  along_congr (fun _ => True) (fun _ _ _ => trivial)
    (fun s c _ => stopAndWait_step_iff (onBus s c.1) c.2) trivial

/-- A TLE BL-DATA for endpoint 1 right after `llc_send_bl_data` on that endpoint goes out while
the first frame is unacknowledged. -/
theorem tle_data_sent_while_waiting :
    ¬Along llcStep (fun s c => ∀ id, StopAndWait (onBus s c.1) c.2 (llcStep s c) id)
      ⟨{ initialised := true }, msgbusInit Payload Handler 32 256 busQueueCapPerPrio_pos, 0⟩
      [(msgbusInit Payload Handler 32 256 busQueueCapPerPrio_pos, .sendBlData 1 {} [0xA5] 8),
        (msgbusInit Payload Handler 32 256 busQueueCapPerPrio_pos,
          .tleMsg (sapmsgInit .mle .tleSap .tmaSap .tleSap
            (.tle ⟨1, {}, { pduType := .blData, bodyLenBits := 8, body := [0x5A] }⟩)))] := by
  intro h
  have hbusy := (h.2.1 1).one_outstanding
  revert hbusy
  decide +kernel

end TetraBs
