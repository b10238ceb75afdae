import TetraBs.Lib.AlternatingBit
import TetraBs.Lib.Run
import TetraBs.Llc.Ops

/-! Two LLC entities on a pair of FIFO channels that lose frames and repeat the oldest one. Each
endpoint, in each direction, runs the alternating-bit protocol. -/
namespace TetraBs
open TetraBs.Bits TetraBs.Run TetraBs.AlternatingBit Relation

/-- The body a message to the MLE carries, if it is that of a data PDU. -/
def bodyUp (msg : SapMsg Payload) : Option (EndpointId × List Bool) :=
  match msg.payload.data with
  | .tle m => if isBlData m.pdu.pduType then some (m.endpoint, m.pdu.bodyBits) else none
  | _ => none

/-- The bodies added to the Normal bucket between `b` and `b'`. -/
def passedUp (b b' : Bus) : List (EndpointId × List Bool) :=
  ((b'.pending .normal).drop (b.pending .normal).length).filterMap bodyUp

/-- One entity, the frames it sent that are still in flight, the bodies its callers submitted
with success and the bodies it passed up. -/
structure Side where
  llc : Llc := { initialised := true }
  reqHandle : BitVec 32 := 0
  out : List TmaUnitdata := []
  sent : List (EndpointId × List Bool) := []
  delivered : List (EndpointId × List Bool) := []

def Side.submit (p : Side) (bus : Bus) (id : EndpointId) (addr : TetraAddress)
    (body : List Byte) (n : Nat) : Side :=
  let r := llcSendBlData ⟨p.llc, bus, p.reqHandle⟩ id addr body n
  { llc := r.1.llc, reqHandle := r.1.reqHandle, out := p.out ++ emitted bus r.1.bus,
    sent := if r.2 = none then p.sent ++ [(id, window body 0 n)] else p.sent,
    delivered := p.delivered }

def Side.receive (p : Side) (bus : Bus) (ind : TmaUnitdata) : Side :=
  let s := (llcHandleTmaUnitdataInd ⟨p.llc, bus, p.reqHandle⟩ ind).1
  { llc := s.llc, reqHandle := s.reqHandle, out := p.out ++ emitted bus s.bus, sent := p.sent,
    delivered := p.delivered ++ passedUp bus s.bus }

abbrev Link := Bool → Side

/-- Side `x` submits a body; the oldest frame of `x` reaches the other side, and stays in flight
if `keep`; a frame of `x` is lost. Calls into an entity find their own bus. -/
inductive LinkOp where
  | submit (x : Bool) (bus : Bus) (id : EndpointId) (addr : TetraAddress) (body : List Byte)
      (bodyLenBits : Nat)
  | deliver (x : Bool) (bus : Bus) (keep : Bool)
  | lose (x : Bool) (i : Nat)

def Side.drop (p : Side) (i : Nat) : Side := { p with out := p.out.eraseIdx i }

def Link.set (s : Link) (x : Bool) (p : Side) : Link := fun y => if y = x then p else s y

/-- The oldest frame of `x` reaches the other side. -/
def Link.pass (s : Link) (x : Bool) (bus : Bus) : Link :=
  match (s x).out with
  | [] => s
  | ind :: _ => s.set (!x) ((s !x).receive bus ind)

def linkStep (s : Link) : LinkOp → Link
  | .submit x bus id addr body n => s.set x ((s x).submit bus id addr body n)
  | .deliver x bus keep =>
    if keep then s.pass x bus else (s.pass x bus).set x ((s.pass x bus x).drop 0)
  | .lose x i => s.set x ((s x).drop i)

def linkInit : Link := fun _ => {}

def bodiesOf (id : EndpointId) (log : List (EndpointId × List Bool)) : List (List Bool) :=
  log.filterMap fun e => if e.1 = id then some e.2 else none

/-- An in-sequence data PDU finds room for its body in the Normal bucket. -/
def BodyFindsRoom (s : Link) : LinkOp → Prop
  | .deliver x bus _ => ∀ ind rest, (s x).out = ind :: rest → InSequence (s !x).llc ind → UpRoom bus
  | _ => True

/-! Frames in flight. -/

/-- A data PDU for endpoint `id`: its sequence bit and its body. -/
def dataFrame (id : EndpointId) (ind : TmaUnitdata) : Option (Bool × List Bool) :=
  if ind.endpoint = id then (goodPdu ind).bind fun pdu =>
    if isBlData pdu.pduType then some (pdu.ns.getLsbD 0, pdu.bodyBits) else none
  else none

/-- An acknowledgement for endpoint `id`: its sequence bit. -/
def ackFrame (id : EndpointId) (ind : TmaUnitdata) : Option Bool :=
  if ind.endpoint = id then (goodPdu ind).bind fun pdu =>
    if isBlAck pdu.pduType then some (pdu.nr.getLsbD 0) else none
  else none

theorem ReqFor.goodPdu {req : TmaUnitdata} {id : EndpointId} {addr : TetraAddress} {p : LlcPdu}
    (h : ReqFor req id addr p) (he : p.Encodable) : ∃ q, GoodPdu req q ∧ SamePdu p q := by
  obtain ⟨q, hok, hsame⟩ := llcParseSdu_encoded he h.bits_eq
  refine ⟨q, ⟨hok, fun hf => ?_⟩, hsame⟩
  rw [hsame.type_eq] at hf
  rw [hsame.fcs_valid hf.1] at hf
  cases hf.2

theorem dataPdu_bodyBits (ns : Bool) (body : List Byte) (n : Nat) :
    (dataPdu ns body n).bodyBits = window body 0 n :=
  window_take body (by omega : n ≤ 8 * ((n + 7) / 8))

/-- A submitted body travels as the data frame it was stamped as. -/
theorem data_req_frames {req : TmaUnitdata} {id : EndpointId} {addr : TetraAddress} {ns : Bool}
    {body : List Byte} {n : Nat} (h : ReqFor req id addr (dataPdu ns body n))
    (hn : n ≤ llcPduBodyMaxBytes * 8) (id' : EndpointId) :
    dataFrame id' req = (if id = id' then some (ns, window body 0 n) else none) ∧
      ackFrame id' req = none := by
  obtain ⟨q, hgood, hsame⟩ := h.goodPdu (dataPdu_encodable ns body hn)
  have hq := goodPdu_eq_some.2 hgood
  have htype : q.pduType = .blData := hsame.type_eq
  have hns : q.ns = seqByte ns := by
    rw [hsame.ns_eq rfl, dataPdu, seqByte_bit]
  rw [dataFrame, ackFrame]
  rw [h.endpoint_eq, hq]
  simp only [Option.bind_some, htype, hns, seqByte_bit, hsame.body_eq, dataPdu_bodyBits]
  constructor
  · rfl
  · split <;> rfl

theorem ack_req_frames {req : TmaUnitdata} {id : EndpointId} {addr : TetraAddress} {nr : Bool}
    (h : ReqFor req id addr (ackPdu nr)) (id' : EndpointId) :
    ackFrame id' req = (if id = id' then some nr else none) ∧ dataFrame id' req = none := by
  obtain ⟨q, hgood, hsame⟩ := h.goodPdu (ackPdu_encodable nr)
  have hq := goodPdu_eq_some.2 hgood
  have htype : q.pduType = .blAck := hsame.type_eq
  have hnr : q.nr = seqByte nr := by
    rw [hsame.nr_eq rfl, ackPdu, seqByte_bit]
  rw [dataFrame, ackFrame]
  rw [h.endpoint_eq, hq]
  simp only [Option.bind_some, htype, hnr, seqByte_bit]
  constructor
  · rfl
  · split <;> rfl

theorem passedUp_eq {b b' : Bus} {h n : List (SapMsg Payload)} (hp : Posts b b' h n) :
    passedUp b b' = n.filterMap bodyUp := by
  rw [passedUp]
  rw [hp.normal_eq, List.drop_left]

/-! The stream of one endpoint in one direction. -/

/-- What `tx` sends to `rx` on endpoint `id`, and what comes back for it. -/
def stream (tx rx : Side) (id : EndpointId) : Stream (List Bool) where
  nextBit := (tx.llc.view id).nsSend
  awaiting := (tx.llc.view id).awaitingAck
  expected := (rx.llc.view id).nrExpected
  data := tx.out.filterMap (dataFrame id)
  acks := rx.out.filterMap (ackFrame id)
  sent := bodiesOf id tx.sent
  delivered := bodiesOf id rx.delivered

/-- The sender's part of a stream. -/
structure SameTxPart (p p' : Side) (id : EndpointId) : Prop where
  ns_eq : (p'.llc.view id).nsSend = (p.llc.view id).nsSend
  awaiting_eq : (p'.llc.view id).awaitingAck = (p.llc.view id).awaitingAck
  data_eq : p'.out.filterMap (dataFrame id) = p.out.filterMap (dataFrame id)
  sent_eq : bodiesOf id p'.sent = bodiesOf id p.sent

/-- The receiver's part of a stream. -/
structure SameRxPart (p p' : Side) (id : EndpointId) : Prop where
  nr_eq : (p'.llc.view id).nrExpected = (p.llc.view id).nrExpected
  acks_eq : p'.out.filterMap (ackFrame id) = p.out.filterMap (ackFrame id)
  delivered_eq : bodiesOf id p'.delivered = bodiesOf id p.delivered

theorem stream_sameTx {tx tx' : Side} {id : EndpointId} (h : SameTxPart tx tx' id) (rx : Side) :
    stream tx' rx id = stream tx rx id := by
  simp only [stream, h.ns_eq, h.awaiting_eq, h.data_eq, h.sent_eq]

theorem stream_sameRx {rx rx' : Side} {id : EndpointId} (h : SameRxPart rx rx' id) (tx : Side) :
    stream tx rx' id = stream tx rx id := by
  simp only [stream, h.nr_eq, h.acks_eq, h.delivered_eq]

theorem bodiesOf_append (id : EndpointId) (a b : List (EndpointId × List Bool)) :
    bodiesOf id (a ++ b) = bodiesOf id a ++ bodiesOf id b := List.filterMap_append

theorem bodiesOf_single (id i : EndpointId) (b : List Bool) :
    bodiesOf id [(i, b)] = if i = id then [b] else [] := by
  rw [bodiesOf]
  split <;> simp_all

/-! What a submission and a reception do to the two parts. -/

/-- A submission either does nothing to a stream or sends one body on it. -/
theorem submit_steps (tx rx : Side) (bus : Bus) (id' : EndpointId) (addr : TetraAddress)
    (body : List Byte) (n : Nat) (id : EndpointId) :
    ReflTransGen Step (stream tx rx id) (stream (tx.submit bus id' addr body n) rx id) := by
  obtain ⟨-, hrc, hviews, hposts⟩ | ⟨hok, hrc, req, hreq, hupd, hposts⟩ :=
    llcSendBlData_spec ⟨tx.llc, bus, tx.reqHandle⟩ id' addr body n
  · have hsame : SameTxPart tx (tx.submit bus id' addr body n) id := by
      have hview := hviews.view_eq id
      refine ⟨by rw [Side.submit, hview], by rw [Side.submit, hview], ?_, ?_⟩
      · simp only [Side.submit, emitted_eq hposts, List.filterMap_nil, List.append_nil]
      · simp only [Side.submit, if_neg hrc]
    rw [stream_sameTx hsame]
  · have hview := hupd.view_eq id
    obtain ⟨hdata, -⟩ := data_req_frames hreq hok.body_le id
    by_cases hid : id' = id
    · subst hid
      rw [if_pos rfl] at hview hdata
      apply ReflTransGen.single
      have hsent : stream (tx.submit bus id' addr body n) rx id' =
          { stream tx rx id' with
            nextBit := !(stream tx rx id').nextBit, awaiting := true,
            data := (stream tx rx id').data ++ [((stream tx rx id').nextBit, window body 0 n)],
            sent := (stream tx rx id').sent ++ [window body 0 n] } := by
        simp only [stream, Side.submit, hview, hrc, emitted_req hposts, List.filterMap_append,
          bodiesOf_append, bodiesOf_single, if_true, LlcEndpoint.commit]
        simp [hdata]
      rw [hsent]
      exact Step.send _ _ hok.idle
    · rw [if_neg (Ne.symm hid)] at hview
      rw [if_neg hid] at hdata
      have hsame : SameTxPart tx (tx.submit bus id' addr body n) id := by
        refine ⟨by rw [Side.submit, hview], by rw [Side.submit, hview], ?_, ?_⟩
        · simp only [Side.submit, emitted_req hposts, List.filterMap_append]
          simp [hdata]
        · simp only [Side.submit, if_pos hrc, bodiesOf_append, bodiesOf_single, if_neg hid,
            List.append_nil]
      rw [stream_sameTx hsame]

/-- Submitting on a side leaves the streams it receives alone. -/
theorem submit_sameRx (rx : Side) (bus : Bus) (id' : EndpointId) (addr : TetraAddress)
    (body : List Byte) (n : Nat) (id : EndpointId) :
    SameRxPart rx (rx.submit bus id' addr body n) id := by
  obtain ⟨-, -, hviews, hposts⟩ | ⟨hok, -, req, hreq, hupd, hposts⟩ :=
    llcSendBlData_spec ⟨rx.llc, bus, rx.reqHandle⟩ id' addr body n
  · refine ⟨by rw [Side.submit, hviews.view_eq], ?_, rfl⟩
    simp only [Side.submit, emitted_eq hposts, List.filterMap_nil, List.append_nil]
  · refine ⟨?_, ?_, rfl⟩
    · rw [Side.submit, hupd.view_eq]
      by_cases hid : id = id'
      · rw [if_pos hid, hid]
        rfl
      · rw [if_neg hid]
    · obtain ⟨-, hack⟩ := data_req_frames hreq hok.body_le id
      simp only [Side.submit, emitted_req hposts, List.filterMap_append]
      simp [hack]

theorem dataFrame_of_good {ind : TmaUnitdata} {pdu : LlcPdu} (h : GoodPdu ind pdu)
    (hd : isBlData pdu.pduType = true) :
    dataFrame ind.endpoint ind = some (pdu.ns.getLsbD 0, pdu.bodyBits) := by
  simp [dataFrame, goodPdu_eq_some.2 h, hd]

theorem ackFrame_of_good {ind : TmaUnitdata} {pdu : LlcPdu} (h : GoodPdu ind pdu)
    (ha : isBlAck pdu.pduType = true) :
    ackFrame ind.endpoint ind = some (pdu.nr.getLsbD 0) := by
  simp [ackFrame, goodPdu_eq_some.2 h, ha]

theorem Updated.other {l l' : Llc} {id id' : EndpointId} {ep : LlcEndpoint}
    (h : Updated l l' id ep) (hid : id' ≠ id) : l'.view id' = l.view id' := by
  rw [h.view_eq, if_neg hid]

/-- The frames a reception adds: at most an acknowledgement of the endpoint of `ind`. -/
theorem ack_frames_added {b b' : Bus} {req : TmaUnitdata} {id' : EndpointId} {addr : TetraAddress}
    {nr : Bool} {m : List (SapMsg Payload)} (hreq : ReqFor req id' addr (ackPdu nr))
    (hp : Posts b b' (ifRoom (TxRoom b) (tmaUnitdataReq req)) m) (id : EndpointId) :
    (emitted b b').filterMap (dataFrame id) = [] ∧
      (emitted b b').filterMap (ackFrame id) = if id' = id ∧ TxRoom b then [nr] else [] := by
  obtain ⟨hack, hdata⟩ := ack_req_frames hreq id
  rw [emitted_ifRoom hp]
  by_cases hroom : TxRoom b
  · by_cases hid : id' = id <;> simp [hroom, hid, hack, hdata]
  · simp [hroom]

/-- A stream whose receiver took its oldest frame, and acknowledged it if `acked`. -/
theorem accept_steps {s : Stream (List Bool)} {b : List Bool} {rest : List (Bool × List Bool)}
    (head : s.data = (s.expected, b) :: rest) (acked : Prop) [Decidable acked] :
    ReflTransGen Step s { s with expected := !s.expected, delivered := s.delivered ++ [b],
                                 acks := s.acks ++ if acked then [!s.expected] else [] } := by
  have haccept := ReflTransGen.single (Step.accept s b rest head)
  by_cases hacked : acked
  · rw [if_pos hacked]
    exact haccept.tail (Step.acknowledge _)
  · rw [if_neg hacked, List.append_nil]
    exact haccept

theorem acknowledge_steps (s : Stream (List Bool)) (acked : Prop) [Decidable acked] :
    ReflTransGen Step s { s with acks := s.acks ++ if acked then [s.expected] else [] } := by
  by_cases hacked : acked
  · rw [if_pos hacked]
    exact ReflTransGen.single (Step.acknowledge s)
  · rw [if_neg hacked, List.append_nil]

/-- The stream after its receiver handled a frame, by what the receiver then expects, sends back
and passes up. -/
theorem stream_receive (tx rx : Side) (bus : Bus) (ind : TmaUnitdata) (id : EndpointId)
    {s' : LlcEnv} (hs' : s' = (llcHandleTmaUnitdataInd ⟨rx.llc, bus, rx.reqHandle⟩ ind).1)
    {bit : Bool} {acks : List Bool} {bodies : List (List Bool)}
    (hnr : (s'.llc.view id).nrExpected = bit)
    (hacks : (emitted bus s'.bus).filterMap (ackFrame id) = acks)
    (hup : bodiesOf id (passedUp bus s'.bus) = bodies) :
    stream tx (rx.receive bus ind) id = { stream tx rx id with
      expected := bit
      acks := (stream tx rx id).acks ++ acks
      delivered := (stream tx rx id).delivered ++ bodies } := by
  subst hs' hnr hacks hup
  simp only [stream, Side.receive, List.filterMap_append, bodiesOf_append]

/-- A frame that changes nothing of the receiver's part. -/
theorem quiet_rx_steps (tx rx : Side) (bus : Bus) (ind : TmaUnitdata) (id : EndpointId)
    {s' : LlcEnv} (hs' : s' = (llcHandleTmaUnitdataInd ⟨rx.llc, bus, rx.reqHandle⟩ ind).1)
    (hnr : (s'.llc.view id).nrExpected = (rx.llc.view id).nrExpected)
    (hack : (emitted bus s'.bus).filterMap (ackFrame id) = [])
    (hup : bodiesOf id (passedUp bus s'.bus) = []) :
    ReflTransGen Step (stream tx rx id) (stream tx (rx.receive bus ind) id) := by
  rw [stream_receive tx rx bus ind id hs' hnr hack hup, List.append_nil, List.append_nil]
  exact .refl

/-- The receiver of a stream handles the oldest frame in flight to it. -/
theorem receive_rx_steps {tx : Side} {ind : TmaUnitdata} {rest : List TmaUnitdata}
    (hout : tx.out = ind :: rest) (rx : Side) (bus : Bus)
    (hroom : InSequence rx.llc ind → UpRoom bus) (id : EndpointId) :
    ReflTransGen Step (stream tx rx id) (stream tx (rx.receive bus ind) id) := by
  cases llcHandleTmaUnitdataInd_cases ⟨rx.llc, bus, rx.reqHandle⟩ ind with
  | ignored _ views posts =>
    apply quiet_rx_steps tx rx bus ind id rfl
    · rw [views.view_eq]
    · rw [emitted_eq posts]
      rfl
    · rw [passedUp_eq posts]
      rfl
  | acked pdu good _ _ _ upd posts =>
    apply quiet_rx_steps tx rx bus ind id rfl
    · rw [upd.view_eq]
      by_cases hid : id = ind.endpoint
      · rw [if_pos hid, hid]
        rfl
      · rw [if_neg hid]
    · rw [emitted_eq posts]
      rfl
    · rw [passedUp_eq posts]
      rfl
  | ackIgnored pdu good _ _ _ views posts =>
    apply quiet_rx_steps tx rx bus ind id rfl
    · rw [views.view_eq]
    · rw [emitted_eq posts]
      rfl
    · rw [passedUp_eq posts]
      rfl
  | passed pdu good _ data _ views posts =>
    apply quiet_rx_steps tx rx bus ind id rfl
    · rw [views.view_eq]
    · rw [emitted_eq posts]
      rfl
    · rw [passedUp_eq posts]
      rw [ifRoom]
      split <;> simp [bodyUp, tleSapMsgUp, sapmsgInit, data, bodiesOf]
  | duplicate pdu req good _ data seq ack views posts =>
    obtain ⟨-, hacks⟩ := ack_frames_added ack posts id
    have hnr : ((llcHandleTmaUnitdataInd ⟨rx.llc, bus, rx.reqHandle⟩ ind).1.llc.view id).nrExpected =
        (rx.llc.view id).nrExpected := by rw [views.view_eq id]
    have hup : bodiesOf id (passedUp bus
        (llcHandleTmaUnitdataInd ⟨rx.llc, bus, rx.reqHandle⟩ ind).1.bus) = [] := by
      rw [passedUp_eq posts]
      rfl
    by_cases hid : ind.endpoint = id
    · subst hid
      simp only [true_and] at hacks
      rw [stream_receive tx rx bus ind ind.endpoint rfl hnr hacks hup, List.append_nil]
      exact acknowledge_steps _ _
    · rw [if_neg fun h => hid h.1] at hacks
      exact quiet_rx_steps tx rx bus ind id rfl hnr hacks hup
  | inSequence pdu req good slot data seq ack upd posts =>
    obtain ⟨-, hacks⟩ := ack_frames_added ack posts id
    have hbody : passedUp bus (llcHandleTmaUnitdataInd ⟨rx.llc, bus, rx.reqHandle⟩ ind).1.bus =
        [(ind.endpoint, pdu.bodyBits)] := by
      rw [passedUp_eq posts, ifRoom, if_pos (hroom ⟨pdu, good, slot, data, seq⟩)]
      simp [bodyUp, tleSapMsgUp, sapmsgInit, data]
    have hup := bodiesOf_single id ind.endpoint pdu.bodyBits
    rw [← hbody] at hup
    by_cases hid : ind.endpoint = id
    · subst hid
      have hview := upd.view_eq ind.endpoint
      rw [if_pos rfl] at hview
      have hnr := congrArg LlcEndpoint.nrExpected hview
      rw [if_pos rfl] at hup
      simp only [true_and] at hacks
      have head : (stream tx rx ind.endpoint).data =
          ((stream tx rx ind.endpoint).expected, pdu.bodyBits) ::
            rest.filterMap (dataFrame ind.endpoint) := by
        have hbit : pdu.ns.getLsbD 0 = (rx.llc.view ind.endpoint).nrExpected :=
          (eq_seqByte_iff good.parses.ns_bit).1 seq
        simp only [stream, hout]
        rw [List.filterMap_cons_some (dataFrame_of_good good data), hbit]
      rw [stream_receive tx rx bus ind ind.endpoint rfl hnr hacks hup]
      exact accept_steps head _
    · rw [if_neg hid] at hup
      rw [if_neg fun h => hid h.1] at hacks
      exact quiet_rx_steps tx rx bus ind id rfl (by rw [upd.other (Ne.symm hid)]) hacks hup

/-- The sender of a stream handles the oldest frame that came back. -/
theorem receive_tx_steps {rx : Side} {ind : TmaUnitdata} {rest : List TmaUnitdata}
    (hout : rx.out = ind :: rest) (tx : Side) (bus : Bus) (id : EndpointId) :
    ReflTransGen Step (stream tx rx id) (stream (tx.receive bus ind) rx id) := by
  have quiet : ∀ s', s' = (llcHandleTmaUnitdataInd ⟨tx.llc, bus, tx.reqHandle⟩ ind).1 →
      (s'.llc.view id).nsSend = (tx.llc.view id).nsSend →
      (s'.llc.view id).awaitingAck = (tx.llc.view id).awaitingAck →
      (emitted bus s'.bus).filterMap (dataFrame id) = [] →
      stream (tx.receive bus ind) rx id = stream tx rx id := by
    intro s' hs' hns hawait hdata
    subst hs'
    have hsame : SameTxPart tx (tx.receive bus ind) id := by
      refine ⟨hns, hawait, ?_, rfl⟩
      rw [Side.receive, List.filterMap_append, hdata, List.append_nil]
    exact stream_sameTx hsame rx
  cases llcHandleTmaUnitdataInd_cases ⟨tx.llc, bus, tx.reqHandle⟩ ind with
  | ignored _ views posts =>
    rw [quiet _ rfl (by rw [views.view_eq]) (by rw [views.view_eq]) (by rw [emitted_eq posts]; rfl)]
  | ackIgnored pdu good _ _ _ views posts =>
    rw [quiet _ rfl (by rw [views.view_eq]) (by rw [views.view_eq]) (by rw [emitted_eq posts]; rfl)]
  | passed pdu good _ data _ views posts =>
    rw [quiet _ rfl (by rw [views.view_eq]) (by rw [views.view_eq]) (by rw [emitted_eq posts]; rfl)]
  | duplicate pdu req good _ data seq ack views posts =>
    rw [quiet _ rfl (by rw [views.view_eq]) (by rw [views.view_eq])
      (ack_frames_added ack posts id).1]
  | inSequence pdu req good slot data seq ack upd posts =>
    have htx : SameTx (tx.llc.view id) _ := upd.sameTx ⟨rfl, rfl, rfl⟩ id
    rw [quiet _ rfl htx.ns_eq htx.awaiting_eq (ack_frames_added ack posts id).1]
  | acked pdu good slot isAck answers upd posts =>
    by_cases hid : ind.endpoint = id
    · subst hid
      have hview := upd.view_eq ind.endpoint
      rw [if_pos rfl] at hview
      have hbit : pdu.nr.getLsbD 0 = (tx.llc.view ind.endpoint).nsSend :=
        (eq_seqByte_iff good.parses.nr_bit).1 answers.2
      have hframe := ackFrame_of_good good isAck
      have heq : stream (tx.receive bus ind) rx ind.endpoint =
          { stream tx rx ind.endpoint with awaiting := false } := by
        simp only [stream, Side.receive, hview, LlcEndpoint.release, emitted_eq posts,
          List.filterMap_nil, List.append_nil]
      rw [heq]
      apply ReflTransGen.single
      apply Step.release _ (rest.filterMap (ackFrame ind.endpoint))
      simp only [stream, hout]
      rw [List.filterMap_cons_some hframe, hbit]
    · rw [quiet _ rfl (by rw [upd.other (Ne.symm hid)]) (by rw [upd.other (Ne.symm hid)])
        (by rw [emitted_eq posts]; rfl)]

/-! The link. -/

theorem set_self (s : Link) (x : Bool) (p : Side) : s.set x p x = p := if_pos rfl

theorem set_other (s : Link) {x y : Bool} (p : Side) (h : y ≠ x) : s.set x p y = s y := if_neg h

/-- Replacing one side is a run of the protocol if it is one for that side as sender and as
receiver. -/
theorem set_steps (s : Link) (x : Bool) (p : Side)
    (htx : ∀ id, ReflTransGen Step (stream (s x) (s !x) id) (stream p (s !x) id))
    (hrx : ∀ id, ReflTransGen Step (stream (s !x) (s x) id) (stream (s !x) p id))
    (y : Bool) (id : EndpointId) :
    ReflTransGen Step (stream (s y) (s !y) id) (stream (s.set x p y) (s.set x p !y) id) := by
  by_cases hy : y = x
  · subst hy
    rw [set_self, set_other _ _ (by simp)]
    exact htx id
  · have hx : x = !y := Bool.eq_not_of_ne (Ne.symm hy)
    subst hx
    rw [set_self, set_other _ _ hy]
    rw [Bool.not_not] at hrx
    exact hrx id

theorem drop_steps (s : Link) (x : Bool) (i : Nat) (y : Bool) (id : EndpointId) :
    ReflTransGen Step (stream (s y) (s !y) id)
      (stream (s.set x ((s x).drop i) y) (s.set x ((s x).drop i) !y) id) := by
  have hsub := List.eraseIdx_sublist (s x).out i
  apply set_steps
  · exact fun id => ReflTransGen.single (Step.loseData _ _ (hsub.filterMap (dataFrame id)))
  · exact fun id => ReflTransGen.single (Step.loseAcks _ _ (hsub.filterMap (ackFrame id)))

theorem pass_steps (s : Link) (x : Bool) (bus : Bus)
    (hroom : ∀ ind rest, (s x).out = ind :: rest → InSequence (s !x).llc ind → UpRoom bus)
    (y : Bool) (id : EndpointId) :
    ReflTransGen Step (stream (s y) (s !y) id)
      (stream (s.pass x bus y) (s.pass x bus !y) id) := by
  rw [Link.pass]
  cases hout : (s x).out with
  | nil => exact ReflTransGen.refl
  | cons ind rest =>
    apply set_steps
    · rw [Bool.not_not]
      exact receive_tx_steps hout (s !x) bus
    · rw [Bool.not_not]
      exact receive_rx_steps hout (s !x) bus (hroom ind rest hout)

/-- Every step of the link whose body finds room is a run of the protocol on every stream. -/
theorem link_refines (s : Link) (op : LinkOp) (h : BodyFindsRoom s op) (y : Bool)
    (id : EndpointId) :
    ReflTransGen Step (stream (s y) (s !y) id)
      (stream (linkStep s op y) (linkStep s op !y) id) := by
  cases op with
  | submit x bus id' addr body n =>
    apply set_steps
    · exact submit_steps (s x) (s !x) bus id' addr body n
    · intro id
      rw [stream_sameRx (submit_sameRx (s x) bus id' addr body n id)]
  | lose x i => exact drop_steps s x i y id
  | deliver x bus keep =>
    have hpass := pass_steps s x bus h y id
    cases keep with
    | true => exact hpass
    | false => exact hpass.trans (drop_steps (s.pass x bus) x 0 y id)

theorem linkInit_stream (y : Bool) (id : EndpointId) :
    stream (linkInit y) (linkInit !y) id = Stream.empty := rfl

/-- In a run in which every in-sequence data PDU finds room for its body, what a side passed up
on an endpoint is a prefix of what the other side submitted on it. -/
theorem delivered_prefix_of_submitted {ops : List LinkOp}
    (h : Along linkStep BodyFindsRoom linkInit ops) (y : Bool) (id : EndpointId) :
    bodiesOf id (exec linkStep linkInit ops !y).delivered <+:
      bodiesOf id (exec linkStep linkInit ops y).sent := by
  have hinv := exec_invariant (fun s : Link => ∀ y id, Inv (stream (s y) (s !y) id))
    (fun s op hs hroom y id => inv_steps (hs y id) (link_refines s op hroom y id))
    (fun y id => by rw [linkInit_stream]; exact inv_empty) h
  exact (hinv y id).delivered_le

def roomyBus : Bus := msgbusInit Payload Handler 32 256 busQueueCapPerPrio_pos

/-- The Normal bucket is full. -/
def fullNormalBus : Bus :=
  (msgbusPost (msgbusInit Payload Handler 1 256 (by decide)) .normal
    (tleSapMsgUp ⟨0, {}, {}⟩)).1

theorem delivered_prefix_of_one_body :
    bodiesOf 1 (exec linkStep linkInit
        [.submit false roomyBus 1 {} [0xA5] 8, .deliver false roomyBus true] !false).delivered <+:
      bodiesOf 1 (exec linkStep linkInit
        [.submit false roomyBus 1 {} [0xA5] 8, .deliver false roomyBus true] false).sent := by
  apply delivered_prefix_of_submitted
  refine ⟨trivial, fun _ _ _ _ => ?_, trivial⟩
  decide

/-- The body that finds no room is acknowledged all the same, so the next one is delivered in
its place. -/
theorem refused_body_skipped :
    ¬bodiesOf 1 (exec linkStep linkInit
        [.submit false roomyBus 1 {} [0xA5] 8, .deliver false fullNormalBus false,
          .deliver true roomyBus false, .submit false roomyBus 1 {} [0x5A] 8,
          .deliver false roomyBus false] !false).delivered <+:
      bodiesOf 1 (exec linkStep linkInit
        [.submit false roomyBus 1 {} [0xA5] 8, .deliver false fullNormalBus false,
          .deliver true roomyBus false, .submit false roomyBus 1 {} [0x5A] 8,
          .deliver false roomyBus false] false).sent := by
  decide +kernel

end TetraBs
