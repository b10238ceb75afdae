import TetraBs.Cmce.Entity
import TetraBs.Mle.Entity

/-! What CMCE reads of an uplink body, and what it answers. -/
namespace TetraBs
open TetraBs.Bits TetraBs.Decoder

/-! Encoders. -/

theorem writes_masked {v mask : BitVec 32} {n : Nat} (hn : 1 ≤ n) (hn' : n ≤ 32)
    (hmask : mask.toNat < 2 ^ n) : Writes (putBits (v &&& mask) n) (msbBits (v &&& mask) n) := by
  refine writes_putBits hn hn' ?_
  rw [BitVec.toNat_and]
  exact Nat.and_lt_two_pow _ hmask

theorem writes_flag (b : Bool) : Writes (putBits (presentBit b) 1) (msbBits (presentBit b) 1) := by
  refine writes_putBits (by decide) (by decide) ?_
  cases b <;> decide

theorem writes_pduType {v : Byte} (hv : v ≤ 0x1F) :
    Writes (putPduType v) (msbBits (v.setWidth 32) 5) := by
  rw [putPduType]
  refine Writes.check hv (writes_putBits (by decide) (by decide) ?_)
  have hle : v.toNat ≤ 31 := hv
  rw [BitVec.toNat_setWidth]
  omega

/-- The type and call identifier that most PDUs start with. -/
def callHeader (t : CmcePduType) (callIdentifier : BitVec 16) : List Bool :=
  msbBits (t.value.setWidth 32) 5 ++ msbBits (callIdentifier.setWidth 32 &&& 0x3FFF) 14

theorem encodeDCallProceeding_writes {p : CmcePdu} (hid : p.callIdentifier ≤ 0x3FFF)
    (htime : p.callTimeOutSetUpPhase ≤ 7) :
    ∃ rest, rest.length = 6 ∧
      Writes (encodeDCallProceeding p) (callHeader .callProceeding p.callIdentifier ++ rest) := by
  refine ⟨msbBits (p.callTimeOutSetUpPhase.setWidth 32 &&& 7) 3 ++
    (msbBits (p.hookMethodSelection.setWidth 32 &&& 1) 1 ++
    (msbBits (p.simplexDuplexSelection.setWidth 32 &&& 1) 1 ++
    msbBits (presentBit p.optionalsPresent) 1)), rfl, ?_⟩
  rw [encodeDCallProceeding, callHeader, List.append_assoc]
  refine Writes.check hid (Writes.check htime ?_)
  refine (writes_pduType (by decide)).bind ?_
  refine (writes_masked (by decide) (by decide) (by decide)).bind ?_
  refine (writes_masked (by decide) (by decide) (by decide)).bind ?_
  refine (writes_masked (by decide) (by decide) (by decide)).bind ?_
  refine (writes_masked (by decide) (by decide) (by decide)).bind ?_
  exact writes_flag _

theorem encodeDTxGranted_writes {p : CmcePdu} (hid : p.callIdentifier ≤ 0x3FFF) :
    ∃ rest, rest.length = 6 ∧
      Writes (encodeDTxGranted p) (callHeader .txGranted p.callIdentifier ++ rest) := by
  refine ⟨msbBits (p.transmissionGrant.value &&& 3) 2 ++
    (msbBits (p.transmissionRequestPermission.setWidth 32 &&& 1) 1 ++
    (msbBits (p.encryptionControl.setWidth 32 &&& 1) 1 ++ (msbBits (0 : BitVec 32) 1 ++
    msbBits (presentBit p.optionalsPresent) 1))), rfl, ?_⟩
  rw [encodeDTxGranted, callHeader, List.append_assoc]
  refine Writes.check hid ?_
  refine (writes_pduType (by decide)).bind ?_
  refine (writes_masked (by decide) (by decide) (by decide)).bind ?_
  refine (writes_masked (by decide) (by decide) (by decide)).bind ?_
  refine (writes_masked (by decide) (by decide) (by decide)).bind ?_
  refine (writes_masked (by decide) (by decide) (by decide)).bind ?_
  refine (writes_putBits (by decide) (by decide) (by decide)).bind ?_
  exact writes_flag _

theorem encodeRelease_writes {p : CmcePdu} (hid : p.callIdentifier ≤ 0x3FFF)
    (hcause : p.disconnectCause ≤ 0x1F) :
    ∃ rest, rest.length = 6 ∧
      Writes (encodeRelease p) (callHeader .release p.callIdentifier ++ rest) := by
  refine ⟨msbBits (p.disconnectCause &&& 0x1F) 5 ++ msbBits (presentBit p.optionalsPresent) 1,
    rfl, ?_⟩
  rw [encodeRelease, callHeader, List.append_assoc]
  refine Writes.check hid (Writes.check hcause ?_)
  refine (writes_pduType (by decide)).bind ?_
  refine (writes_masked (by decide) (by decide) (by decide)).bind ?_
  refine (writes_masked (by decide) (by decide) (by decide)).bind ?_
  exact writes_flag _

/-- `p` goes out in 25 bits that start with its type and call. -/
structure SentAs (p : CmcePdu) (enc : BitBuffer) : Prop where
  encoded : encodeForPost p .downlink = .ok (enc, 25)
  header_eq : window enc.buffer 0 19 = callHeader p.pduType p.callIdentifier

theorem sentAs_of_writes {p : CmcePdu} {rest : List Bool} (hrest : rest.length = 6)
    (htype : p.pduType ≠ .nwrkBroadcast)
    (h : Writes (cmceEncoder p .downlink) (callHeader p.pduType p.callIdentifier ++ rest)) :
    ∃ enc, SentAs p enc := by
  have hlen : (callHeader p.pduType p.callIdentifier ++ rest).length = 25 := by
    rw [List.length_append, hrest, callHeader, List.length_append, msbBits_length, msbBits_length]
  obtain ⟨enc, hrun, hput⟩ := h cmceEncodeBuffer (by rw [hlen]; decide)
  have hpos : enc.pos = 25 := by
    rw [hput.pos_eq, hlen]
    rfl
  have hstart : enc.start = 0 := hput.start_eq
  refine ⟨enc, ?_, ?_⟩
  · rw [encodeForPost, if_neg htype, cmcePduEncode]
    simp only
    rw [hrun]
    show Except.ok (enc, enc.pos - enc.start - (0 - 0)) = _
    rw [hpos, hstart]
  · have hw := hput.window_eq
    exact (window_eq_append hw).1

theorem callProceedingResp_sent {pdu : CmcePdu} (hid : pdu.callIdentifier ≤ 0x3FFF) :
    ∃ enc, SentAs (callProceedingResp pdu) enc := by
  obtain ⟨rest, hrest, h⟩ := encodeDCallProceeding_writes (p := callProceedingResp pdu) hid
    (by decide : (0 : Byte) ≤ 7)
  exact sentAs_of_writes hrest CmcePduType.noConfusion h

theorem txGrantedResp_sent {pdu : CmcePdu} (hid : pdu.callIdentifier ≤ 0x3FFF) :
    ∃ enc, SentAs (txGrantedResp pdu) enc := by
  obtain ⟨rest, hrest, h⟩ := encodeDTxGranted_writes (p := txGrantedResp pdu) hid
  exact sentAs_of_writes hrest CmcePduType.noConfusion h

theorem releaseResp_sent {pdu : CmcePdu} (hid : pdu.callIdentifier ≤ 0x3FFF) :
    ∃ enc, SentAs (releaseResp pdu) enc := by
  obtain ⟨rest, hrest, h⟩ := encodeRelease_writes (p := releaseResp pdu) hid
    (by decide : (0 : BitVec 32) ≤ 0x1F)
  exact sentAs_of_writes hrest CmcePduType.noConfusion h

/-! Posting. -/

/-- The bus takes a downlink. The size of a TLE message does not depend on its content. -/
def CmceRoom (bus : Bus) : Prop :=
  60 ≤ (bus.queues .normal).maxPayload ∧
    (bus.pending .normal).length < (bus.queues .normal).ring.cap

instance (bus : Bus) : Decidable (CmceRoom bus) := inferInstanceAs (Decidable (_ ∧ _))

theorem accepts_cmceDownlink (bus : Bus) (m : TleSapMsg) :
    bus.Accepts .normal (cmceTleMsg m) ↔ CmceRoom bus :=
  MsgBus.accepts_addressed SapId.noConfusion SapId.noConfusion

/-- `b'` comes from `b` by one attempt to post an encoded PDU to the party of `m`. -/
structure Sent (b b' : Bus) (m : TleSapMsg) (enc : BitBuffer) : Prop where
  posted : CmceRoom b → ∀ q, b'.pending q = if q = .normal then
    b.pending q ++ [cmceTleMsg (cmceDownlink m.endpoint m.addr enc.buffer 25)]
    else b.pending q
  refused : ¬CmceRoom b → ∀ q, b'.pending q = b.pending q

theorem cmcePost_sent {s : CmceEnv} (hinit : s.cmce.initialised = true) (m : TleSapMsg)
    {p : CmcePdu} {enc : BitBuffer} (h : SentAs p enc) :
    (cmcePostTmaUnitdataReq s m.endpoint m.addr p .downlink).1.cmce.calls = s.cmce.calls ∧
      (cmcePostTmaUnitdataReq s m.endpoint m.addr p .downlink).1.cmce.initialised =
        s.cmce.initialised ∧
      Sent s.bus (cmcePostTmaUnitdataReq s m.endpoint m.addr p .downlink).1.bus m enc := by
  have hcases := msgbusPost_cases s.bus .normal
    (cmceTleMsg (cmceDownlink m.endpoint m.addr enc.buffer 25))
  have hprio : sapPrioDefault .tleSap = MsgPriority.normal := rfl
  rw [accepts_cmceDownlink] at hcases
  rw [cmcePostTmaUnitdataReq, if_neg (by rw [hinit]; decide), h.encoded]
  simp only
  rw [if_neg (by decide), hprio]
  generalize msgbusPost s.bus .normal
    (cmceTleMsg (cmceDownlink m.endpoint m.addr enc.buffer 25)) = r at hcases
  obtain ⟨bus, e⟩ := r
  obtain ⟨hroom, hok, happend⟩ | ⟨hfull, hno, hsame⟩ := hcases
  · simp only at hok happend
    subst hok
    exact ⟨rfl, rfl, fun _ => happend, fun hno => absurd hroom hno⟩
  · simp only at hno hsame
    obtain ⟨e, rfl⟩ := Option.ne_none_iff_exists'.1 hno
    exact ⟨rfl, rfl, fun hroom => absurd hroom hfull, fun _ => hsame⟩

/-! Decoders. -/

/-- What the uplink decoder returns is one of three PDUs, with a 14-bit call identifier. -/
structure UplinkPdu (p : CmcePdu) : Prop where
  type_mem : p.pduType = .setup ∧ p.callIdentifier = 0 ∨ p.pduType = .txDemand ∨
    p.pduType = .release
  id_le : p.callIdentifier ≤ 0x3FFF

theorem ensures_getCallIdentifier :
    Ensures (fun _ => True) getCallIdentifier fun v _ => v ≤ 0x3FFF := by
  rw [getCallIdentifier]
  refine ensures_bind_of (ensures_getBits (by decide) (by decide)) fun v hv => ?_
  refine ensures_pure fun _ _ => ?_
  show (v.setWidth 16).toNat ≤ 16383
  rw [BitVec.toNat_setWidth]
  omega

theorem decodeUSetup_uplink (n : Nat) :
    Ensures (fun _ => True) (decodeUSetup { pduType := .setup } n) fun p _ => UplinkPdu p := by
  have hparty : ∀ p : CmcePdu, UplinkPdu p →
      Ensures (fun _ => True) (getCalledParty p) fun q _ => UplinkPdu q := by
    intro p hp
    rw [getCalledParty]
    cases p.calledPartyTypeIdentifier with
    | sna =>
      iterate 3 refine ensures_bind_any fun _ => ?_
      exact ensures_pure fun _ _ => ⟨hp.type_mem, hp.id_le⟩
    | reserved => exact ensures_pure fun _ _ => hp
    | _ =>
      iterate 3 refine ensures_bind_any fun _ => ?_
      exact ensures_pure fun _ _ => ⟨hp.type_mem, hp.id_le⟩
  rw [decodeUSetup]
  iterate 9 refine ensures_bind_any fun _ => ?_
  refine ensures_bind_of (hparty _ ⟨Or.inl ⟨rfl, rfl⟩, (by decide : (0 : BitVec 16) ≤ 0x3FFF)⟩)
    fun p hp => ?_
  refine ensures_bind_any fun _ => ensures_pure fun _ _ => ⟨hp.type_mem, hp.id_le⟩

theorem decodeUTxDemand_uplink (n : Nat) :
    Ensures (fun _ => True) (decodeUTxDemand { pduType := .txDemand } n)
      fun p _ => UplinkPdu p := by
  rw [decodeUTxDemand]
  refine ensures_bind_any fun _ => ?_
  refine ensures_bind_of ensures_getCallIdentifier fun v hv => ?_
  iterate 4 refine ensures_bind_any fun _ => ?_
  exact ensures_pure fun _ _ => ⟨Or.inr (Or.inl rfl), hv⟩

theorem decodeRelease_uplink (n : Nat) :
    Ensures (fun _ => True) (decodeRelease { pduType := .release } n)
      fun p _ => UplinkPdu p := by
  rw [decodeRelease]
  refine ensures_bind_any fun _ => ?_
  refine ensures_bind_of ensures_getCallIdentifier fun v hv => ?_
  iterate 2 refine ensures_bind_any fun _ => ?_
  exact ensures_pure fun _ _ => ⟨Or.inr (Or.inr rfl), hv⟩

theorem ensures_failWith {α : Type} (e : Errno) (Q : α → BitBuffer → Prop) :
    Ensures (fun _ => True) (failWith e : BitM α) Q := by
  intro _ _ _ _ hrun
  cases hrun

theorem decodeCmcePdu_uplink (n : Nat) :
    Ensures (fun _ => True) (decodeCmcePdu .uplink n) fun p _ => UplinkPdu p := by
  rw [decodeCmcePdu]
  refine ensures_bind_any fun _ => ?_
  refine ensures_bind_any fun raw => ?_
  have hdecoder : Ensures (fun _ => True) (cmceDecoder (CmcePduType.ofRaw raw) .uplink n)
      fun p _ => UplinkPdu p := by
    cases CmcePduType.ofRaw raw with
    | setup => exact decodeUSetup_uplink n
    | txDemand => exact decodeUTxDemand_uplink n
    | release => exact decodeRelease_uplink n
    | _ => exact ensures_failWith _ _
  refine ensures_bind_of hdecoder fun p hp => ?_
  exact ensures_pure fun _ _ => ⟨hp.type_mem, hp.id_le⟩

theorem cmcePduFromBody_uplink {body : List Byte} {n : Nat} {p : CmcePdu}
    (h : cmcePduFromBody body n .uplink = .ok p) : UplinkPdu p := by
  rw [cmcePduFromBody] at h
  by_cases h0 : n = 0
  · rw [if_pos h0] at h
    cases h
  rw [if_neg h0] at h
  by_cases hbig : cmcePduBodyMaxBytes < (n + 7) / 8
  · rw [if_pos hbig] at h
    cases h
  rw [if_neg hbig] at h
  obtain ⟨-, hp⟩ := ensures_map_fst (decodeCmcePdu_uplink n) trivial h
  exact hp

/-! The type at the start of a body. -/

/-- The filter passes exactly the six type codes. -/
theorem looksCmce_eq (body : List Byte) :
    looksCmce body = decide (CmcePduType.ofRaw ((body.getD 0 0 >>> 3) &&& 0x1F) ≠ .unknown) := by
  have hall : ∀ pt : Byte, ([CmcePduType.setup, .callProceeding, .connect, .txDemand, .txGranted,
      .release].any fun t => pt == t.value) = decide (CmcePduType.ofRaw pt ≠ .unknown) := by
    decide +kernel
  exact hall _

/-- The first five bits of a body, as the decoder and as the filter read them. -/
theorem first_five {v : BitVec 32} {body : List Byte} {k : Nat} (hk : 0 < k)
    (h : Holds v (scratchOf body k) 0 5) : v.setWidth 8 = (body.getD 0 0 >>> 3) &&& 0x1F := by
  have hbyte : (scratchOf body k).getD 0 0 = body.getD 0 0 := by
    rw [scratchOf, List.getD_eq_getElem?_getD, List.getElem?_map, List.getElem?_range hk]
    rfl
  apply BitVec.eq_of_getLsbD_eq
  intro j hj
  rw [BitVec.getLsbD_setWidth, decide_eq_true hj, Bool.true_and, h j (by omega), BitVec.getLsbD_and,
    BitVec.getLsbD_ushiftRight]
  by_cases hlow : j < 5
  · have hmask : ∀ i < 5, (0x1F : Byte).getLsbD i = true := by decide
    rw [decide_eq_true (by omega), Bool.true_and, hmask j hlow, Bool.and_true, bitAt,
      (by omega : (5 - 1 - j) / 8 = 0), hbyte, (by omega : 7 - (5 - 1 - j) % 8 = 3 + j)]
  · have hmask : ∀ i < 8, 5 ≤ i → (0x1F : Byte).getLsbD i = false := by decide
    rw [decide_eq_false (by omega), Bool.false_and, hmask j hj (by omega), Bool.and_false]

/-- The decoder takes its type from the first five bits. -/
theorem ensures_getType {body : List Byte} {n : Nat} (bb : BitBuffer)
    (hbuf : bb.buffer = scratchOf body ((n + 7) / 8)) (hpos : bb.pos = 0) (hend : bb.endBits = n) :
    Ensures (fun b => b = bb ∧ 5 ≤ n) (getByte 5)
      fun raw _ => raw = (body.getD 0 0 >>> 3) &&& 0x1F ∧ 5 ≤ n := by
  rintro b ⟨rfl, h5⟩ raw b' hrun
  obtain ⟨v, c, hget, hholds, -⟩ := bbGetBits_spec b (n := 5) (by decide) (by decide)
    (by rw [hpos, hend]; omega)
  have hbits : (getBits 5).run b = .ok (v, c) := hget
  rw [getByte, StateT.run_bind, hbits] at hrun
  cases hrun
  rw [hpos, hbuf] at hholds
  exact ⟨first_five (by omega) hholds, h5⟩

/-- A body that decodes has five bits and passes the filter. -/
theorem cmcePduFromBody_looks {body : List Byte} {n : Nat} {p : CmcePdu}
    (h : cmcePduFromBody body n .uplink = .ok p) : 5 ≤ n ∧ looksCmce body = true := by
  rw [cmcePduFromBody] at h
  by_cases h0 : n = 0
  · rw [if_pos h0] at h
    cases h
  rw [if_neg h0] at h
  by_cases hbig : cmcePduBodyMaxBytes < (n + 7) / 8
  · rw [if_pos hbig] at h
    cases h
  rw [if_neg hbig] at h
  have hlooks : Ensures
      (fun b => b = bbInit (scratchOf body ((n + 7) / 8)) n (scratchOf_cap body n))
      (decodeCmcePdu .uplink n) fun _ _ => 5 ≤ n ∧ looksCmce body = true := by
    rw [decodeCmcePdu]
    refine ensures_bind (ensures_failUnless _) fun _ => ?_
    refine ensures_bind (ensures_getType _ rfl rfl rfl) fun raw => ?_
    have hdecoder : Ensures (fun _ => raw = (body.getD 0 0 >>> 3) &&& 0x1F ∧ 5 ≤ n)
        (cmceDecoder (CmcePduType.ofRaw raw) .uplink n)
        fun _ _ => 5 ≤ n ∧ looksCmce body = true := by
      intro b hb q b' hrun
      rw [looksCmce_eq, ← hb.1]
      refine ⟨hb.2, decide_eq_true fun hunknown => ?_⟩
      rw [hunknown] at hrun
      cases hrun
    exact ensures_bind hdecoder fun q => ensures_pure fun _ hq => hq
  obtain ⟨-, hp⟩ := ensures_map_fst hlooks rfl h
  exact hp

/-! The slot automaton. -/

/-- What an event does to a slot in use. -/
def nextSlot (slot : CmceCallSlot) : CmcePduType → CmceCallSlot
  | .setup => { slot with state := .setupPending }
  | .callProceeding =>
    if slot.state = .setupPending then { slot with state := .proceeding } else slot
  | .connect =>
    if slot.state = .proceeding ∨ slot.state = .setupPending then
      { slot with state := .connected }
    else slot
  | .txDemand => if slot.state = .connected then { slot with state := .txGranted } else slot
  | .txGranted =>
    if slot.state = .connected ∨ slot.state = .txGranted then { slot with state := .txGranted }
    else slot
  | .release =>
    if slot.state = .releasing then slot.released
    else if slot.state ≠ .idle then { slot with state := .releasing }
    else slot
  | _ => slot

/-- An event for a slot in use moves that slot and nothing else of the table. -/
theorem fsmTransition_calls (cmce : Cmce) (i : Fin cmceMaxCalls) (pdu : CmcePdu)
    (dir : CmceDirection) :
    (fsmTransition cmce i pdu dir).calls =
        Slots.set cmce.calls i (nextSlot (cmce.calls i) pdu.pduType) ∧
      (fsmTransition cmce i pdu dir).initialised = cmce.initialised := by
  unfold fsmTransition
  cases pdu.pduType with
  | setup =>
    cases dir with
    | downlink => exact ⟨rfl, rfl⟩
    | uplink =>
      simp only
      split
      · exact ⟨rfl, rfl⟩
      · exact ⟨rfl, rfl⟩
  | callProceeding =>
    simp only [nextSlot]
    split
    · exact ⟨rfl, rfl⟩
    · exact ⟨((Slots.set_eq_self_iff _ i _).2 rfl).symm, rfl⟩
  | connect =>
    simp only [nextSlot]
    split
    · exact ⟨rfl, rfl⟩
    · exact ⟨((Slots.set_eq_self_iff _ i _).2 rfl).symm, rfl⟩
  | txDemand =>
    simp only [nextSlot]
    split
    · exact ⟨rfl, rfl⟩
    · exact ⟨((Slots.set_eq_self_iff _ i _).2 rfl).symm, rfl⟩
  | txGranted =>
    simp only [nextSlot]
    split
    · exact ⟨rfl, rfl⟩
    · exact ⟨((Slots.set_eq_self_iff _ i _).2 rfl).symm, rfl⟩
  | release =>
    simp only [nextSlot]
    split
    · exact ⟨rfl, rfl⟩
    · split
      · exact ⟨rfl, rfl⟩
      · exact ⟨((Slots.set_eq_self_iff _ i _).2 rfl).symm, rfl⟩
  | nwrkBroadcast => exact ⟨((Slots.set_eq_self_iff _ i _).2 rfl).symm, rfl⟩
  | unknown => exact ⟨((Slots.set_eq_self_iff _ i _).2 rfl).symm, rfl⟩

/-- What `cmce_fsm_apply` does to the slot it is given. -/
def applySlot (slot : CmceCallSlot) (t : CmcePduType) : CmceCallSlot :=
  if slot.inUse then nextSlot slot t else slot

theorem cmceFsmApply_calls (cmce : Cmce) (i : Fin cmceMaxCalls) (pdu : CmcePdu)
    (dir : CmceDirection) :
    (cmceFsmApply cmce (some i) pdu dir).2.calls =
        Slots.set cmce.calls i (applySlot (cmce.calls i) pdu.pduType) ∧
      (cmceFsmApply cmce (some i) pdu dir).2.initialised = cmce.initialised := by
  rw [cmceFsmApply, applySlot]
  cases huse : (cmce.calls i).inUse with
  | false => exact ⟨((Slots.set_eq_self_iff _ i _).2 rfl).symm, rfl⟩
  | true => exact fsmTransition_calls cmce i pdu dir

/-! One uplink PDU for a call slot. -/

def cmceResp (pdu : CmcePdu) : CmcePdu :=
  match pdu.pduType with
  | .setup => callProceedingResp pdu
  | .txDemand => txGrantedResp pdu
  | _ => releaseResp pdu

/-- A release is applied twice, once for the uplink PDU and once for its answer. -/
def handledSlot (slot : CmceCallSlot) (t : CmcePduType) : CmceCallSlot :=
  if t = .release then applySlot (applySlot slot .release) .release else applySlot slot t

theorem cmceResp_sent {pdu : CmcePdu} (h : UplinkPdu pdu) : ∃ enc, SentAs (cmceResp pdu) enc := by
  rw [cmceResp]
  obtain ⟨ht, -⟩ | ht | ht := h.type_mem
  · rw [ht]
    exact callProceedingResp_sent h.id_le
  · rw [ht]
    exact txGrantedResp_sent h.id_le
  · rw [ht]
    exact releaseResp_sent h.id_le

/-- An uplink PDU moves its slot, and its answer is posted if the bus takes it. -/
theorem cmceHandlePdu_spec {s : CmceEnv} (hinit : s.cmce.initialised = true) (m : TleSapMsg)
    (i : Fin cmceMaxCalls) {pdu : CmcePdu} (h : UplinkPdu pdu) :
    ∃ enc, SentAs (cmceResp pdu) enc ∧
      (cmceHandlePdu s m i pdu).cmce.calls =
        Slots.set s.cmce.calls i (handledSlot (s.cmce.calls i) pdu.pduType) ∧
      (cmceHandlePdu s m i pdu).cmce.initialised = true ∧
      Sent s.bus (cmceHandlePdu s m i pdu).bus m enc := by
  obtain ⟨enc, henc⟩ := cmceResp_sent h
  refine ⟨enc, henc, ?_⟩
  obtain ⟨hcalls, hkeep⟩ := cmceFsmApply_calls s.cmce i pdu .uplink
  rw [hinit] at hkeep
  have hpost := @cmcePost_sent { s with cmce := (cmceFsmApply s.cmce (some i) pdu .uplink).2 }
    hkeep m (cmceResp pdu) enc henc
  obtain ⟨hpc, hpi, hsent⟩ := hpost
  rw [cmceHandlePdu, handledSlot]
  obtain ⟨ht, -⟩ | ht | ht := h.type_mem
  · rw [cmceResp, ht] at hpc hpi hsent
    rw [ht] at hcalls
    rw [ht, if_neg CmcePduType.noConfusion]
    exact ⟨hpc.trans hcalls, hpi.trans hkeep, hsent⟩
  · rw [cmceResp, ht] at hpc hpi hsent
    rw [ht] at hcalls
    rw [ht, if_neg CmcePduType.noConfusion]
    exact ⟨hpc.trans hcalls, hpi.trans hkeep, hsent⟩
  · rw [cmceResp, ht] at hpc hpi hsent
    rw [ht] at hcalls
    rw [ht, if_pos rfl]
    have hcalls2 := hpc.trans hcalls
    have hkeep2 := hpi.trans hkeep
    simp only at hcalls2 hkeep2 hsent ⊢
    generalize cmcePostTmaUnitdataReq
      { s with cmce := (cmceFsmApply s.cmce (some i) pdu .uplink).2 } m.endpoint m.addr
      (releaseResp pdu) .downlink = r at hcalls2 hkeep2 hsent
    obtain ⟨hlast, hend⟩ := cmceFsmApply_calls r.1.cmce i (releaseResp pdu) .downlink
    refine ⟨?_, hend.trans hkeep2, hsent⟩
    rw [hlast, hcalls2, Slots.set_self, Slots.set_set]
    rfl

/-! Finding and taking a slot. -/

theorem cmceCallLookup_some {cmce : Cmce} {id : BitVec 16} {i : Fin cmceMaxCalls}
    (h : cmceCallLookup cmce id = some i) :
    (cmce.calls i).inUse = true ∧ (cmce.calls i).callIdentifier = id := by
  have hfound := Slots.find_some h
  rw [Bool.and_eq_true, beq_iff_eq] at hfound
  exact hfound

theorem cmceCallLookup_none {cmce : Cmce} {id : BitVec 16} (h : cmceCallLookup cmce id = none)
    (i : Fin cmceMaxCalls) (huse : (cmce.calls i).inUse = true) :
    (cmce.calls i).callIdentifier ≠ id := by
  have hnot := Slots.find_none h i
  rw [huse, Bool.true_and] at hnot
  exact beq_eq_false_iff_ne.1 hnot

/-- A call without a slot takes a free one, and no slot changes if there is none. -/
theorem cmceCallAlloc_cases {cmce : Cmce} {id : BitVec 16} (peer : TetraAddress)
    (endpoint : EndpointId) (h : cmceCallLookup cmce id = none) :
    (∃ i, (cmce.calls i).inUse = false ∧ cmceCallAlloc cmce id peer endpoint =
        (some i, cmce.setCall i (freshCall id peer endpoint))) ∨
      (∀ i, (cmce.calls i).inUse = true) ∧ cmceCallAlloc cmce id peer endpoint = (none, cmce) := by
  rw [cmceCallAlloc, h]
  simp only
  cases hfree : Slots.find (fun slot : CmceCallSlot => !slot.inUse) cmce.calls with
  | some i =>
    have huse := Slots.find_some hfree
    exact Or.inl ⟨i, by simpa using huse, rfl⟩
  | none =>
    refine Or.inr ⟨fun i => ?_, rfl⟩
    have huse := Slots.find_none hfree i
    simpa using huse

theorem handledSlot_fresh (id : BitVec 16) (peer : TetraAddress) (endpoint : EndpointId) :
    handledSlot (freshCall id peer endpoint) .setup = freshCall id peer endpoint := rfl

/-- A U-SETUP without a slot: the first free one is taken and the answer posted, or nothing
happens. -/
theorem cmceHandleNewCall_cases {s : CmceEnv} (hinit : s.cmce.initialised = true) (m : TleSapMsg)
    {pdu : CmcePdu} (h : UplinkPdu pdu) (ht : pdu.pduType = .setup)
    (hfind : cmceCallLookup s.cmce pdu.callIdentifier = none) :
    (∃ i enc, (s.cmce.calls i).inUse = false ∧ SentAs (cmceResp pdu) enc ∧
        (cmceHandleNewCall s m pdu).1.cmce.calls =
          Slots.set s.cmce.calls i (freshCall pdu.callIdentifier m.addr m.endpoint) ∧
        (cmceHandleNewCall s m pdu).1.cmce.initialised = true ∧
        Sent s.bus (cmceHandleNewCall s m pdu).1.bus m enc) ∨
      (∀ i, (s.cmce.calls i).inUse = true) ∧
        (cmceHandleNewCall s m pdu).1 = { s with cmce := s.cmce.countDrop } := by
  rw [cmceHandleNewCall]
  obtain ⟨i, hfree, halloc⟩ | ⟨hfull, halloc⟩ :=
    cmceCallAlloc_cases m.addr m.endpoint hfind
  · rw [halloc]
    have hspec := @cmceHandlePdu_spec
      { s with cmce := s.cmce.setCall i (freshCall pdu.callIdentifier m.addr m.endpoint) } hinit m i
      pdu h
    obtain ⟨enc, hsent, hcalls, hkeep, hbus⟩ := hspec
    refine Or.inl ⟨i, enc, hfree, hsent, ?_, hkeep, hbus⟩
    rw [ht] at hcalls
    simp only [Cmce.setCall, Slots.set_self, Slots.set_set, handledSlot_fresh] at hcalls
    exact hcalls
  · rw [halloc]
    exact Or.inr ⟨hfull, rfl⟩

end TetraBs
