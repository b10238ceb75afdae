import TetraBs.Cmce.Spec
import TetraBs.Lib.BitReader
import TetraBs.Lib.Run

/-! The call slots over any run of FSM events and upcalls. -/
namespace TetraBs
open TetraBs.Bits TetraBs.BitReader TetraBs.Run

/-- An FSM event for a call identifier, or a message from below. -/
inductive CmceOp where
  | fsmEvent (callIdentifier : BitVec 16) (pdu : CmcePdu) (dir : CmceDirection)
  | tleMsg (m : TleSapMsg)

def CmceOp.run (s : CmceEnv) : CmceOp → CmceEnv
  | .fsmEvent id pdu dir =>
    { s with cmce := (cmceFsmApply s.cmce (cmceCallLookup s.cmce id) pdu dir).2 }
  | .tleMsg m => (cmceHandleTleMsg s m).1

/-- An operation on the bus it finds. -/
def CmceEnv.onBus (s : CmceEnv) (bus : Bus) : CmceEnv := { s with bus := bus }

def cmceStep (s : CmceEnv) (c : Bus × CmceOp) : CmceEnv := c.2.run (s.onBus c.1)

/-- The entity as `cmce_init` leaves it. -/
def cmceStart (cfg : CmceCfg) : Cmce :=
  { cfg :=
      { cfg with
        nwrkBcastPeriodMultiframes :=
          if cfg.nwrkBcastPeriodMultiframes = 0 then 10 else cfg.nwrkBcastPeriodMultiframes
        cellReSelectParametersSeed :=
          if cfg.cellReSelectParametersSeed = 0 then 0x5655 else cfg.cellReSelectParametersSeed }
    initialised := true }

/-- A slot is in use exactly if it is not idle, and no two have the same call. -/
structure CallsOk (calls : Fin cmceMaxCalls → CmceCallSlot) : Prop where
  inUse_iff : ∀ i, (calls i).inUse = true ↔ (calls i).state ≠ .idle
  distinct : ∀ i j, (calls i).inUse = true → (calls j).inUse = true →
    (calls i).callIdentifier = (calls j).callIdentifier → i = j

/-- The events a call state has a transition for. -/
def validEvent : CmceCallState → CmcePduType → Bool
  | .idle, .setup => true
  | .setupPending, .callProceeding => true
  | .setupPending, .connect => true
  | .proceeding, .connect => true
  | .connected, .txDemand => true
  | .connected, .txGranted => true
  | .txGranted, .txGranted => true
  | .idle, .release => false
  | _, .release => true
  | _, _ => false

/-- The call an operation is about, and the type of its PDU. -/
def CmceOp.event : CmceOp → Option (BitVec 16 × CmcePduType)
  | .fsmEvent id pdu _ => some (id, pdu.pduType)
  | .tleMsg m =>
    match cmcePduFromBody m.pdu.body m.pdu.bodyLenBits .uplink with
    | .ok pdu => some (pdu.callIdentifier, pdu.pduType)
    | .error _ => none

/-- A call without a slot is idle. -/
def callState (cmce : Cmce) (id : BitVec 16) : CmceCallState :=
  match cmceCallLookup cmce id with
  | some i => (cmce.calls i).state
  | none => .idle

def CallGranted (cmce : Cmce) (id : BitVec 16) : Prop := callState cmce id = .txGranted

/-- A message was posted that starts as the D-TX-GRANTED of call `id` does. -/
def GrantEmitted (b b' : Bus) (id : BitVec 16) : Prop :=
  id ≤ 0x3FFF ∧ ∃ m : TleSapMsg, b'.pending .normal = b.pending .normal ++ [cmceTleMsg m] ∧
    19 ≤ m.pdu.bodyLenBits ∧ window m.pdu.body 0 19 = callHeader .txGranted id

/-- What one operation may do. -/
structure CallDiscipline (s : CmceEnv) (op : CmceOp) (s' : CmceEnv) : Prop where
  granted : ∀ id, GrantEmitted s.bus s'.bus id → CallGranted s.cmce id ∨ CallGranted s'.cmce id
  invalid_ignored : ∀ id t, op.event = some (id, t) →
    validEvent (callState s.cmce id) t = false → s'.cmce.calls = s.cmce.calls

/-- No setup for a live call past its setup phase, and no U-TX-DEMAND that would be answered for a
live call that is neither connected nor granted. -/
def Orderly (s : CmceEnv) (op : CmceOp) : Prop :=
  ∀ id t, op.event = some (id, t) → ∀ i, cmceCallLookup s.cmce id = some i →
    (t = .setup → (s.cmce.calls i).state = .setupPending) ∧
    (t = .txDemand → (∃ m, op = .tleMsg m) → CmceRoom s.bus →
      (s.cmce.calls i).state = .connected ∨ (s.cmce.calls i).state = .txGranted)

/-! The slots. -/

theorem callsOk_start (cfg : CmceCfg) : CallsOk (cmceStart cfg).calls where
  inUse_iff := fun _ => ⟨Bool.noConfusion, fun h => absurd rfl h⟩
  distinct := fun i j h => by cases h

/-- Replacing a slot by one of the same call, or by a free one. -/
theorem CallsOk.set {calls : Fin cmceMaxCalls → CmceCallSlot} (h : CallsOk calls)
    {i : Fin cmceMaxCalls} {slot : CmceCallSlot}
    (hslot : slot.inUse = true ↔ slot.state ≠ .idle)
    (hid : slot.inUse = true → ∀ j, j ≠ i → (calls j).inUse = true →
      (calls j).callIdentifier ≠ slot.callIdentifier) : CallsOk (Slots.set calls i slot) := by
  constructor
  · intro j
    by_cases hj : j = i
    · rw [hj, Slots.set_self]
      exact hslot
    · rw [Slots.set_other _ _ hj]
      exact h.inUse_iff j
  · intro j k hj hk heq
    by_cases hji : j = i
    · by_cases hki : k = i
      · rw [hji, hki]
      · rw [hji, Slots.set_self] at hj heq
        rw [Slots.set_other _ _ hki] at hk heq
        exact absurd heq.symm (hid hj k hki hk)
    · by_cases hki : k = i
      · rw [hki, Slots.set_self] at hk heq
        rw [Slots.set_other _ _ hji] at hj heq
        exact absurd heq (hid hk j hji hj)
      · rw [Slots.set_other _ _ hji] at hj heq
        rw [Slots.set_other _ _ hki] at hk heq
        exact h.distinct j k hj hk heq

/-- An event keeps the call of a slot or frees the slot. -/
theorem applySlot_ok {slot : CmceCallSlot} (h : slot.inUse = true ↔ slot.state ≠ .idle)
    (t : CmcePduType) :
    ((applySlot slot t).inUse = true ↔ (applySlot slot t).state ≠ .idle) ∧
      ((applySlot slot t).inUse = true → slot.inUse = true ∧
        (applySlot slot t).callIdentifier = slot.callIdentifier) := by
  obtain ⟨inUse, id, state, peer, endpoint, retry⟩ := slot
  cases inUse with
  | false => exact ⟨h, fun huse => ⟨huse, rfl⟩⟩
  | true =>
    simp only [true_iff] at h
    cases t <;> cases state <;>
      simp_all [applySlot, nextSlot, CmceCallSlot.released]

theorem handledSlot_ok {slot : CmceCallSlot} (h : slot.inUse = true ↔ slot.state ≠ .idle)
    (t : CmcePduType) :
    ((handledSlot slot t).inUse = true ↔ (handledSlot slot t).state ≠ .idle) ∧
      ((handledSlot slot t).inUse = true → slot.inUse = true ∧
        (handledSlot slot t).callIdentifier = slot.callIdentifier) := by
  rw [handledSlot]
  split
  · obtain ⟨h1, hid1⟩ := applySlot_ok h .release
    obtain ⟨h2, hid2⟩ := applySlot_ok h1 .release
    refine ⟨h2, fun huse => ?_⟩
    obtain ⟨hmid, heq⟩ := hid2 huse
    obtain ⟨hold, heq'⟩ := hid1 hmid
    exact ⟨hold, heq.trans heq'⟩
  · exact applySlot_ok h t

/-- A slot in use whose content is replaced by content of the same call, or freed. -/
theorem CallsOk.set_same_call {calls : Fin cmceMaxCalls → CmceCallSlot} (h : CallsOk calls)
    {i : Fin cmceMaxCalls} {slot : CmceCallSlot}
    (hslot : slot.inUse = true ↔ slot.state ≠ .idle)
    (hid : slot.inUse = true → (calls i).inUse = true ∧
      slot.callIdentifier = (calls i).callIdentifier) : CallsOk (Slots.set calls i slot) := by
  refine h.set hslot fun huse j hji hj heq => ?_
  obtain ⟨hi, hsame⟩ := hid huse
  exact hji (h.distinct j i hj hi (heq.trans hsame))

/-! One operation. -/

/-- What an operation can do, on an entity that is initialised. -/
inductive CmceOutcome (s : CmceEnv) : CmceOp → CmceEnv → Prop where
  /-- the PDU does not decode, or its call has no slot and gets none -/
  | dropped {op : CmceOp} {s' : CmceEnv}
      (event : ∀ id t, op.event = some (id, t) → cmceCallLookup s.cmce id = none)
      (calls_eq : s'.cmce.calls = s.cmce.calls)
      (pending_eq : ∀ q, s'.bus.pending q = s.bus.pending q) : CmceOutcome s op s'
  /-- an FSM event for a slot -/
  | applied {id : BitVec 16} {pdu : CmcePdu} {dir : CmceDirection} {s' : CmceEnv}
      {i : Fin cmceMaxCalls} (found : cmceCallLookup s.cmce id = some i)
      (calls_eq : s'.cmce.calls =
        Slots.set s.cmce.calls i (applySlot (s.cmce.calls i) pdu.pduType))
      (bus_eq : s'.bus = s.bus) : CmceOutcome s (.fsmEvent id pdu dir) s'
  /-- an uplink PDU for a call with a slot, and its answer -/
  | handled {m : TleSapMsg} {pdu : CmcePdu} {s' : CmceEnv} {i : Fin cmceMaxCalls}
      {enc : BitBuffer}
      (decoded : cmcePduFromBody m.pdu.body m.pdu.bodyLenBits .uplink = .ok pdu)
      (found : cmceCallLookup s.cmce pdu.callIdentifier = some i)
      (calls_eq : s'.cmce.calls =
        Slots.set s.cmce.calls i (handledSlot (s.cmce.calls i) pdu.pduType))
      (answer : SentAs (cmceResp pdu) enc) (sent : Sent s.bus s'.bus m enc) :
      CmceOutcome s (.tleMsg m) s'
  /-- a U-SETUP that takes a free slot, and its answer -/
  | taken {m : TleSapMsg} {pdu : CmcePdu} {s' : CmceEnv} {i : Fin cmceMaxCalls}
      {enc : BitBuffer}
      (decoded : cmcePduFromBody m.pdu.body m.pdu.bodyLenBits .uplink = .ok pdu)
      (setup : pdu.pduType = .setup)
      (fresh : cmceCallLookup s.cmce pdu.callIdentifier = none)
      (free : (s.cmce.calls i).inUse = false)
      (calls_eq : s'.cmce.calls =
        Slots.set s.cmce.calls i (freshCall pdu.callIdentifier m.addr m.endpoint))
      (answer : SentAs (cmceResp pdu) enc) (sent : Sent s.bus s'.bus m enc) :
      CmceOutcome s (.tleMsg m) s'

theorem event_tleMsg {m : TleSapMsg} {pdu : CmcePdu}
    (h : cmcePduFromBody m.pdu.body m.pdu.bodyLenBits .uplink = .ok pdu) :
    (CmceOp.tleMsg m).event = some (pdu.callIdentifier, pdu.pduType) := by
  rw [CmceOp.event, h]

theorem handleTleMsg_outcome {s : CmceEnv} (hinit : s.cmce.initialised = true) (m : TleSapMsg) :
    CmceOutcome s (.tleMsg m) (cmceHandleTleMsg s m).1 ∧
      (cmceHandleTleMsg s m).1.cmce.initialised = true := by
  unfold cmceHandleTleMsg
  rw [if_neg (by rw [hinit]; decide)]
  simp only
  cases hdec : cmcePduFromBody m.pdu.body m.pdu.bodyLenBits .uplink with
  | error e =>
    refine ⟨.dropped (fun id t h => ?_) rfl fun _ => rfl, hinit⟩
    rw [CmceOp.event, hdec] at h
    cases h
  | ok pdu =>
    have hup := cmcePduFromBody_uplink hdec
    have hlookup : cmceCallLookup s.cmce.countRx pdu.callIdentifier =
        cmceCallLookup s.cmce pdu.callIdentifier := rfl
    simp only
    rw [hlookup]
    cases hfind : cmceCallLookup s.cmce pdu.callIdentifier with
    | some i =>
      obtain ⟨enc, hanswer, hcalls, hkeep, hsent⟩ :=
        @cmceHandlePdu_spec { s with cmce := s.cmce.countRx } hinit m i pdu hup
      exact ⟨.handled hdec hfind hcalls hanswer hsent, hkeep⟩
    | none =>
      have hevent : ∀ id t, (CmceOp.tleMsg m).event = some (id, t) →
          cmceCallLookup s.cmce id = none := by
        intro id t h
        rw [event_tleMsg hdec] at h
        cases h
        exact hfind
      by_cases ht : pdu.pduType = .setup
      · simp only
        rw [if_pos ht]
        obtain ⟨i, enc, hfree, hanswer, hcalls, hkeep, hsent⟩ | ⟨-, hsame⟩ :=
          @cmceHandleNewCall_cases { s with cmce := s.cmce.countRx } hinit m pdu hup ht hfind
        · exact ⟨.taken hdec ht hfind hfree hcalls hanswer hsent, hkeep⟩
        · rw [hsame]
          exact ⟨.dropped hevent rfl fun _ => rfl, hinit⟩
      · simp only
        rw [if_neg ht]
        exact ⟨.dropped hevent rfl fun _ => rfl, hinit⟩

theorem CmceOp.run_outcome {s : CmceEnv} (hinit : s.cmce.initialised = true) (op : CmceOp) :
    CmceOutcome s op (op.run s) ∧ (op.run s).cmce.initialised = true := by
  cases op with
  | tleMsg m => exact handleTleMsg_outcome hinit m
  | fsmEvent id pdu dir =>
    rw [CmceOp.run]
    cases hfind : cmceCallLookup s.cmce id with
    | none =>
      refine ⟨.dropped (fun id' t h => ?_) rfl fun _ => rfl, hinit⟩
      cases h
      exact hfind
    | some i =>
      obtain ⟨hcalls, hkeep⟩ := cmceFsmApply_calls s.cmce i pdu dir
      exact ⟨.applied hfind hcalls rfl, hkeep.trans hinit⟩

theorem callsOk_outcome {s s' : CmceEnv} {op : CmceOp} (h : CallsOk s.cmce.calls)
    (ho : CmceOutcome s op s') : CallsOk s'.cmce.calls := by
  cases ho with
  | dropped event calls_eq pending_eq => rwa [calls_eq]
  | applied found calls_eq bus_eq =>
    rw [calls_eq]
    obtain ⟨hslot, hid⟩ := applySlot_ok (h.inUse_iff _) _
    exact h.set_same_call hslot hid
  | handled decoded found calls_eq answer sent =>
    rw [calls_eq]
    obtain ⟨hslot, hid⟩ := handledSlot_ok (h.inUse_iff _) _
    exact h.set_same_call hslot hid
  | taken decoded setup fresh free calls_eq answer sent =>
    rw [calls_eq]
    refine h.set ⟨fun _ => CmceCallState.noConfusion, fun _ => rfl⟩ fun _ j _ hj => ?_
    exact cmceCallLookup_none fresh j hj

/-! Grants. -/

theorem callHeader_id {t t' : CmcePduType} {id id' : BitVec 16} (hid : id ≤ 0x3FFF)
    (hid' : id' ≤ 0x3FFF) (h : callHeader t id = callHeader t' id') :
    msbBits (t.value.setWidth 32) 5 = msbBits (t'.value.setWidth 32) 5 ∧ id = id' := by
  obtain ⟨htype, hcall⟩ := List.append_inj h (by rw [msbBits_length, msbBits_length])
  refine ⟨htype, ?_⟩
  have hfield : ∀ v : BitVec 16, v ≤ 0x3FFF →
      ofBits (msbBits (v.setWidth 32 &&& 0x3FFF) 14) = v.toNat := by
    intro v hv
    have hle : v.toNat ≤ 16383 := hv
    have hmask : (0x3FFF : BitVec 32).toNat = 2 ^ 14 - 1 := by decide
    rw [ofBits_msbBits, BitVec.toNat_and, BitVec.toNat_setWidth, hmask,
      Nat.and_two_pow_sub_one_eq_mod]
    omega
  have hnum := congrArg ofBits hcall
  rw [hfield id hid, hfield id' hid'] at hnum
  exact BitVec.eq_of_toNat_eq hnum

/-- The header of an answer as it stands in the posted body. -/
theorem cmceDownlink_header {p : CmcePdu} {enc : BitBuffer} (h : SentAs p enc) (m : TleSapMsg) :
    window (cmceDownlink m.endpoint m.addr enc.buffer 25).pdu.body 0 19 =
      callHeader p.pduType p.callIdentifier := by
  rw [← h.header_eq]
  exact window_take _ (by decide)

/-- An answer is a grant exactly if it is posted and is the D-TX-GRANTED of the call. -/
theorem grantEmitted_iff {s s' : CmceEnv} {m : TleSapMsg} {p : CmcePdu} {enc : BitBuffer}
    (hp : p.callIdentifier ≤ 0x3FFF) (hanswer : SentAs p enc) (hsent : Sent s.bus s'.bus m enc)
    (hshort : p.pduType = .callProceeding ∨ p.pduType = .txGranted ∨ p.pduType = .release)
    (id : BitVec 16) :
    GrantEmitted s.bus s'.bus id ↔
      CmceRoom s.bus ∧ p.pduType = .txGranted ∧ id = p.callIdentifier := by
  constructor
  · rintro ⟨hid, m', happend, -, hheader⟩
    by_cases hroom : CmceRoom s.bus
    · have hpost := hsent.posted hroom .normal
      rw [if_pos rfl, happend] at hpost
      have hmsg := List.singleton_injective (List.append_cancel_left hpost)
      have hm : m' = cmceDownlink m.endpoint m.addr enc.buffer 25 := by
        have hdata := congrArg (fun msg : SapMsg Payload => msg.payload.data) hmsg
        exact SapData.tle.inj hdata
      rw [hm, cmceDownlink_header hanswer] at hheader
      obtain ⟨htype, hsame⟩ := callHeader_id hp hid hheader
      refine ⟨hroom, ?_, hsame.symm⟩
      obtain ht | ht | ht := hshort
      · rw [ht] at htype
        exact absurd htype (by decide)
      · exact ht
      · rw [ht] at htype
        exact absurd htype (by decide)
    · have hlen := congrArg List.length ((hsent.refused hroom .normal).symm.trans happend)
      rw [List.length_append, List.length_singleton] at hlen
      omega
  · rintro ⟨hroom, ht, rfl⟩
    have hpost := hsent.posted hroom .normal
    rw [if_pos rfl] at hpost
    refine ⟨hp, _, hpost, (by decide : 19 ≤ 25), ?_⟩
    rw [cmceDownlink_header hanswer, ht]

theorem not_grantEmitted {b b' : Bus} (h : b'.pending .normal = b.pending .normal)
    (id : BitVec 16) : ¬GrantEmitted b b' id := by
  rintro ⟨-, m, happend, -⟩
  have hlen := congrArg List.length (h.symm.trans happend)
  rw [List.length_append, List.length_singleton] at hlen
  omega

/-! The discipline of one operation. -/

theorem callState_some {cmce : Cmce} {id : BitVec 16} {i : Fin cmceMaxCalls}
    (h : cmceCallLookup cmce id = some i) : callState cmce id = (cmce.calls i).state := by
  rw [callState, h]

/-- After an operation on slot `i` of call `id`, the call is found in its slot. -/
theorem callState_set {cmce cmce' : Cmce} {id : BitVec 16} {i : Fin cmceMaxCalls}
    {slot : CmceCallSlot} (h : CallsOk cmce.calls) (hfind : cmceCallLookup cmce id = some i)
    (hcalls : cmce'.calls = Slots.set cmce.calls i slot) (huse : slot.inUse = true)
    (hid : slot.callIdentifier = id) : callState cmce' id = slot.state := by
  have hfound : cmceCallLookup cmce' id = some i := by
    apply Slots.find_of_unique
    · rw [hcalls, Slots.set_self, huse, hid]
      simp
    · intro j hj
      by_contra hji
      rw [hcalls, Slots.set_other _ _ hji, Bool.and_eq_true, beq_iff_eq] at hj
      obtain ⟨hi, hisame⟩ := cmceCallLookup_some hfind
      exact hji (h.distinct j i hj.1 hi (hj.2.trans hisame.symm))
  rw [callState_some hfound, hcalls, Slots.set_self]

/-- An event that the table does not have leaves a slot as it is, a setup apart. -/
theorem applySlot_invalid_iff {slot : CmceCallSlot} (huse : slot.inUse = true)
    (hne : slot.state ≠ .idle) (t : CmcePduType) :
    (validEvent slot.state t = false → applySlot slot t = slot) ↔
      (t = .setup → slot.state = .setupPending) := by
  obtain ⟨inUse, id, state, peer, endpoint, retry⟩ := slot
  simp only at huse hne
  subst huse
  cases t <;> cases state <;>
    simp_all [applySlot, nextSlot, CmceCallSlot.released, validEvent]

/-- After a U-TX-DEMAND a call is granted if it was connected or granted before. -/
theorem applySlot_granted_iff {slot : CmceCallSlot} (huse : slot.inUse = true) :
    (applySlot slot .txDemand).state = .txGranted ↔
      slot.state = .connected ∨ slot.state = .txGranted := by
  obtain ⟨inUse, id, state, peer, endpoint, retry⟩ := slot
  subst huse
  cases state <;> simp [applySlot, nextSlot]

theorem applySlot_txDemand_same (slot : CmceCallSlot) :
    (applySlot slot .txDemand).inUse = slot.inUse ∧
      (applySlot slot .txDemand).callIdentifier = slot.callIdentifier := by
  rw [applySlot]
  split
  · simp only [nextSlot]
    split
    · exact ⟨rfl, rfl⟩
    · exact ⟨rfl, rfl⟩
  · exact ⟨rfl, rfl⟩

theorem cmceResp_id (pdu : CmcePdu) : (cmceResp pdu).callIdentifier = pdu.callIdentifier := by
  rw [cmceResp]
  split <;> rfl

theorem cmceResp_type (pdu : CmcePdu) :
    (cmceResp pdu).pduType = .callProceeding ∧ pdu.pduType = .setup ∨
      (cmceResp pdu).pduType = .txGranted ∧ pdu.pduType = .txDemand ∨
      (cmceResp pdu).pduType = .release ∧ pdu.pduType ≠ .txDemand := by
  rw [cmceResp]
  cases ht : pdu.pduType with
  | setup => exact Or.inl ⟨rfl, rfl⟩
  | txDemand => exact Or.inr (Or.inl ⟨rfl, rfl⟩)
  | _ => exact Or.inr (Or.inr ⟨rfl, CmcePduType.noConfusion⟩)

/-- The answer to `pdu` is a grant exactly if it is posted and answers a U-TX-DEMAND. -/
theorem resp_grant_iff {s s' : CmceEnv} {m : TleSapMsg} {pdu : CmcePdu} {enc : BitBuffer}
    (hup : UplinkPdu pdu) (hanswer : SentAs (cmceResp pdu) enc) (hsent : Sent s.bus s'.bus m enc)
    (id : BitVec 16) :
    GrantEmitted s.bus s'.bus id ↔
      CmceRoom s.bus ∧ pdu.pduType = .txDemand ∧ id = pdu.callIdentifier := by
  have hid := hup.id_le
  rw [← cmceResp_id] at hid
  have htypes := cmceResp_type pdu
  have hshort : (cmceResp pdu).pduType = .callProceeding ∨ (cmceResp pdu).pduType = .txGranted ∨
      (cmceResp pdu).pduType = .release :=
    htypes.imp And.left (Or.imp And.left And.left)
  have htype : (cmceResp pdu).pduType = .txGranted ↔ pdu.pduType = .txDemand := by
    obtain ⟨hr, ht⟩ | ⟨hr, ht⟩ | ⟨hr, ht⟩ := htypes
    · rw [hr, ht]
      decide
    · rw [hr, ht]
      decide
    · rw [hr]
      exact ⟨CmcePduType.noConfusion, fun h => absurd h ht⟩
  rw [grantEmitted_iff hid hanswer hsent hshort, htype, cmceResp_id]

theorem orderly_tleMsg_iff {s : CmceEnv} {m : TleSapMsg} {pdu : CmcePdu} {i : Fin cmceMaxCalls}
    (decoded : cmcePduFromBody m.pdu.body m.pdu.bodyLenBits .uplink = .ok pdu)
    (found : cmceCallLookup s.cmce pdu.callIdentifier = some i) :
    Orderly s (.tleMsg m) ↔
      (pdu.pduType = .setup → (s.cmce.calls i).state = .setupPending) ∧
        (pdu.pduType = .txDemand → CmceRoom s.bus →
          (s.cmce.calls i).state = .connected ∨ (s.cmce.calls i).state = .txGranted) := by
  constructor
  · intro hord
    obtain ⟨hsetup, hdemand⟩ := hord _ _ (event_tleMsg decoded) i found
    exact ⟨hsetup, fun ht => hdemand ht ⟨m, rfl⟩⟩
  · rintro ⟨hsetup, hdemand⟩ id t he i' hi'
    rw [event_tleMsg decoded] at he
    cases he
    rw [found] at hi'
    cases hi'
    exact ⟨hsetup, fun ht _ => hdemand ht⟩

/-- A release is valid for every call with a slot; the other uplink PDUs are applied once. -/
theorem handledSlot_invalid_iff {slot : CmceCallSlot} (huse : slot.inUse = true)
    (hne : slot.state ≠ .idle) (t : CmcePduType) :
    (validEvent slot.state t = false → handledSlot slot t = slot) ↔
      (t = .setup → slot.state = .setupPending) := by
  rw [handledSlot]
  by_cases ht : t = .release
  · have hvalid : ∀ state : CmceCallState, state ≠ .idle → validEvent state .release = true := by
      intro state h
      cases state with
      | idle => exact absurd rfl h
      | _ => rfl
    rw [if_pos ht, ht, hvalid slot.state hne]
    exact ⟨fun _ => CmcePduType.noConfusion, fun _ => Bool.noConfusion⟩
  · rw [if_neg ht]
    exact applySlot_invalid_iff huse hne t

theorem handled_discipline_iff {s s' : CmceEnv} {m : TleSapMsg} {pdu : CmcePdu}
    {i : Fin cmceMaxCalls} {enc : BitBuffer} (h : CallsOk s.cmce.calls)
    (decoded : cmcePduFromBody m.pdu.body m.pdu.bodyLenBits .uplink = .ok pdu)
    (found : cmceCallLookup s.cmce pdu.callIdentifier = some i)
    (calls_eq : s'.cmce.calls =
      Slots.set s.cmce.calls i (handledSlot (s.cmce.calls i) pdu.pduType))
    (answer : SentAs (cmceResp pdu) enc) (sent : Sent s.bus s'.bus m enc) :
    CallDiscipline s (.tleMsg m) s' ↔ Orderly s (.tleMsg m) := by
  have hup := cmcePduFromBody_uplink decoded
  obtain ⟨huse, hid⟩ := cmceCallLookup_some found
  have hinvalid := handledSlot_invalid_iff huse ((h.inUse_iff i).1 huse) pdu.pduType
  have hgrant := resp_grant_iff hup answer sent
  have hafter : pdu.pduType = .txDemand →
      (CallGranted s'.cmce pdu.callIdentifier ↔
        (s.cmce.calls i).state = .connected ∨ (s.cmce.calls i).state = .txGranted) := by
    intro ht
    have hslot : handledSlot (s.cmce.calls i) pdu.pduType =
        applySlot (s.cmce.calls i) .txDemand := by
      rw [ht]
      rfl
    obtain ⟨hsameUse, hsameId⟩ := applySlot_txDemand_same (s.cmce.calls i)
    rw [hslot] at calls_eq
    rw [CallGranted, callState_set h found calls_eq (hsameUse.trans huse) (hsameId.trans hid)]
    exact applySlot_granted_iff huse
  rw [orderly_tleMsg_iff decoded found]
  constructor
  · intro hd
    refine ⟨hinvalid.1 fun hbad => ?_, fun ht hroom => ?_⟩
    · have hsame := hd.invalid_ignored _ _ (event_tleMsg decoded)
        (by rw [callState_some found]; exact hbad)
      rw [calls_eq, Slots.set_eq_self_iff] at hsame
      exact hsame
    · obtain hbefore | hthen := hd.granted _ ((hgrant _).2 ⟨hroom, ht, rfl⟩)
      · rw [CallGranted, callState_some found] at hbefore
        exact Or.inr hbefore
      · exact (hafter ht).1 hthen
  · rintro ⟨hsetup, hdemand⟩
    refine ⟨fun c hg => ?_, fun id t he hbad => ?_⟩
    · obtain ⟨hroom, ht, rfl⟩ := (hgrant c).1 hg
      exact Or.inr ((hafter ht).2 (hdemand ht hroom))
    · rw [event_tleMsg decoded] at he
      cases he
      rw [callState_some found] at hbad
      rw [calls_eq, Slots.set_eq_self_iff]
      exact hinvalid.2 hsetup hbad

theorem callDiscipline_iff {s s' : CmceEnv} {op : CmceOp} (h : CallsOk s.cmce.calls)
    (ho : CmceOutcome s op s') : CallDiscipline s op s' ↔ Orderly s op := by
  cases ho with
  | dropped event calls_eq pending_eq =>
    refine ⟨fun _ id t he i hi => ?_, fun _ => ⟨fun id hg => ?_, fun _ _ _ _ => calls_eq⟩⟩
    · rw [event id t he] at hi
      cases hi
    · exact absurd hg (not_grantEmitted (pending_eq .normal) id)
  | @applied id pdu dir _ i found calls_eq bus_eq =>
    obtain ⟨huse, -⟩ := cmceCallLookup_some found
    have hinvalid := applySlot_invalid_iff huse ((h.inUse_iff i).1 huse) pdu.pduType
    constructor
    · intro hd id' t he i' hi'
      cases he
      rw [found] at hi'
      cases hi'
      refine ⟨hinvalid.1 fun hbad => ?_, fun _ hm => ?_⟩
      · have hsame := hd.invalid_ignored id pdu.pduType rfl (by rw [callState_some found]; exact hbad)
        rw [calls_eq, Slots.set_eq_self_iff] at hsame
        exact hsame
      · obtain ⟨m, hm⟩ := hm
        cases hm
    · intro hord
      refine ⟨fun c hg => ?_, fun id' t he hbad => ?_⟩
      · exact absurd hg (not_grantEmitted (by rw [bus_eq]) c)
      · cases he
        rw [callState_some found] at hbad
        rw [calls_eq, Slots.set_eq_self_iff]
        exact hinvalid.2 (hord id pdu.pduType rfl i found).1 hbad
  | handled decoded found calls_eq answer sent =>
    exact handled_discipline_iff h decoded found calls_eq answer sent
  | @taken m pdu _ i enc decoded setup fresh free calls_eq answer sent =>
    have hup := cmcePduFromBody_uplink decoded
    have he := event_tleMsg decoded
    refine ⟨fun _ id t he' i hi => ?_, fun _ => ⟨fun id hg => ?_, fun id t he' hbad => ?_⟩⟩
    · rw [he] at he'
      cases he'
      rw [fresh] at hi
      cases hi
    · obtain ⟨-, ht, -⟩ := (resp_grant_iff hup answer sent id).1 hg
      rw [setup] at ht
      cases ht
    · rw [he] at he'
      cases he'
      rw [callState, fresh, setup] at hbad
      cases hbad

/-! Runs. -/

/-- What every operation keeps. -/
structure CmceReady (s : CmceEnv) : Prop where
  calls_ok : CallsOk s.cmce.calls
  initialised : s.cmce.initialised = true

theorem cmceReady_start (cfg : CmceCfg) (bus : Bus) : CmceReady ⟨cmceStart cfg, bus⟩ :=
  ⟨callsOk_start cfg, rfl⟩

theorem CmceReady.step {s : CmceEnv} (h : CmceReady s) (c : Bus × CmceOp) :
    CmceReady (cmceStep s c) := by
  obtain ⟨ho, hkeep⟩ := CmceOp.run_outcome (s := s.onBus c.1) h.initialised c.2
  exact ⟨@callsOk_outcome (s.onBus c.1) _ _ h.calls_ok ho, hkeep⟩

/-- Slots in use are always those that are not idle and have distinct calls, and every operation
grants only calls that are or become granted and ignores invalid events. -/
def CallsDisciplined (cfg : CmceCfg) (bus : Bus) (ops : List (Bus × CmceOp)) : Prop :=
  (∀ pre, pre <+: ops → CallsOk (exec cmceStep ⟨cmceStart cfg, bus⟩ pre).cmce.calls) ∧
    Along cmceStep (fun s c => CallDiscipline (s.onBus c.1) c.2 (cmceStep s c))
      ⟨cmceStart cfg, bus⟩ ops

/-- A run of FSM events and upcalls, on whatever bus each of them finds, is disciplined exactly if
it has no setup for a live call past its setup phase and answers no U-TX-DEMAND of a live call that
is neither connected nor granted. -/
theorem calls_disciplined_iff (cfg : CmceCfg) (bus : Bus) (ops : List (Bus × CmceOp)) :
    CallsDisciplined cfg bus ops ↔
      Along cmceStep (fun s c => Orderly (s.onBus c.1) c.2) ⟨cmceStart cfg, bus⟩ ops := by
  have hok : ∀ pre, CallsOk (exec cmceStep ⟨cmceStart cfg, bus⟩ pre).cmce.calls := fun pre =>
    (exec_invariant CmceReady (fun _ c h _ => h.step c) (cmceReady_start cfg bus)
      (along_true cmceStep _ pre)).calls_ok
  have hsteps : Along cmceStep (fun s c => CallDiscipline (s.onBus c.1) c.2 (cmceStep s c))
      ⟨cmceStart cfg, bus⟩ ops ↔
        Along cmceStep (fun s c => Orderly (s.onBus c.1) c.2) ⟨cmceStart cfg, bus⟩ ops :=
    along_congr CmceReady (fun _ c h => h.step c)
      (fun s c h => @callDiscipline_iff (s.onBus c.1) _ _ h.calls_ok
        (CmceOp.run_outcome (s := s.onBus c.1) h.initialised c.2).1)
      (cmceReady_start cfg bus)
  exact ⟨fun h => hsteps.1 h.2, fun h => ⟨fun pre _ => hok pre, hsteps.2 h⟩⟩

/-- A 40-bit U-SETUP. -/
def uSetup : TleSapMsg := ⟨1, {}, { pduType := .blData, bodyLenBits := 40, body := [0x38, 0, 0, 0, 0] }⟩

/-- A second U-SETUP throws a connected call back to its setup phase. -/
theorem second_setup_resets_call :
    ¬CallsDisciplined {} (msgbusInit Payload Handler 32 256 busQueueCapPerPrio_pos)
      [(msgbusInit Payload Handler 32 256 busQueueCapPerPrio_pos, .tleMsg uSetup),
        (msgbusInit Payload Handler 32 256 busQueueCapPerPrio_pos,
          .fsmEvent 0 { pduType := .connect } .downlink),
        (msgbusInit Payload Handler 32 256 busQueueCapPerPrio_pos, .tleMsg uSetup)] := by
  rintro ⟨-, h⟩
  have hsame := h.2.2.1.invalid_ignored 0 .setup (by decide +kernel) (by decide +kernel)
  have hslot := congrFun hsame ⟨0, by decide⟩
  revert hslot
  decide +kernel

end TetraBs
