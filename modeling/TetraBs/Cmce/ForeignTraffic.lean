import TetraBs.Cmce.Spec

/-! Bodies that are not CMCE traffic, at the CMCE upcall. -/
namespace TetraBs
open TetraBs.Bits

/-- `m` carries the discriminator of CMCE and a CMCE uplink PDU behind it. -/
def FromCmce (m : TleSapMsg) : Prop :=
  ∃ body n pdu, stripMlePd m.pdu (llcPduBodyMaxBytes * 8) = .ok (.cmce, body, n) ∧
    cmcePduFromBody body n .uplink = .ok pdu

/-- No call slot changed and nothing was posted. -/
structure Untouched (s s' : CmceEnv) : Prop where
  calls_eq : s'.cmce.calls = s.cmce.calls
  pending_eq : ∀ q, s'.bus.pending q = s.bus.pending q

/-- The state in which a PDU leaves its slot as it is. -/
def Settled (state : CmceCallState) : CmcePduType → Prop
  | .setup => state = .setupPending
  | .txDemand => state ≠ .connected
  | _ => state = .idle

/-- An uplink PDU takes effect: it finds a slot which it changes or for which it is answered, or
it is a U-SETUP that finds a free slot. -/
def TakesEffect (s : CmceEnv) (pdu : CmcePdu) : Prop :=
  match cmceCallLookup s.cmce pdu.callIdentifier with
  | some i => ¬Settled (s.cmce.calls i).state pdu.pduType ∨ CmceRoom s.bus
  | none => pdu.pduType = .setup ∧ ∃ i, (s.cmce.calls i).inUse = false

/-- Read from its first bit on, the body of `m` is an uplink PDU that takes effect. -/
def ReadAsCmce (s : CmceEnv) (m : TleSapMsg) : Prop :=
  s.cmce.initialised = true ∧
    ∃ pdu, cmcePduFromBody m.pdu.body m.pdu.bodyLenBits .uplink = .ok pdu ∧ TakesEffect s pdu

theorem handledSlot_eq_iff {slot : CmceCallSlot} (huse : slot.inUse = true) {pdu : CmcePdu}
    (h : UplinkPdu pdu) :
    handledSlot slot pdu.pduType = slot ↔ Settled slot.state pdu.pduType := by
  obtain ⟨inUse, id, state, peer, endpoint, retry⟩ := slot
  subst huse
  obtain ⟨ht, -⟩ | ht | ht := h.type_mem
  · rw [ht]
    cases state <;> simp [handledSlot, applySlot, nextSlot, Settled]
  · rw [ht]
    cases state <;> simp [handledSlot, applySlot, nextSlot, Settled]
  · rw [ht]
    cases state <;> simp [handledSlot, applySlot, nextSlot, Settled, CmceCallSlot.released]

theorem untouched_of_sent {s s' : CmceEnv} {m : TleSapMsg} {enc : BitBuffer}
    (h : Sent s.bus s'.bus m enc) :
    Untouched s s' ↔ s'.cmce.calls = s.cmce.calls ∧ ¬CmceRoom s.bus := by
  constructor
  · intro hu
    refine ⟨hu.calls_eq, fun hroom => ?_⟩
    have hlen := congrArg List.length ((hu.pending_eq .normal).symm.trans (h.posted hroom .normal))
    rw [if_pos rfl, List.length_append, List.length_singleton] at hlen
    omega
  · rintro ⟨hcalls, hfull⟩
    exact ⟨hcalls, h.refused hfull⟩

/-- A PDU on a slot leaves everything as it was only if neither the slot nor the bus takes it. -/
theorem untouched_handlePdu_iff {s : CmceEnv} (hinit : s.cmce.initialised = true) (m : TleSapMsg)
    {i : Fin cmceMaxCalls} (huse : (s.cmce.calls i).inUse = true) {pdu : CmcePdu}
    (h : UplinkPdu pdu) :
    Untouched s (cmceHandlePdu s m i pdu) ↔
      Settled (s.cmce.calls i).state pdu.pduType ∧ ¬CmceRoom s.bus := by
  obtain ⟨enc, -, hcalls, -, hsent⟩ := cmceHandlePdu_spec hinit m i h
  rw [untouched_of_sent hsent, hcalls, Slots.set_eq_self_iff, handledSlot_eq_iff huse h]

theorem untouched_newCall_iff {s : CmceEnv} (hinit : s.cmce.initialised = true) (m : TleSapMsg)
    {pdu : CmcePdu} (h : UplinkPdu pdu) (ht : pdu.pduType = .setup)
    (hfind : cmceCallLookup s.cmce pdu.callIdentifier = none) :
    Untouched s (cmceHandleNewCall s m pdu).1 ↔ ¬∃ i, (s.cmce.calls i).inUse = false := by
  obtain ⟨i, enc, hfree, -, hcalls, -, -⟩ | ⟨hfull, hsame⟩ :=
    cmceHandleNewCall_cases hinit m h ht hfind
  · refine ⟨fun hu => ?_, fun hno => absurd ⟨i, hfree⟩ hno⟩
    have hslot := congrFun (hcalls.symm.trans hu.calls_eq) i
    rw [Slots.set_self] at hslot
    rw [← hslot] at hfree
    cases hfree
  · rw [hsame]
    refine ⟨fun _ => ?_, fun _ => ⟨rfl, fun _ => rfl⟩⟩
    rintro ⟨i, hfree⟩
    rw [hfull i] at hfree
    cases hfree

theorem untouched_handle_iff {s : CmceEnv} (hinit : s.cmce.initialised = true) (m : TleSapMsg) :
    Untouched s (cmceHandleTleMsg s m).1 ↔ ¬ReadAsCmce s m := by
  unfold cmceHandleTleMsg
  rw [if_neg (by rw [hinit]; decide)]
  simp only
  cases hdec : cmcePduFromBody m.pdu.body m.pdu.bodyLenBits .uplink with
  | error e =>
    refine ⟨fun _ => ?_, fun _ => ⟨rfl, fun _ => rfl⟩⟩
    rintro ⟨-, pdu, hpdu, -⟩
    rw [hdec] at hpdu
    cases hpdu
  | ok pdu =>
    have hup := cmcePduFromBody_uplink hdec
    have hread : ReadAsCmce s m ↔ TakesEffect s pdu := by
      constructor
      · rintro ⟨-, pdu', hpdu, heff⟩
        rw [hdec] at hpdu
        cases hpdu
        exact heff
      · exact fun heff => ⟨hinit, pdu, hdec, heff⟩
    have hrx : ∀ t, Untouched { s with cmce := s.cmce.countRx } t ↔ Untouched s t :=
      fun t => ⟨fun h => ⟨h.calls_eq, h.pending_eq⟩, fun h => ⟨h.calls_eq, h.pending_eq⟩⟩
    have hlookup : cmceCallLookup s.cmce.countRx pdu.callIdentifier =
        cmceCallLookup s.cmce pdu.callIdentifier := rfl
    rw [hread, TakesEffect]
    simp only
    rw [hlookup]
    cases hfind : cmceCallLookup s.cmce pdu.callIdentifier with
    | some i =>
      have hiff := @untouched_handlePdu_iff { s with cmce := s.cmce.countRx } hinit m i
        (cmceCallLookup_some hfind).1 pdu hup
      rw [hrx] at hiff
      rw [not_or, not_not]
      exact hiff
    | none =>
      by_cases ht : pdu.pduType = .setup
      · simp only
        rw [if_pos ht]
        have hiff := @untouched_newCall_iff { s with cmce := s.cmce.countRx } hinit m pdu hup ht
          hfind
        rw [hrx] at hiff
        rw [and_iff_right ht]
        exact hiff
      · simp only
        rw [if_neg ht]
        exact ⟨fun _ hact => ht hact.1, fun _ => ⟨rfl, fun _ => rfl⟩⟩

theorem untouched_refl (s : CmceEnv) : Untouched s s := ⟨rfl, fun _ => rfl⟩

theorem untouched_upcall_iff (s : CmceEnv) (m : TleSapMsg) (poster : Poster)
    (src dest sap : SapId) :
    Untouched s (onTleUpcall (sapmsgInit poster src dest sap (.tle m)) s) ↔ ¬ReadAsCmce s m := by
  have hlen : ¬(sapmsgInit poster src dest sap (.tle m)).len < (SapData.tle m).size :=
    Nat.lt_irrefl _
  show Untouched s (if (sapmsgInit poster src dest sap (.tle m)).len < (SapData.tle m).size then s
    else if m.pdu.bodyLenBits < 5 then s
    else if looksCmce m.pdu.body = false then s
    else (cmceHandleTleMsg s m).1) ↔ _
  rw [if_neg hlen]
  by_cases h5 : m.pdu.bodyLenBits < 5
  · rw [if_pos h5]
    refine ⟨fun _ => ?_, fun _ => untouched_refl s⟩
    rintro ⟨-, pdu, hdec, -⟩
    have := (cmcePduFromBody_looks hdec).1
    omega
  rw [if_neg h5]
  by_cases hlooks : looksCmce m.pdu.body = false
  · rw [if_pos hlooks]
    refine ⟨fun _ => ?_, fun _ => untouched_refl s⟩
    rintro ⟨-, pdu, hdec, -⟩
    rw [(cmcePduFromBody_looks hdec).2] at hlooks
    cases hlooks
  rw [if_neg hlooks]
  by_cases hinit : s.cmce.initialised = true
  · exact untouched_handle_iff hinit m
  · rw [cmceHandleTleMsg, if_pos (Bool.eq_false_iff.2 hinit)]
    exact ⟨fun _ hread => hinit hread.1, fun _ => untouched_refl s⟩

/-- The first bits of a body decide what CMCE takes for its own: an upcall with a body that is not
CMCE traffic leaves the call slots and the bus as they are exactly if the body, read as if it had
no discriminator, is no uplink PDU that takes effect. -/
theorem foreign_body_ignored_iff (s : CmceEnv) (m : TleSapMsg) (poster : Poster)
    (src dest sap : SapId) :
    (¬FromCmce m → Untouched s (onTleUpcall (sapmsgInit poster src dest sap (.tle m)) s)) ↔
      FromCmce m ∨ ¬ReadAsCmce s m := by
  rw [untouched_upcall_iff]
  exact or_iff_not_imp_left.symm

/-- CMCE at its start, with an empty bus. -/
def idleCmce : CmceEnv :=
  ⟨{ initialised := true }, msgbusInit Payload Handler 32 256 busQueueCapPerPrio_pos⟩

/-- An MM PDU of type 14 behind the discriminator of MM. -/
def mmFunctionNotSupported : TleSapMsg :=
  ⟨1, {}, { pduType := .blData, bodyLenBits := 40, body := [0x3C, 0, 0, 0, 0] }⟩

/-- It is read as a U-SETUP and takes a call slot. -/
theorem mm_body_taken_for_setup :
    ¬(¬FromCmce mmFunctionNotSupported → Untouched idleCmce
      (onTleUpcall (sapmsgInit .environment .tmaSap .tleSap .tleSap (.tle mmFunctionNotSupported))
        idleCmce)) := by
  intro h
  have hdisc : (stripMlePd mmFunctionNotSupported.pdu (llcPduBodyMaxBytes * 8)).map Prod.fst =
      .ok .mm := by
    decide +kernel
  have hforeign : ¬FromCmce mmFunctionNotSupported := by
    rintro ⟨body, n, pdu, hstrip, -⟩
    rw [hstrip] at hdisc
    cases hdisc
  have hslot := congrFun (h hforeign).calls_eq ⟨0, by decide⟩
  revert hslot
  decide +kernel

end TetraBs
