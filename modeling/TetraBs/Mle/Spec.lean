import TetraBs.Lib.Slots
import TetraBs.Mle.Entity

/-! What the MLE does with a message, in terms of the sessions by ISSI. -/
namespace TetraBs
open TetraBs.Bits

/-! The session table. -/

/-- The state of the session of an ISSI, idle if it has none. -/
def sessionState (mle : Mle) (issi : BitVec 32) : MleState :=
  match mleSessionLookup mle issi with
  | some i => (mle.sessions i).state
  | none => .idle

/-- A request of the ISSI finds or takes a session. -/
def HasSession (mle : Mle) (issi : BitVec 32) : Prop := (mleSessionAlloc mle issi).1 ≠ none

instance (mle : Mle) (issi : BitVec 32) : Decidable (HasSession mle issi) :=
  inferInstanceAs (Decidable (_ ≠ _))

/-- The session table as a table of slots, keyed by the 24-bit ISSI. -/
def sessionKind (cfg : MleCfg) : Slots.Kind (BitVec 32) MleSession where
  owns issi s := s.inUse && s.issi == issi
  free s := !s.inUse
  fresh issi := { inUse := true, issi := issi, gilaClass := 4, gilaLifetime := 1,
                  fallbackGssi := cfg.fallbackGssi }
  fresh_owns issi := by simp
  owns_inj h h' := by
    simp only [Bool.and_eq_true, beq_iff_eq] at h h'
    exact h.2.symm.trans h'.2
  owns_not_free h := by
    simp only [Bool.and_eq_true] at h
    rw [h.1]
    rfl

def Mle.view (mle : Mle) (key : BitVec 32) : MleSession :=
  Slots.view (sessionKind mle.cfg) mle.sessions key

theorem mleSessionLookup_eq (mle : Mle) (issi : BitVec 32) :
    mleSessionLookup mle issi =
      Slots.find ((sessionKind mle.cfg).owns (issi &&& tetraSsiMask24)) mle.sessions := rfl

theorem sessionState_eq (mle : Mle) (issi : BitVec 32) :
    sessionState mle issi = (mle.view (issi &&& tetraSsiMask24)).state := by
  unfold sessionState Mle.view Slots.view
  rw [mleSessionLookup_eq]
  cases Slots.find ((sessionKind mle.cfg).owns (issi &&& tetraSsiMask24)) mle.sessions <;> rfl

theorem mleSessionAlloc_eq (mle : Mle) (issi : BitVec 32) :
    mleSessionAlloc mle issi =
      ((Slots.lookup (sessionKind mle.cfg) mle.sessions (issi &&& tetraSsiMask24)).1,
        { mle with sessions :=
            (Slots.lookup (sessionKind mle.cfg) mle.sessions (issi &&& tetraSsiMask24)).2 }) := by
  unfold mleSessionAlloc Slots.lookup
  rw [mleSessionLookup_eq]
  cases Slots.find ((sessionKind mle.cfg).owns (issi &&& tetraSsiMask24)) mle.sessions with
  | some i => rfl
  | none =>
    have hfree : ((List.finRange mleSessionMax).find? fun i => !(mle.sessions i).inUse) =
        Slots.find (sessionKind mle.cfg).free mle.sessions := rfl
    simp only [hfree]
    cases Slots.find (sessionKind mle.cfg).free mle.sessions <;> rfl

/-- `mle'` is `mle` with what it holds for `key`, in slot `i`, now being `a`. -/
structure Holds (mle mle' : Mle) (key : BitVec 32) (i : Fin mleSessionMax) (a : MleSession) :
    Prop where
  find_eq : Slots.find ((sessionKind mle.cfg).owns key) mle'.sessions = some i
  slot_eq : mle'.sessions i = a
  view_eq : ∀ k, mle'.view k = if k = key then a else mle.view k
  cfg_eq : mle'.cfg = mle.cfg
  init_eq : mle'.initialised = mle.initialised

theorem Holds.set {mle mle' : Mle} {key : BitVec 32} {i : Fin mleSessionMax} {a b : MleSession}
    (h : Holds mle mle' key i a) (huse : b.inUse = a.inUse) (hissi : b.issi = a.issi) :
    Holds mle (mle'.setSession i b) key i b := by
  have hown : (sessionKind mle.cfg).owns key b = true := by
    have := Slots.find_some h.find_eq
    rw [h.slot_eq] at this
    simpa [sessionKind, huse, hissi] using this
  refine ⟨?_, Slots.set_self mle'.sessions i b, fun k => ?_, h.cfg_eq, h.init_eq⟩
  · exact (Slots.find_set (sessionKind mle.cfg) h.find_eq hown key).trans h.find_eq
  · have hview := h.view_eq k
    unfold Mle.view at hview ⊢
    rw [h.cfg_eq] at hview
    have hset := Slots.view_set (sessionKind mle.cfg) h.find_eq hown k
    rw [hview] at hset
    have hcfg : (mle'.setSession i b).cfg = mle.cfg := h.cfg_eq
    rw [hcfg]
    refine hset.trans ?_
    by_cases hk : k = key
    · rw [if_pos hk, if_pos hk]
    · rw [if_neg hk, if_neg hk, if_neg hk]

/-- Counters are not part of what a table holds. -/
theorem Holds.congr {mle mle' mle'' : Mle} {key : BitVec 32} {i : Fin mleSessionMax}
    {a : MleSession} (h : Holds mle mle' key i a) (hs : mle''.sessions = mle'.sessions)
    (hc : mle''.cfg = mle'.cfg) (hi : mle''.initialised = mle'.initialised) :
    Holds mle mle'' key i a := by
  refine ⟨hs ▸ h.find_eq, hs ▸ h.slot_eq, fun k => ?_, hc.trans h.cfg_eq, hi.trans h.init_eq⟩
  rw [← h.view_eq]
  unfold Mle.view
  rw [hs, hc]

/-- A request either finds no session and changes nothing, or ends with its session in a
slot. -/
theorem mleSessionAlloc_cases (mle : Mle) (issi : BitVec 32) :
    (mleSessionAlloc mle issi = (none, mle) ∧ ¬HasSession mle issi) ∨
      ∃ i mle', mleSessionAlloc mle issi = (some i, mle') ∧ HasSession mle issi ∧
        Holds mle mle' (issi &&& tetraSsiMask24) i (mle.view (issi &&& tetraSsiMask24)) := by
  unfold HasSession
  rw [mleSessionAlloc_eq]
  obtain h | ⟨i, t, h, hfind, hslot, hview⟩ :=
    Slots.lookup_cases (sessionKind mle.cfg) mle.sessions (issi &&& tetraSsiMask24)
  · rw [h]
    exact Or.inl ⟨rfl, fun hne => hne rfl⟩
  · rw [h]
    refine Or.inr ⟨i, _, rfl, Option.some_ne_none i, hfind, hslot, fun k => ?_, rfl, rfl⟩
    by_cases hk : k = issi &&& tetraSsiMask24
    · rw [if_pos hk, hk]
      exact hview _
    · rw [if_neg hk]
      exact hview k

/-! Enrolment. -/

theorem maybeAutoEnroll_mle (mle : Mle) (db : SubscriberDb) (issi : BitVec 32) :
    (maybeAutoEnroll mle db issi).2.1.sessions = mle.sessions ∧
      (maybeAutoEnroll mle db issi).2.1.cfg = mle.cfg ∧
      (maybeAutoEnroll mle db issi).2.1.initialised = mle.initialised := by
  unfold maybeAutoEnroll
  cases dbLookupEntity db (issi &&& tetraSsiMask24) with
  | ok i => exact ⟨rfl, rfl, rfl⟩
  | error e =>
    simp only
    split
    · exact ⟨rfl, rfl, rfl⟩
    · split
      · exact ⟨rfl, rfl, rfl⟩
      · split <;> exact ⟨rfl, rfl, rfl⟩

/-- A closed cell does not touch the database. -/
theorem maybeAutoEnroll_db {mle : Mle} (h : mle.cfg.acceptUnknown = false) (db : SubscriberDb)
    (issi : BitVec 32) : (maybeAutoEnroll mle db issi).2.2 = db := by
  unfold maybeAutoEnroll
  cases dbLookupEntity db (issi &&& tetraSsiMask24) with
  | ok i => rfl
  | error e =>
    simp only
    rw [if_pos h]

theorem Holds.refresh {mle mle' : Mle} {key : BitVec 32} {i : Fin mleSessionMax} {a : MleSession}
    (h : Holds mle mle' key i a) (db : SubscriberDb) :
    ∃ b, Holds mle (refreshSessionFromDb mle' db i) key i b ∧ b.state = a.state := by
  unfold refreshSessionFromDb
  cases profileOf db (mle'.sessions i).issi with
  | none => exact ⟨a, h, rfl⟩
  | some pr =>
    refine ⟨_, h.set ?_ ?_, ?_⟩
    · rw [h.slot_eq]
    · rw [h.slot_eq]
    · rw [h.slot_eq]

theorem Holds.feed {mle mle' : Mle} {key : BitVec 32} {i : Fin mleSessionMax} {a : MleSession}
    (h : Holds mle mle' key i a) (e : MleEvt) :
    ∃ b, Holds mle (mle'.feed i e) key i b ∧ b.state = mleFsmStep a.state e := by
  have hset := h.set (b := { mle'.sessions i with state := mleFsmStep (mle'.sessions i).state e })
    (by rw [h.slot_eq]) (by rw [h.slot_eq])
  exact ⟨_, hset.congr rfl rfl rfl, by rw [h.slot_eq]⟩

/-! Messages. -/

/-- The MM request a TLE message carries: MM discriminator, and a body that decodes. -/
def mleRequest (m : TleSapMsg) : Option MmDecoded :=
  match stripMlePd m.pdu (llcPduBodyMaxBytes * 8) with
  | .ok (.mm, body, bits) => (mmIepDecode body bits).toOption
  | _ => none

/-- The event a decoded request is for its session. -/
def requestEvt (d : MmDecoded) : MleEvt :=
  if d.pduType = .uLocationUpdateDemand then .demandReceived else .grpDemandReceived

def requestPayload (m : TleSapMsg) (d : MmDecoded) : TlaSapPayload :=
  { endpoint := m.endpoint, addr := m.addr, decoded := d,
    isAttach := d.locationUpdateType == .itsiAttach || d.pduType == .uAttachDetachGroupIdentity }

/-- One event of one ISSI; every other session keeps its state. -/
structure Fed (mle mle' : Mle) (issi : BitVec 32) (e : MleEvt) : Prop where
  state_eq : ∀ issi', sessionState mle' issi' =
    if issi' &&& tetraSsiMask24 = issi &&& tetraSsiMask24 then mleFsmStep (sessionState mle issi) e
    else sessionState mle issi'
  cfg_eq : mle'.cfg = mle.cfg
  init_eq : mle'.initialised = mle.initialised

theorem Holds.fed {mle mle' : Mle} {issi : BitVec 32} {i : Fin mleSessionMax} {a : MleSession}
    {e : MleEvt} (h : Holds mle mle' (issi &&& tetraSsiMask24) i a)
    (ha : a.state = mleFsmStep (mle.view (issi &&& tetraSsiMask24)).state e) :
    Fed mle mle' issi e := by
  refine ⟨fun issi' => ?_, h.cfg_eq, h.init_eq⟩
  rw [sessionState_eq, h.view_eq]
  by_cases hk : issi' &&& tetraSsiMask24 = issi &&& tetraSsiMask24
  · rw [if_pos hk, if_pos hk, ha, sessionState_eq]
  · rw [if_neg hk, if_neg hk, sessionState_eq]

/-- A request that finds a session feeds it one event and is forwarded to MM. -/
structure Requested (s s' : MleEnv) (m : TleSapMsg) (d : MmDecoded) : Prop where
  session : HasSession s.mle m.addr.ssi
  fed : Fed s.mle s'.mle m.addr.ssi (requestEvt d)
  bus_eq : s'.bus = (msgbusPost s.bus .normal (mleRequestMsg (requestPayload m d))).1
  db_eq : s.mle.cfg.acceptUnknown = false → s'.db = s.db

theorem mmIepDecode_evt {body : List Byte} {bits : Nat} {d : MmDecoded}
    (h : mmIepDecode body bits = .ok d) :
    d.pduType = .uLocationUpdateDemand ∧ requestEvt d = .demandReceived ∨
      d.pduType = .uAttachDetachGroupIdentity ∧ requestEvt d = .grpDemandReceived := by
  unfold requestEvt
  obtain ⟨-, ht⟩ | ⟨-, ht⟩ := mmIepDecode_ok h
  · exact Or.inl ⟨ht, if_pos ht⟩
  · refine Or.inr ⟨ht, if_neg ?_⟩
    rw [ht]
    exact MmPduTypeUl.noConfusion

/-- An MM body either does not decode or finds no session, and changes nothing, or its session
is fed and the request goes on to MM. -/
theorem handleMmPdu_cases (s : MleEnv) (m : TleSapMsg) (body : List Byte) (bits : Nat) :
    (handleMmPdu s m body bits).1 = s ∧
        (∀ d, mmIepDecode body bits = .ok d → ¬HasSession s.mle m.addr.ssi) ∨
      ∃ d, mmIepDecode body bits = .ok d ∧ Requested s (handleMmPdu s m body bits).1 m d := by
  unfold handleMmPdu
  cases hdec : mmIepDecode body bits with
  | error e => exact Or.inl ⟨rfl, fun d hd => by cases hd⟩
  | ok d =>
    simp only
    obtain ⟨ha, hno⟩ | ⟨i, mle1, ha, hs, hold⟩ := mleSessionAlloc_cases s.mle m.addr.ssi
    · rw [ha]
      exact Or.inl ⟨rfl, fun _ _ => hno⟩
    rw [ha]
    refine Or.inr ⟨d, rfl, ?_⟩
    have h1 := hold.set (b := { mle1.sessions i with endpoint := m.endpoint })
      (by rw [hold.slot_eq]) (by rw [hold.slot_eq])
    obtain ⟨hsess, hcfg, hinit⟩ := maybeAutoEnroll_mle
      (mle1.setSession i { mle1.sessions i with endpoint := m.endpoint }) s.db m.addr.ssi
    have h2 := h1.congr hsess hcfg hinit
    obtain ⟨b, h3, hb⟩ := h2.refresh (maybeAutoEnroll
      (mle1.setSession i { mle1.sessions i with endpoint := m.endpoint }) s.db m.addr.ssi).2.2
    have hstate : b.state = (s.mle.view (m.addr.ssi &&& tetraSsiMask24)).state := by
      rw [hb, hold.slot_eq]
    have hdb : s.mle.cfg.acceptUnknown = false → (maybeAutoEnroll
        (mle1.setSession i { mle1.sessions i with endpoint := m.endpoint }) s.db
          m.addr.ssi).2.2 = s.db := by
      intro hclosed
      apply maybeAutoEnroll_db
      rw [← hold.cfg_eq] at hclosed
      exact hclosed
    obtain ⟨ht, he⟩ | ⟨ht, he⟩ := mmIepDecode_evt hdec
    · have h4 : Holds s.mle (Mle.countDemand _) _ i b := h3.congr rfl rfl rfl
      obtain ⟨c, h5, hc⟩ := h4.feed .demandReceived
      simp only [ht]
      refine ⟨hs, h5.fed ?_, rfl, hdb⟩
      rw [hc, hstate, he]
    · have h4 : Holds s.mle (Mle.countGrpDemand _) _ i b := h3.congr rfl rfl rfl
      obtain ⟨c, h5, hc⟩ := h4.feed .grpDemandReceived
      simp only [ht]
      refine ⟨hs, h5.fed ?_, rfl, hdb⟩
      rw [hc, hstate, he]

/-- A TLE message changes something only if it carries a request whose ISSI gets a session. -/
theorem mleHandleTleMsg_cases (s : MleEnv) (m : TleSapMsg) (hinit : s.mle.initialised = true) :
    (mleHandleTleMsg s m).1 = s ∧ (mleRequest m = none ∨ ¬HasSession s.mle m.addr.ssi) ∨
      ∃ d, mleRequest m = some d ∧ Requested s (mleHandleTleMsg s m).1 m d := by
  unfold mleHandleTleMsg mleRequest
  rw [if_neg (by rw [hinit]; exact Bool.noConfusion)]
  cases stripMlePd m.pdu (llcPduBodyMaxBytes * 8) with
  | error e => exact Or.inl ⟨rfl, Or.inl rfl⟩
  | ok r =>
    obtain ⟨disc, body, bits⟩ := r
    cases disc with
    | mm =>
      simp only
      obtain ⟨hsame, hno⟩ | ⟨d, hdec, hreq⟩ := handleMmPdu_cases s m body bits
      · refine Or.inl ⟨hsame, ?_⟩
        cases hdec : mmIepDecode body bits with
        | error e => exact Or.inl rfl
        | ok d => exact Or.inr (hno d hdec)
      · refine Or.inr ⟨d, ?_, hreq⟩
        rw [hdec]
        rfl
    | mleItself => exact Or.inl ⟨rfl, Or.inl rfl⟩
    | _ => exact Or.inl ⟨rfl, Or.inl rfl⟩

theorem mleInit_ok {bus bus' : Bus} {cfg : MleCfg} {mle : Mle}
    (h : mleInit bus cfg = .ok (mle, bus')) :
    mle = { cfg := cfg, initialised := true } ∧
      bus'.regs = bus.regs ++ [⟨.tmaSap, .tleSap, .onTleMsg⟩, ⟨.tmaSap, .tnmmSap, .onTlaMsg⟩] ∧
      ∀ p, bus'.pending p = bus.pending p := by
  unfold mleInit at h
  cases h1 : msgbusRegister bus .tmaSap .tleSap Handler.onTleMsg with
  | error e =>
    rw [h1] at h
    cases h
  | ok b1 =>
    rw [h1] at h
    cases h2 : msgbusRegister b1 .tmaSap .tnmmSap Handler.onTlaMsg with
    | error e =>
      simp only [bind, Except.bind, h2] at h
      cases h
    | ok b2 =>
      simp only [bind, Except.bind, h2] at h
      cases h
      refine ⟨rfl, ?_, fun p => (pending_register h2 p).trans (pending_register h1 p)⟩
      rw [(msgbusRegister_ok h2).1, (msgbusRegister_ok h1).1, List.append_assoc]
      rfl

end TetraBs
