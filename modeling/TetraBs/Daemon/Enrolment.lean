import TetraBs.Daemon.Access

/-! The session table and the entity table under requests and answers in any order. -/
namespace TetraBs
open TetraBs.Bits TetraBs.Run

inductive MleOp where
  | tle (m : TleSapMsg)
  | tla (m : TlaSapPayload)

def MleOp.issi : MleOp → BitVec 32
  | .tle m => m.addr.ssi
  | .tla m => m.addr.ssi

def MleEnv.step (s : MleEnv) : MleOp → MleEnv
  | .tle m => (mleHandleTleMsg s m).1
  | .tla m => (mleHandleTlaMsg s m).1

/-- The entity after `mle_init`, on any bus and any database. -/
def mleStarted (cfg : MleCfg) (bus : Bus) (db : SubscriberDb) : MleEnv :=
  ⟨{ cfg := cfg, initialised := true }, bus, db⟩

def OneSession (mle : Mle) : Prop :=
  ∀ i j, (mle.sessions i).inUse = true → (mle.sessions j).inUse = true →
    (mle.sessions i).issi = (mle.sessions j).issi → i = j

def EntitiesFull (db : SubscriberDb) : Prop := ∀ i, (db.entities i).valid = true

/-- The ISSI needs a session or an entity, and there is no free slot for it. -/
def TableFull (s : MleEnv) (issi : BitVec 32) : Prop :=
  (mleSessionLookup s.mle issi = none ∧ ∀ i, (s.mle.sessions i).inUse = true) ∨
    (¬Known s.db (issi &&& tetraSsiMask24) ∧ EntitiesFull s.db)

/-- What one message may do to the sessions. -/
structure SessionsKept (s : MleEnv) (op : MleOp) : Prop where
  one : OneSession (s.step op).mle
  owner : ∀ i, (s.mle.sessions i).inUse = true →
    ((s.step op).mle.sessions i).inUse = true ∧
      ((s.step op).mle.sessions i).issi = (s.mle.sessions i).issi
  others : ∀ i, (s.mle.sessions i).inUse = true →
    (s.mle.sessions i).issi ≠ op.issi &&& tetraSsiMask24 →
      (s.step op).mle.sessions i = s.mle.sessions i

/-- A request that finds a table full changes neither. -/
def FullRefused (s : MleEnv) : MleOp → Prop
  | .tle m => TableFull s m.addr.ssi →
      (s.step (.tle m)).mle.sessions = s.mle.sessions ∧
        (s.step (.tle m)).db.entities = s.db.entities
  | .tla _ => True

/-- The valid entities of `db` are still there, and one that is new is the only one of its
ISSI. -/
structure EnrolledOnce (db db' : SubscriberDb) : Prop where
  kept : ∀ i, (db.entities i).valid = true → db'.entities i = db.entities i
  once : ∀ i j, (db'.entities i).valid = true → (db.entities i).valid = false →
    (db'.entities j).valid = true → (db'.entities j).entityId = (db'.entities i).entityId → j = i

/-- The claim's tables over a run: the sessions and the refusals at every step, the entities
after every prefix. -/
def TablesKept (s : MleEnv) (ops : List MleOp) : Prop :=
  Along MleEnv.step (fun s op => SessionsKept s op ∧ FullRefused s op) s ops ∧
    ∀ pre, pre <+: ops → EnrolledOnce s.db (exec MleEnv.step s pre).db

/-- A request that gets a session although the full entity table does not know its ISSI. -/
def RefusalIgnored (s : MleEnv) (op : MleOp) : Prop :=
  ∃ m, op = .tle m ∧ mleRequest m ≠ none ∧ HasSession s.mle m.addr.ssi ∧
    ¬Known s.db (m.addr.ssi &&& tetraSsiMask24) ∧ EntitiesFull s.db

/-! Slots. -/

/-- The slot of the ISSI, or a free one if it has none. -/
def SlotFor (mle : Mle) (issi : BitVec 32) (i : Fin mleSessionMax) : Prop :=
  mleSessionLookup mle issi = some i ∨
    (mleSessionLookup mle issi = none ∧ (mle.sessions i).inUse = false)

/-- Only slot `i` may differ, and it belongs to `key`. -/
structure Touched (mle mle' : Mle) (key : BitVec 32) (i : Fin mleSessionMax) : Prop where
  inUse : (mle'.sessions i).inUse = true
  issi_eq : (mle'.sessions i).issi = key
  others : ∀ j, j ≠ i → mle'.sessions j = mle.sessions j
  cfg_eq : mle'.cfg = mle.cfg
  init_eq : mle'.initialised = mle.initialised

theorem mleSessionLookup_some {mle : Mle} {issi : BitVec 32} {i : Fin mleSessionMax}
    (h : mleSessionLookup mle issi = some i) :
    (mle.sessions i).inUse = true ∧ (mle.sessions i).issi = issi &&& tetraSsiMask24 := by
  rw [mleSessionLookup_eq] at h
  simpa [sessionKind] using Slots.find_some h

theorem mleSessionLookup_none {mle : Mle} {issi : BitVec 32}
    (h : mleSessionLookup mle issi = none) (i : Fin mleSessionMax)
    (huse : (mle.sessions i).inUse = true) : (mle.sessions i).issi ≠ issi &&& tetraSsiMask24 := by
  rw [mleSessionLookup_eq] at h
  have hown := Slots.find_none h i
  simpa [sessionKind, huse] using hown

theorem Touched.set {mle mle' : Mle} {key : BitVec 32} {i : Fin mleSessionMax} {b : MleSession}
    (h : Touched mle mle' key i) (huse : b.inUse = (mle'.sessions i).inUse)
    (hissi : b.issi = (mle'.sessions i).issi) : Touched mle (mle'.setSession i b) key i := by
  have hself : (mle'.setSession i b).sessions i = b := Slots.set_self mle'.sessions i b
  refine ⟨?_, ?_, fun j hj => ?_, h.cfg_eq, h.init_eq⟩
  · rw [hself, huse, h.inUse]
  · rw [hself, hissi, h.issi_eq]
  · exact (Slots.set_other mle'.sessions b hj).trans (h.others j hj)

theorem Touched.congr {mle mle' mle'' : Mle} {key : BitVec 32} {i : Fin mleSessionMax}
    (h : Touched mle mle' key i) (hs : mle''.sessions = mle'.sessions)
    (hc : mle''.cfg = mle'.cfg) (hi : mle''.initialised = mle'.initialised) :
    Touched mle mle'' key i :=
  ⟨hs ▸ h.inUse, hs ▸ h.issi_eq, hs ▸ h.others, hc.trans h.cfg_eq, hi.trans h.init_eq⟩

theorem Touched.refresh {mle mle' : Mle} {key : BitVec 32} {i : Fin mleSessionMax}
    (h : Touched mle mle' key i) (db : SubscriberDb) :
    Touched mle (refreshSessionFromDb mle' db i) key i := by
  unfold refreshSessionFromDb
  cases profileOf db (mle'.sessions i).issi with
  | none => exact h
  | some pr => exact h.set rfl rfl

theorem Touched.feed {mle mle' : Mle} {key : BitVec 32} {i : Fin mleSessionMax}
    (h : Touched mle mle' key i) (e : MleEvt) : Touched mle (mle'.feed i e) key i :=
  (h.set (b := { mle'.sessions i with state := mleFsmStep (mle'.sessions i).state e })
    rfl rfl).congr rfl rfl rfl

theorem touched_lookup {mle : Mle} {issi : BitVec 32} {i : Fin mleSessionMax}
    (h : mleSessionLookup mle issi = some i) :
    Touched mle mle (issi &&& tetraSsiMask24) i :=
  ⟨(mleSessionLookup_some h).1, (mleSessionLookup_some h).2, fun _ _ => rfl, rfl, rfl⟩

/-- A request ends in the slot of its ISSI or takes a free one. -/
theorem mleSessionAlloc_slot {mle : Mle} {issi : BitVec 32} (h : HasSession mle issi) :
    ∃ i mle', mleSessionAlloc mle issi = (some i, mle') ∧ SlotFor mle issi i ∧
      Touched mle mle' (issi &&& tetraSsiMask24) i := by
  unfold HasSession at h
  unfold mleSessionAlloc at h ⊢
  cases hl : mleSessionLookup mle issi with
  | some i => exact ⟨i, mle, rfl, Or.inl hl, touched_lookup hl⟩
  | none =>
    rw [hl] at h
    simp only at h ⊢
    cases hf : (List.finRange mleSessionMax).find? fun i => !(mle.sessions i).inUse with
    | none =>
      rw [hf] at h
      exact absurd rfl h
    | some i =>
      have hfree := List.find?_some hf
      refine ⟨i, _, rfl, Or.inr ⟨hl, by simpa using hfree⟩, ?_⟩
      have hself : (mle.setSession i (freshSession mle.cfg issi)).sessions i =
          freshSession mle.cfg issi := Slots.set_self mle.sessions i _
      refine ⟨?_, ?_, fun j hj => Slots.set_other mle.sessions _ hj, rfl, rfl⟩
      · rw [hself]
        rfl
      · rw [hself]
        rfl

theorem HasSession.not_full {mle : Mle} {issi : BitVec 32} (h : HasSession mle issi) :
    ¬(mleSessionLookup mle issi = none ∧ ∀ i, (mle.sessions i).inUse = true) := by
  rintro ⟨hl, hall⟩
  obtain ⟨i, -, -, hslot | ⟨-, hfree⟩, -⟩ := mleSessionAlloc_slot h
  · rw [hl] at hslot
    cases hslot
  · rw [hall i] at hfree
    cases hfree

/-! Enrolment. -/

/-- The cell takes unknown subscribers and its database takes the entity it writes for them. -/
def Enrols (cfg : MleCfg) (db : SubscriberDb) : Prop :=
  cfg.acceptUnknown = true ∧ db.opened = true ∧ cfg.defaultProfileId.toNat < tetraDbProfileCount

theorem known_iff {db : SubscriberDb} {key : BitVec 32} :
    Known db key ↔ db.opened = true ∧
      ∃ i, (db.entities i).valid = true ∧ (db.entities i).entityId = key := by
  unfold Known dbLookupEntity
  cases ho : db.opened with
  | false => simp
  | true =>
    simp only [Bool.true_eq_false, if_false, true_and]
    cases hf : (List.finRange tetraDbEntityCount).find? fun i =>
        (db.entities i).valid && (db.entities i).entityId == key with
    | some i =>
      have hi := List.find?_some hf
      simp only [Bool.and_eq_true, beq_iff_eq] at hi
      exact ⟨fun _ => ⟨i, hi⟩, fun _ => ⟨i, rfl⟩⟩
    | none =>
      constructor
      · rintro ⟨i, hi⟩
        cases hi
      · rintro ⟨i, hv, hid⟩
        have hi := List.find?_eq_none.1 hf i (List.mem_finRange i)
        simp [hv, hid] at hi

theorem freeEntity_some {db : SubscriberDb} {i : Fin tetraDbEntityCount}
    (h : freeEntity db = some i) : db.opened = true ∧ (db.entities i).valid = false := by
  have hi := List.find?_some h
  unfold dbGetEntity at hi
  cases ho : db.opened with
  | false => simp [ho] at hi
  | true => simpa [ho, i.isLt] using hi

theorem freeEntity_none {db : SubscriberDb} (h : freeEntity db = none) (ho : db.opened = true) :
    EntitiesFull db := by
  intro i
  have hi := List.find?_eq_none.1 h i (List.mem_finRange i)
  simpa [dbGetEntity, ho, i.isLt] using hi

def enrolled (cfg : MleCfg) (issi : BitVec 32) : Entity :=
  { entityId := issi &&& tetraSsiMask24, profileId := cfg.defaultProfileId, valid := true }

theorem dbPutEntity_enrolled (cfg : MleCfg) {db : SubscriberDb} (ho : db.opened = true)
    (issi : BitVec 32) (i : Fin tetraDbEntityCount) :
    dbPutEntity db i (enrolled cfg issi) =
      if cfg.defaultProfileId.toNat < tetraDbProfileCount then
        .ok (db.setEntity i (enrolled cfg issi))
      else .error .EINVAL := by
  have hmask : (enrolled cfg issi).entityId &&& ~~~0x00FFFFFF = 0 := by
    show issi &&& 0xFFFFFF#32 &&& ~~~0xFFFFFF#32 = 0
    rw [BitVec.and_assoc]
    exact BitVec.and_zero
  have htype : ¬1 < (enrolled cfg issi).entityType := by
    show ¬(1 : Byte) < 0
    decide
  have hprofile : (enrolled cfg issi).profileId = cfg.defaultProfileId := rfl
  unfold dbPutEntity
  rw [if_neg (by rw [ho]; exact Bool.noConfusion), dif_pos i.isLt, hprofile]
  by_cases hp : cfg.defaultProfileId.toNat < tetraDbProfileCount
  · rw [if_pos hp, if_neg (Nat.not_le.2 hp), if_neg htype, if_neg (not_not.2 hmask)]
  · rw [if_neg hp, if_pos (Nat.not_lt.1 hp)]

/-- Enrolment leaves the database alone, for one of three reasons, or writes the entity of an
unknown ISSI into a free entry. -/
inductive EnrolResult (cfg : MleCfg) (db : SubscriberDb) (issi : BitVec 32) (db' : SubscriberDb) :
    Prop where
  | same (why : Known db (issi &&& tetraSsiMask24) ∨ ¬Enrols cfg db ∨ EntitiesFull db)
      (same : db' = db)
  | added (unknown : ¬Known db (issi &&& tetraSsiMask24)) (opens : Enrols cfg db)
      (i : Fin tetraDbEntityCount) (free : (db.entities i).valid = false)
      (added : db' = db.setEntity i (enrolled cfg issi))

theorem maybeAutoEnroll_result (mle : Mle) (db : SubscriberDb) (issi : BitVec 32) :
    EnrolResult mle.cfg db issi (maybeAutoEnroll mle db issi).2.2 := by
  unfold maybeAutoEnroll
  cases hl : dbLookupEntity db (issi &&& tetraSsiMask24) with
  | ok i => exact .same (Or.inl ⟨i, hl⟩) rfl
  | error e =>
    have hunknown : ¬Known db (issi &&& tetraSsiMask24) := by
      rintro ⟨i, hi⟩
      rw [hl] at hi
      cases hi
    simp only
    by_cases hacc : mle.cfg.acceptUnknown = false
    · rw [if_pos hacc]
      refine .same (Or.inr (Or.inl fun hopen => ?_)) rfl
      have hon := hopen.1
      rw [hacc] at hon
      cases hon
    rw [if_neg hacc]
    cases hf : freeEntity db with
    | none =>
      refine .same (Or.inr ?_) rfl
      by_cases ho : db.opened = true
      · exact Or.inr (freeEntity_none hf ho)
      · exact Or.inl fun hopen => ho hopen.2.1
    | some i =>
      obtain ⟨ho, hfree⟩ := freeEntity_some hf
      have hput := dbPutEntity_enrolled mle.cfg ho issi i
      unfold enrolled at hput
      simp only [hput]
      by_cases hp : mle.cfg.defaultProfileId.toNat < tetraDbProfileCount
      · rw [if_pos hp]
        exact .added hunknown ⟨Bool.eq_true_of_not_eq_false hacc, ho, hp⟩ i hfree rfl
      · rw [if_neg hp]
        exact .same (Or.inr (Or.inl fun hopen => hp hopen.2.2)) rfl

theorem setEntity_self (db : SubscriberDb) (i : Fin tetraDbEntityCount) (e : Entity) :
    (db.setEntity i e).entities i = e := if_pos rfl

theorem setEntity_other (db : SubscriberDb) {i j : Fin tetraDbEntityCount} (e : Entity)
    (h : j ≠ i) : (db.setEntity i e).entities j = db.entities j := if_neg h

/-- Nobody known is forgotten, and a new entity makes its ISSI known. -/
theorem EnrolResult.known {cfg : MleCfg} {db db' : SubscriberDb} {issi : BitVec 32}
    (h : EnrolResult cfg db issi db') {key : BitVec 32} (hk : Known db key) : Known db' key := by
  cases h with
  | same why same =>
    rw [same]
    exact hk
  | added unknown opens i free added =>
    obtain ⟨ho, j, hv, hid⟩ := known_iff.1 hk
    have hj : j ≠ i := by
      rintro rfl
      rw [free] at hv
      cases hv
    rw [added]
    refine known_iff.2 ⟨ho, j, ?_, ?_⟩
    · rw [setEntity_other _ _ hj, hv]
    · rw [setEntity_other _ _ hj, hid]

theorem EnrolResult.enrols {cfg : MleCfg} {db db' : SubscriberDb} {issi : BitVec 32}
    (h : EnrolResult cfg db issi db') : Enrols cfg db' ↔ Enrols cfg db := by
  cases h with
  | same why same => rw [same]
  | added unknown opens i free added =>
    rw [added]
    exact Iff.rfl

/-- The entities of a run so far, one enrolment on. -/
theorem EnrolledOnce.enrol {cfg : MleCfg} {db0 db db' : SubscriberDb} {issi : BitVec 32}
    (h0 : EnrolledOnce db0 db) (h : EnrolResult cfg db issi db') : EnrolledOnce db0 db' := by
  cases h with
  | same why same =>
    rw [same]
    exact h0
  | added unknown opens i free added =>
    have hnew : ∀ j, j ≠ i → (db.entities j).valid = true →
        (db.entities j).entityId ≠ issi &&& tetraSsiMask24 :=
      fun j _ hv hid => unknown (known_iff.2 ⟨opens.2.1, j, hv, hid⟩)
    rw [added]
    constructor
    · intro j hv
      have hj : j ≠ i := by
        rintro rfl
        rw [← h0.kept j hv, free] at hv
        cases hv
      rw [setEntity_other _ _ hj]
      exact h0.kept j hv
    · intro j k hvj hold hvk hid
      by_cases hj : j = i
      · by_contra hkj
        have hk : k ≠ i := by
          rw [← hj]
          exact hkj
        rw [setEntity_other _ _ hk] at hvk hid
        rw [hj, setEntity_self] at hid
        exact hnew k hk hvk hid
      · rw [setEntity_other _ _ hj] at hvj hid
        by_cases hk : k = i
        · rw [hk, setEntity_self] at hid
          exact absurd hid.symm (hnew j hj hvj)
        · rw [setEntity_other _ _ hk] at hvk hid
          exact h0.once j k hvj hold hvk hid

/-! Steps. -/

/-- What a message changes: nothing, the slot of a request and the entity enrolled for it, or
the slot an answer finds. -/
inductive TableStep (s s' : MleEnv) : MleOp → Prop where
  | same {op : MleOp} (same : s' = s) : TableStep s s' op
  | request (m : TleSapMsg) (i : Fin mleSessionMax) (request : mleRequest m ≠ none)
      (session : HasSession s.mle m.addr.ssi) (slot : SlotFor s.mle m.addr.ssi i)
      (touched : Touched s.mle s'.mle (m.addr.ssi &&& tetraSsiMask24) i)
      (enrol : EnrolResult s.mle.cfg s.db m.addr.ssi s'.db) : TableStep s s' (.tle m)
  | answer (m : TlaSapPayload) (i : Fin mleSessionMax)
      (found : mleSessionLookup s.mle m.addr.ssi = some i)
      (touched : Touched s.mle s'.mle (m.addr.ssi &&& tetraSsiMask24) i)
      (db_eq : s'.db = s.db) : TableStep s s' (.tla m)

theorem handleMmPdu_slot {s : MleEnv} {m : TleSapMsg} {body : List Byte} {bits : Nat}
    {d : MmDecoded} (hdec : mmIepDecode body bits = .ok d) (h : HasSession s.mle m.addr.ssi) :
    ∃ i, SlotFor s.mle m.addr.ssi i ∧
      Touched s.mle (handleMmPdu s m body bits).1.mle (m.addr.ssi &&& tetraSsiMask24) i ∧
      EnrolResult s.mle.cfg s.db m.addr.ssi (handleMmPdu s m body bits).1.db := by
  obtain ⟨i, mle1, ha, hslot, htouch⟩ := mleSessionAlloc_slot h
  have h1 := htouch.set (b := { mle1.sessions i with endpoint := m.endpoint }) rfl rfl
  have henrol := maybeAutoEnroll_result
    (mle1.setSession i { mle1.sessions i with endpoint := m.endpoint }) s.db m.addr.ssi
  rw [h1.cfg_eq] at henrol
  obtain ⟨hsess, hcfg, hinit⟩ := maybeAutoEnroll_mle
    (mle1.setSession i { mle1.sessions i with endpoint := m.endpoint }) s.db m.addr.ssi
  have h2 := (h1.congr hsess hcfg hinit).refresh (maybeAutoEnroll
    (mle1.setSession i { mle1.sessions i with endpoint := m.endpoint }) s.db m.addr.ssi).2.2
  refine ⟨i, hslot, ?_⟩
  unfold handleMmPdu
  rw [hdec]
  simp only [ha]
  obtain ⟨ht, -⟩ | ⟨ht, -⟩ := mmIepDecode_evt hdec
  · simp only [ht]
    have h3 : Touched s.mle (Mle.countDemand _) _ i := h2.congr rfl rfl rfl
    exact ⟨h3.feed .demandReceived, henrol⟩
  · simp only [ht]
    have h3 : Touched s.mle (Mle.countGrpDemand _) _ i := h2.congr rfl rfl rfl
    exact ⟨h3.feed .grpDemandReceived, henrol⟩

theorem mleHandleTleMsg_slot {s : MleEnv} {m : TleSapMsg} (hinit : s.mle.initialised = true)
    (hreq : mleRequest m ≠ none) (h : HasSession s.mle m.addr.ssi) :
    ∃ i, SlotFor s.mle m.addr.ssi i ∧
      Touched s.mle (mleHandleTleMsg s m).1.mle (m.addr.ssi &&& tetraSsiMask24) i ∧
      EnrolResult s.mle.cfg s.db m.addr.ssi (mleHandleTleMsg s m).1.db := by
  unfold mleRequest at hreq
  unfold mleHandleTleMsg
  rw [if_neg (by rw [hinit]; exact Bool.noConfusion)]
  cases hstrip : stripMlePd m.pdu (llcPduBodyMaxBytes * 8) with
  | error e =>
    rw [hstrip] at hreq
    exact absurd rfl hreq
  | ok r =>
    obtain ⟨disc, body, bits⟩ := r
    rw [hstrip] at hreq
    cases disc with
    | mm =>
      cases hdec : mmIepDecode body bits with
      | error e =>
        simp only [hdec] at hreq
        exact absurd rfl hreq
      | ok d => exact handleMmPdu_slot hdec h
    | _ => exact absurd rfl hreq

theorem mleHandleTleMsg_step (s : MleEnv) (m : TleSapMsg) (hinit : s.mle.initialised = true) :
    TableStep s (mleHandleTleMsg s m).1 (.tle m) := by
  obtain ⟨hsame, -⟩ | ⟨d, hreq, hdone⟩ := mleHandleTleMsg_cases s m hinit
  · exact .same hsame
  · have hne : mleRequest m ≠ none := by
      rw [hreq]
      exact Option.some_ne_none d
    obtain ⟨i, hslot, htouch, henrol⟩ := mleHandleTleMsg_slot hinit hne hdone.session
    exact .request m i hne hdone.session hslot htouch henrol

theorem mleHandleTlaMsg_step (s : MleEnv) (m : TlaSapPayload) :
    TableStep s (mleHandleTlaMsg s m).1 (.tla m) := by
  unfold mleHandleTlaMsg
  split
  · exact .same rfl
  cases hl : mleSessionLookup s.mle m.addr.ssi with
  | none => exact .same rfl
  | some i =>
    have htouch := touched_lookup hl
    cases m.decoded.pduType with
    | uLocationUpdateDemand =>
      exact .answer m i hl ((htouch.feed .acceptSent).congr rfl rfl rfl) rfl
    | uAttachDetachGroupIdentity =>
      exact .answer m i hl ((htouch.feed .grpAckSent).congr rfl rfl rfl) rfl
    | uItsiDetach => exact .answer m i hl (htouch.feed .detachComplete) rfl
    | _ => exact .same rfl

theorem step_tables (s : MleEnv) (op : MleOp) (hinit : s.mle.initialised = true) :
    TableStep s (s.step op) op := by
  cases op with
  | tle m => exact mleHandleTleMsg_step s m hinit
  | tla m => exact mleHandleTlaMsg_step s m

/-- A slot for an ISSI is used by no other one. -/
theorem SlotFor.owner {mle : Mle} {issi : BitVec 32} {i : Fin mleSessionMax}
    (h : SlotFor mle issi i) (huse : (mle.sessions i).inUse = true) :
    (mle.sessions i).issi = issi &&& tetraSsiMask24 := by
  obtain hl | ⟨-, hfree⟩ := h
  · exact (mleSessionLookup_some hl).2
  · rw [hfree] at huse
    cases huse

/-- With one session an ISSI, its slot is the only one of its ISSI. -/
theorem SlotFor.only {mle : Mle} {issi : BitVec 32} {i j : Fin mleSessionMax}
    (h : SlotFor mle issi i) (hone : OneSession mle) (huse : (mle.sessions j).inUse = true)
    (hissi : (mle.sessions j).issi = issi &&& tetraSsiMask24) : j = i := by
  obtain hl | ⟨hl, -⟩ := h
  · obtain ⟨hi, hid⟩ := mleSessionLookup_some hl
    exact hone j i huse hi (hissi.trans hid.symm)
  · exact absurd hissi (mleSessionLookup_none hl j huse)

theorem Touched.one {mle mle' : Mle} {issi : BitVec 32} {i : Fin mleSessionMax}
    (h : Touched mle mle' (issi &&& tetraSsiMask24) i) (hslot : SlotFor mle issi i)
    (hone : OneSession mle) : OneSession mle' := by
  intro j k hj hk hjk
  by_cases hji : j = i <;> by_cases hki : k = i
  · rw [hji, hki]
  · rw [hji, h.issi_eq, h.others k hki] at hjk
    rw [h.others k hki] at hk
    exact hji.trans (hslot.only hone hk hjk.symm).symm
  · rw [hki, h.issi_eq, h.others j hji] at hjk
    rw [h.others j hji] at hj
    exact (hslot.only hone hj hjk).trans hki.symm
  · rw [h.others j hji] at hj hjk
    rw [h.others k hki] at hk hjk
    exact hone j k hj hk hjk

theorem Touched.owner {mle mle' : Mle} {issi : BitVec 32} {i j : Fin mleSessionMax}
    (h : Touched mle mle' (issi &&& tetraSsiMask24) i) (hslot : SlotFor mle issi i)
    (huse : (mle.sessions j).inUse = true) :
    (mle'.sessions j).inUse = true ∧ (mle'.sessions j).issi = (mle.sessions j).issi := by
  by_cases hj : j = i
  · rw [hj] at huse ⊢
    exact ⟨h.inUse, h.issi_eq.trans (hslot.owner huse).symm⟩
  · rw [h.others j hj]
    exact ⟨huse, rfl⟩

theorem Touched.elsewhere {mle mle' : Mle} {issi : BitVec 32} {i j : Fin mleSessionMax}
    (h : Touched mle mle' (issi &&& tetraSsiMask24) i) (hslot : SlotFor mle issi i)
    (huse : (mle.sessions j).inUse = true)
    (hissi : (mle.sessions j).issi ≠ issi &&& tetraSsiMask24) :
    mle'.sessions j = mle.sessions j := by
  apply h.others
  rintro rfl
  exact hissi (hslot.owner huse)

theorem sessionsKept_step {s : MleEnv} (op : MleOp) (hinit : s.mle.initialised = true)
    (hone : OneSession s.mle) : SessionsKept s op := by
  cases step_tables s op hinit with
  | same same =>
    refine ⟨?_, fun i hi => ?_, fun i _ _ => ?_⟩
    · rw [same]
      exact hone
    · rw [same]
      exact ⟨hi, rfl⟩
    · rw [same]
  | request m i _ _ slot touched _ =>
    exact ⟨touched.one slot hone, fun j => touched.owner slot, fun j => touched.elsewhere slot⟩
  | answer m i found touched _ =>
    have slot : SlotFor s.mle m.addr.ssi i := Or.inl found
    exact ⟨touched.one slot hone, fun j => touched.owner slot, fun j => touched.elsewhere slot⟩

theorem fullRefused_step {s : MleEnv} (op : MleOp) (hinit : s.mle.initialised = true)
    (hok : ¬RefusalIgnored s op) : FullRefused s op := by
  cases op with
  | tla m => trivial
  | tle m =>
    intro hfull
    cases step_tables s (.tle m) hinit with
    | same same =>
      rw [same]
      exact ⟨rfl, rfl⟩
    | request _ i request session slot touched enrol =>
      obtain hfull | ⟨hunknown, hfull⟩ := hfull
      · exact absurd hfull session.not_full
      · exact absurd ⟨m, rfl, request, session, hunknown, hfull⟩ hok

/-- Where enrolment can work, or has used up the entity table, every session is of a known
ISSI. -/
structure TableInv (s : MleEnv) : Prop where
  init : s.mle.initialised = true
  one : OneSession s.mle
  known : Enrols s.mle.cfg s.db ∨ EntitiesFull s.db → ∀ i, (s.mle.sessions i).inUse = true →
    Known s.db (s.mle.sessions i).issi

theorem Touched.knows {mle mle' : Mle} {db db' : SubscriberDb} {key : BitVec 32}
    {i : Fin mleSessionMax} (h : Touched mle mle' key i) (hkey : Known db' key)
    (hdb : ∀ k, Known db k → Known db' k)
    (hall : ∀ j, (mle.sessions j).inUse = true → Known db (mle.sessions j).issi) :
    ∀ j, (mle'.sessions j).inUse = true → Known db' (mle'.sessions j).issi := by
  intro j hj
  by_cases hji : j = i
  · rw [hji, h.issi_eq]
    exact hkey
  · rw [h.others j hji] at hj ⊢
    exact hdb _ (hall j hj)

theorem tableInv_step {s : MleEnv} (op : MleOp) (hs : TableInv s) (hok : ¬RefusalIgnored s op) :
    TableInv (s.step op) := by
  have hkept := sessionsKept_step op hs.init hs.one
  cases step_tables s op hs.init with
  | same same =>
    rw [same]
    exact hs
  | answer m i found touched db_eq =>
    refine ⟨touched.init_eq.trans hs.init, hkept.one, fun hwhen => ?_⟩
    rw [touched.cfg_eq, db_eq] at hwhen
    obtain ⟨huse, hid⟩ := mleSessionLookup_some found
    rw [db_eq]
    refine touched.knows ?_ (fun k hk => hk) (hs.known hwhen)
    rw [← hid]
    exact hs.known hwhen i huse
  | request m i request session slot touched enrol =>
    refine ⟨touched.init_eq.trans hs.init, hkept.one, fun hwhen => ?_⟩
    rw [touched.cfg_eq, enrol.enrols] at hwhen
    have hmono : ∀ k, Known s.db k → Known (s.step (.tle m)).db k := fun k => enrol.known
    cases enrol with
    | added unknown opens j free added =>
      refine touched.knows ?_ hmono (hs.known (Or.inl opens))
      rw [added]
      refine known_iff.2 ⟨opens.2.1, j, ?_, ?_⟩
      · rw [setEntity_self]
        rfl
      · rw [setEntity_self]
        rfl
    | same why same =>
      rw [same] at hwhen
      have hknown : Known s.db (m.addr.ssi &&& tetraSsiMask24) := by
        by_contra hunknown
        have hnot : ¬EntitiesFull s.db := fun hfull =>
          hok ⟨m, rfl, request, session, hunknown, hfull⟩
        obtain hk | hclosed | hfull := why
        · exact hunknown hk
        · exact hwhen.elim hclosed hnot
        · exact hnot hfull
      exact touched.knows (hmono _ hknown) hmono (hs.known hwhen)

/-- The refused subscriber of a full entity table takes a session. -/
theorem refusal_ignored_changes {s : MleEnv} {op : MleOp} (hs : TableInv s)
    (hlaw : FullRefused s op) : ¬RefusalIgnored s op := by
  rintro ⟨m, rfl, hreq, hsess, hunknown, hfull⟩
  obtain ⟨hsame, -⟩ := hlaw (Or.inr ⟨hunknown, hfull⟩)
  obtain ⟨i, hslot, htouch, -⟩ := mleHandleTleMsg_slot hs.init hreq hsess
  have huse : (s.mle.sessions i).inUse = true := by
    rw [← hsame]
    exact htouch.inUse
  apply hunknown
  rw [← hslot.owner huse]
  exact hs.known (Or.inr hfull) i huse

theorem tableInv_started (cfg : MleCfg) (bus : Bus) (db : SubscriberDb) :
    TableInv (mleStarted cfg bus db) :=
  ⟨rfl, fun _ _ h => Bool.noConfusion h, fun _ _ h => Bool.noConfusion h⟩

theorem enrolledOnce_refl (db : SubscriberDb) : EnrolledOnce db db := by
  refine ⟨fun _ _ => rfl, fun i j hv hold => ?_⟩
  rw [hv] at hold
  cases hold

theorem enrolledOnce_run {db : SubscriberDb} {s : MleEnv} (ops : List MleOp)
    (hinit : s.mle.initialised = true) (h : EnrolledOnce db s.db) :
    EnrolledOnce db (exec MleEnv.step s ops).db := by
  refine (exec_invariant (fun t => t.mle.initialised = true ∧ EnrolledOnce db t.db)
    (fun t op ht _ => ?_) ⟨hinit, h⟩ (along_true MleEnv.step s ops)).2
  cases step_tables t op ht.1 with
  | same same =>
    rw [same]
    exact ht
  | request m i _ _ slot touched enrol => exact ⟨touched.init_eq.trans ht.1, ht.2.enrol enrol⟩
  | answer m i found touched db_eq =>
    refine ⟨touched.init_eq.trans ht.1, ?_⟩
    rw [db_eq]
    exact ht.2

/-- Sessions and entities stay one to an ISSI in every run; a full table refuses the request
in exactly the runs where no request gets a session after its enrolment found the entity table
full. -/
theorem tables_kept_iff (cfg : MleCfg) (bus : Bus) (db : SubscriberDb) (ops : List MleOp) :
    TablesKept (mleStarted cfg bus db) ops ↔
      Along MleEnv.step (fun s op => ¬RefusalIgnored s op) (mleStarted cfg bus db) ops := by
  have hsteps : Along MleEnv.step (fun s op => SessionsKept s op ∧ FullRefused s op)
      (mleStarted cfg bus db) ops ↔
        Along MleEnv.step (fun s op => ¬RefusalIgnored s op) (mleStarted cfg bus db) ops := by
    refine along_iff_of_kept TableInv (fun s op hs hok => tableInv_step op hs hok)
      (fun s op hs => ⟨fun h => refusal_ignored_changes hs h.2, fun hok => ?_⟩)
      (tableInv_started cfg bus db)
    exact ⟨sessionsKept_step op hs.init hs.one, fullRefused_step op hs.init hok⟩
  refine Iff.trans ⟨And.left, fun h => ⟨h, fun pre _ => ?_⟩⟩ hsteps
  exact enrolledOnce_run pre rfl (enrolledOnce_refl db)

/-! A full entity table in an open cell. -/

def fullDb : SubscriberDb where
  entities i := { entityId := BitVec.ofNat 32 (1000 + i.val), valid := true }
  opened := true

/-- The demand of ISSI 5 takes a session, although no entity can be enrolled for it. -/
theorem refused_enrolment_takes_session :
    ¬TablesKept (mleStarted { acceptUnknown := true }
      (msgbusInit Payload Handler 32 256 busQueueCapPerPrio_pos) fullDb) [.tle (demandFrom 5)] := by
  intro h
  refine refusal_ignored_changes (tableInv_started _ _ _) h.1.1.2
    ⟨demandFrom 5, rfl, demandFrom_request, ?_, ?_, ?_⟩
  · decide +kernel
  · decide +kernel
  · exact fun _ => rfl

end TetraBs
