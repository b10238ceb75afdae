import TetraBs.Persistence.DbFile
import Mathlib.Order.Fin.Basic

/-! What a database holds after it was saved and opened again. -/
namespace TetraBs
open TetraBs.Bits

/-- The databases of a daemon that found no file. -/
inductive DbReach (path : List Byte) : SubscriberDb → Prop
  | opened {db db' : SubscriberDb} (h : dbOpen db path .absent = (db', none)) : DbReach path db'
  | putProfile {db db' : SubscriberDb} {id : Nat} {p : Profile} (h : DbReach path db)
      (hput : dbPutProfile db id p = .ok db') : DbReach path db'
  | putEntity {db db' : SubscriberDb} {idx : Nat} {e : Entity} (h : DbReach path db)
      (hput : dbPutEntity db idx e = .ok db') : DbReach path db'

/-- What the put operations check. -/
structure Entity.InRange (e : Entity) : Prop where
  id_le : e.entityId.toNat ≤ 0xFFFFFF
  type_le : e.entityType.toNat ≤ 1
  profile_lt : e.profileId.toNat < tetraDbProfileCount

structure DbInv (path : List Byte) (db : SubscriberDb) : Prop where
  opened : db.opened = true
  path_ok : path ≠ [] ∧ path.length < tetraDbPathMax
  profile0 : ∀ i, i.val = 0 → db.profiles i = profileUnpack tetraDbProfile0Bits
  entities : ∀ i, (db.entities i).InRange

/-- The same packed profiles and the same entities. -/
def SameTables (db db' : SubscriberDb) : Prop :=
  (∀ i, profilePack (db.profiles i) = profilePack (db'.profiles i)) ∧ db.entities = db'.entities

/-- Every profile packs to a number that is not negative as an `int`, and no reserved field has
a bit past the 34 of the layout. -/
structure SubscriberDb.Savable (db : SubscriberDb) : Prop where
  profiles : ∀ i, i.val ≠ 0 → (db.profiles i).maxCallDuration.toNat < 128
  entities : ∀ i, (db.entities i).reserved34.toNat < 2 ^ 34

theorem dbOpen_absent {db db' : SubscriberDb} {path : List Byte}
    (h : dbOpen db path .absent = (db', none)) :
    (path ≠ [] ∧ path.length < tetraDbPathMax) ∧ db' = dbInitEmpty := by
  unfold dbOpen at h
  split at h
  · cases h
  · rename_i hpath
    cases h
    rw [not_or] at hpath
    exact ⟨⟨hpath.1, Nat.lt_of_not_le hpath.2⟩, rfl⟩

theorem dbPutProfile_ok {db db' : SubscriberDb} {id : Nat} {p : Profile}
    (h : dbPutProfile db id p = .ok db') :
    ∃ i : Fin tetraDbProfileCount, i.val ≠ 0 ∧ db' = db.setProfile i p := by
  unfold dbPutProfile at h
  split at h
  · cases h
  · split at h
    · rename_i hid
      split at h
      · cases h
      · rename_i h0
        cases h
        exact ⟨⟨id, hid⟩, h0, rfl⟩
    · cases h

theorem toNat_le_of_mask {v m : BitVec 32} (h : v &&& ~~~m = 0) : v.toNat ≤ m.toNat := by
  have hand : v = v &&& m := by
    apply BitVec.eq_of_getLsbD_eq
    intro j hj
    have hbit : (v &&& ~~~m).getLsbD j = false := by rw [h]; simp
    rw [BitVec.getLsbD_and, BitVec.getLsbD_not, decide_eq_true hj] at hbit
    rw [BitVec.getLsbD_and]
    revert hbit
    cases v.getLsbD j <;> cases m.getLsbD j <;> simp
  rw [hand, BitVec.toNat_and]
  exact Nat.and_le_right

theorem dbPutEntity_ok {db db' : SubscriberDb} {idx : Nat} {e : Entity}
    (h : dbPutEntity db idx e = .ok db') : e.InRange ∧ ∃ i, db' = db.setEntity i e := by
  unfold dbPutEntity at h
  split at h
  · cases h
  · split at h
    · rename_i hidx
      split at h
      · cases h
      · rename_i hprof
        split at h
        · cases h
        · rename_i htype
          split at h
          · cases h
          · rename_i hid
            cases h
            refine ⟨⟨?_, ?_, by omega⟩, ⟨idx, hidx⟩, rfl⟩
            · exact toNat_le_of_mask (not_not.1 hid)
            · have : ¬1 < e.entityType.toNat := htype
              omega
    · cases h

theorem dbReach_inv {path : List Byte} {db : SubscriberDb} (h : DbReach path db) :
    DbInv path db := by
  induction h with
  | opened h =>
    obtain ⟨hpath, rfl⟩ := dbOpen_absent h
    refine ⟨rfl, hpath, ?_, ?_⟩
    · intro i hi
      have : i = ⟨0, by decide⟩ := Fin.ext hi
      subst this
      rfl
    · intro i
      exact ⟨Nat.zero_le _, Nat.zero_le _, (by decide : 0 < tetraDbProfileCount)⟩
  | putProfile h hput ih =>
    obtain ⟨i, hi, rfl⟩ := dbPutProfile_ok hput
    refine ⟨ih.opened, ih.path_ok, ?_, ih.entities⟩
    intro j hj
    have hne : j ≠ i := by
      rintro rfl
      exact hi hj
    rw [← ih.profile0 j hj]
    exact if_neg hne
  | putEntity h hput ih =>
    obtain ⟨hrange, i, rfl⟩ := dbPutEntity_ok hput
    refine ⟨ih.opened, ih.path_ok, ih.profile0, ?_⟩
    intro j
    by_cases hj : j = i
    · simp [SubscriberDb.setEntity, hj, hrange]
    · simp [SubscriberDb.setEntity, hj, ih.entities j]

theorem jsonGetUint_int {obj : Json} {key : String} {i : Int} (h : obj.get key = some (.integer i))
    (max : Nat) : jsonGetUint obj key max =
      if i < 0 then .error .EINVAL else if max < i.toNat then .error .EINVAL else .ok i.toNat := by
  simp [jsonGetUint, h]

theorem jsonGetUint_nat {obj : Json} {key : String} {n max : Nat}
    (h : obj.get key = some (natJson n)) (hn : n ≤ max) : jsonGetUint obj key max = .ok n := by
  rw [jsonGetUint_int h, if_neg (by omega), Int.toNat_natCast, if_neg (Nat.not_lt.2 hn)]

/-- A number written through a signed integer of its width is read back if its top bit is
clear. -/
theorem jsonGetUint_toInt {obj : Json} {key : String} {w : Nat} {v : BitVec w}
    (h : obj.get key = some (.integer v.toInt)) (max : Nat) :
    jsonGetUint obj key max =
      if 2 * v.toNat < 2 ^ w ∧ v.toNat ≤ max then .ok v.toNat else .error .EINVAL := by
  have hlt := v.isLt
  have hcast : ((2 ^ w : Nat) : Int) = 2 ^ w := by push_cast; rfl
  rw [jsonGetUint_int h, BitVec.toInt_eq_toNat_cond]
  by_cases hv : 2 * v.toNat < 2 ^ w
  · rw [if_pos hv, if_neg (by omega), Int.toNat_natCast]
    by_cases hmax : v.toNat ≤ max
    · rw [if_neg (Nat.not_lt.2 hmax), if_pos ⟨hv, hmax⟩]
    · rw [if_pos (Nat.lt_of_not_le hmax), if_neg fun h => hmax h.2]
  · rw [if_neg hv, if_pos (by omega), if_neg fun h => hv h.1]

theorem dbLoadProfile_toJson (acc db : SubscriberDb) (i : Fin tetraDbProfileCount) :
    dbLoadProfile acc (profileToJson db i) =
      if i.val = 0 then .ok acc
      else if 2 * (profilePack (db.profiles i)).toNat < 2 ^ 32 then
        .ok (acc.setProfile i (profileUnpack (profilePack (db.profiles i))))
      else .error .EINVAL := by
  have hid : jsonGetUint (profileToJson db i) "id" (tetraDbProfileCount - 1) = .ok i.val := by
    apply jsonGetUint_nat _ (by have := i.isLt; omega)
    simp [profileToJson]
  have hobj : (profileToJson db i).isObject = true := rfl
  have hlt := (profilePack (db.profiles i)).isLt
  by_cases h0 : i.val = 0
  · have hget : (profileToJson db i).get "bits" = some (.integer tetraDbProfile0Bits.toInt) := by
      simp [profileToJson, h0]
    have hbits := jsonGetUint_toInt hget 0xFFFFFFFF
    rw [if_pos (by decide)] at hbits
    rw [if_pos h0]
    simp [dbLoadProfile, hobj, hid, hbits, h0, bind, Except.bind, pure, Except.pure]
  · have hget : (profileToJson db i).get "bits" =
        some (.integer (profilePack (db.profiles i)).toInt) := by
      simp [profileToJson, h0]
    have hbits := jsonGetUint_toInt hget 0xFFFFFFFF
    have hle : (profilePack (db.profiles i)).toNat ≤ 0xFFFFFFFF := by omega
    rw [if_neg h0]
    by_cases hp : 2 * (profilePack (db.profiles i)).toNat < 2 ^ 32
    · rw [if_pos ⟨hp, hle⟩] at hbits
      rw [if_pos hp]
      simp [dbLoadProfile, hobj, hid, hbits, h0, bind, Except.bind, pure, Except.pure]
    · rw [if_neg fun h => hp h.1] at hbits
      rw [if_neg hp]
      simp [dbLoadProfile, hobj, hid, hbits, bind, Except.bind]

/-- The entity comes back as it was if its wide field fits the layout. -/
theorem dbLoadEntity_toJson (acc : SubscriberDb) (i : Fin tetraDbEntityCount) {e : Entity}
    (he : e.InRange) :
    dbLoadEntity acc (entityToJson i e) =
      if e.reserved34.toNat < 2 ^ 34 then .ok (acc.setEntity i e) else .error .EINVAL := by
  have hobj : (entityToJson i e).isObject = true := rfl
  have hidx : jsonGetUint (entityToJson i e) "idx" (tetraDbEntityCount - 1) = .ok i.val := by
    apply jsonGetUint_nat _ (by have := i.isLt; omega)
    simp [entityToJson]
  have hid : jsonGetUint (entityToJson i e) "entity_id" 0xFFFFFF = .ok e.entityId.toNat := by
    have hlt := e.entityId.isLt
    have hle := he.id_le
    have hwide : (e.entityId.setWidth 64).toNat = e.entityId.toNat := by simp; omega
    rw [jsonGetUint_toInt (v := e.entityId.setWidth 64) (by simp [entityToJson]), hwide,
      if_pos ⟨by omega, hle⟩]
  have htype : jsonGetUint (entityToJson i e) "entity_type" 1 = .ok e.entityType.toNat :=
    jsonGetUint_nat (by simp [entityToJson]) he.type_le
  have hprof : jsonGetUint (entityToJson i e) "profile_id" (tetraDbProfileCount - 1) =
      .ok e.profileId.toNat :=
    jsonGetUint_nat (by simp [entityToJson]) (by have := he.profile_lt; omega)
  have hvalid : jsonGetBool (entityToJson i e) "valid" = .ok e.valid := by
    simp [jsonGetBool, entityToJson]
  have hget : (entityToJson i e).get "reserved" = some (.integer e.reserved34.toInt) := by
    simp [entityToJson]
  have hres := jsonGetUint_toInt hget 17179869183
  by_cases hr : e.reserved34.toNat < 2 ^ 34
  · rw [if_pos ⟨by omega, by omega⟩] at hres
    rw [if_pos hr]
    simp [dbLoadEntity, hobj, hidx, hid, htype, hprof, hvalid, hres, bind, Except.bind, pure,
      Except.pure]
  · rw [if_neg fun h => by omega] at hres
    rw [if_neg hr]
    simp [dbLoadEntity, hobj, hidx, hid, htype, hprof, hres, bind, Except.bind]

/-- Loading the profiles of a database: all of them come back, or the load fails. -/
theorem loadProfiles_cases (db : SubscriberDb) (is : List (Fin tetraDbProfileCount))
    (acc : SubscriberDb) :
    (∀ i ∈ is, i.val ≠ 0 → 2 * (profilePack (db.profiles i)).toNat < 2 ^ 32) ∧
        (∃ out, (is.map (profileToJson db)).foldlM dbLoadProfile acc = .ok out ∧
          (∀ j, out.profiles j = if j ∈ is ∧ j.val ≠ 0 then
            profileUnpack (profilePack (db.profiles j)) else acc.profiles j) ∧
          out.entities = acc.entities) ∨
      (¬∀ i ∈ is, i.val ≠ 0 → 2 * (profilePack (db.profiles i)).toNat < 2 ^ 32) ∧
        (is.map (profileToJson db)).foldlM dbLoadProfile acc = .error .EINVAL := by
  induction is generalizing acc with
  | nil => exact Or.inl ⟨by simp, acc, rfl, by simp, rfl⟩
  | cons i is ih =>
    rw [List.forall_mem_cons, List.map_cons, List.foldlM_cons, dbLoadProfile_toJson]
    by_cases h0 : i.val = 0
    · rw [if_pos h0]
      obtain ⟨hall, out, hout, hprof, hent⟩ | ⟨hno, herr⟩ := ih acc
      · refine Or.inl ⟨⟨fun h => absurd h0 h, hall⟩, out, hout, fun j => ?_, hent⟩
        rw [hprof j]
        by_cases hj : j = i
        · subst hj
          simp [h0]
        · simp [hj]
      · exact Or.inr ⟨fun h => hno h.2, herr⟩
    rw [if_neg h0]
    by_cases hp : 2 * (profilePack (db.profiles i)).toNat < 2 ^ 32
    · rw [if_pos hp]
      obtain ⟨hall, out, hout, hprof, hent⟩ | ⟨hno, herr⟩ :=
        ih (acc.setProfile i (profileUnpack (profilePack (db.profiles i))))
      · refine Or.inl ⟨⟨fun _ => hp, hall⟩, out, hout, fun j => ?_, hent⟩
        rw [hprof j]
        by_cases hj : j = i
        · subst hj
          simp [SubscriberDb.setProfile, h0]
        · simp [SubscriberDb.setProfile, hj]
      · exact Or.inr ⟨fun h => hno h.2, herr⟩
    · rw [if_neg hp]
      exact Or.inr ⟨fun h => hp (h.1 h0), rfl⟩

/-- The same for the entities. -/
theorem loadEntities_cases (slots : Fin tetraDbEntityCount → Entity)
    (hin : ∀ i, (slots i).InRange) (is : List (Fin tetraDbEntityCount)) (acc : SubscriberDb) :
    (∀ i ∈ is, (slots i).reserved34.toNat < 2 ^ 34) ∧
        (∃ out, (is.map fun i => entityToJson i (slots i)).foldlM dbLoadEntity acc = .ok out ∧
          (∀ j, out.entities j = if j ∈ is then slots j else acc.entities j) ∧
          out.profiles = acc.profiles) ∨
      (¬∀ i ∈ is, (slots i).reserved34.toNat < 2 ^ 34) ∧
        (is.map fun i => entityToJson i (slots i)).foldlM dbLoadEntity acc = .error .EINVAL := by
  induction is generalizing acc with
  | nil => exact Or.inl ⟨by simp, acc, rfl, by simp, rfl⟩
  | cons i is ih =>
    rw [List.forall_mem_cons, List.map_cons, List.foldlM_cons, dbLoadEntity_toJson _ _ (hin i)]
    by_cases hr : (slots i).reserved34.toNat < 2 ^ 34
    · rw [if_pos hr]
      obtain ⟨hall, out, hout, hent, hprof⟩ | ⟨hno, herr⟩ := ih (acc.setEntity i (slots i))
      · refine Or.inl ⟨⟨hr, hall⟩, out, hout, fun j => ?_, hprof⟩
        rw [hent j]
        by_cases hj : j = i
        · subst hj
          simp [SubscriberDb.setEntity]
        · simp [SubscriberDb.setEntity, hj]
      · exact Or.inr ⟨fun h => hno h.2, herr⟩
    · rw [if_neg hr]
      exact Or.inr ⟨fun h => hr h.1, rfl⟩

theorem profilePack_lt_iff (p : Profile) :
    2 * (profilePack p).toNat < 2 ^ 32 ↔ p.maxCallDuration.toNat < 128 := by
  have htop : (profilePack p).msb = p.maxCallDuration.msb := by
    rw [BitVec.msb_eq_getLsbD_last, profilePack_getLsbD _ _ (by decide),
      BitVec.msb_eq_getLsbD_last]
    rfl
  rw [BitVec.msb_eq_decide, BitVec.msb_eq_decide, decide_eq_decide] at htop
  omega

theorem Entity.eq_empty {e : Entity} (h : e.isEmpty = true) : e = {} := by
  cases e
  simp_all [Entity.isEmpty]

/-- Saved to a path and opened again from it, the database is the same. -/
def ReloadsSame (path : List Byte) (file : File) (fresh db : SubscriberDb) : Prop :=
  let saved := dbAtomicSave db path true file
  let again := dbOpen fresh path saved.1
  saved.2 = none ∧ again.2 = none ∧ SameTables again.1 db

theorem dbAtomicSave_ok {path : List Byte} {db : SubscriberDb} (h : DbInv path db) (file : File) :
    dbAtomicSave db path true file = (.json (dbDumpJson db), none) := by
  have hno : ¬(db.opened = false ∨ path = []) := by
    rw [h.opened]
    simp [h.path_ok.1]
  rw [dbAtomicSave, if_neg hno]
  rfl

theorem dbOpen_json {path : List Byte} (h : path ≠ [] ∧ path.length < tetraDbPathMax)
    (fresh : SubscriberDb) (root : Json) :
    (∃ db, dbLoadJson root = .ok db ∧ dbOpen fresh path (.json root) =
        (db.setProfile ⟨0, by decide⟩ (profileUnpack tetraDbProfile0Bits), none)) ∨
      ∃ e, dbLoadJson root = .error e ∧ dbOpen fresh path (.json root) = ({}, some e) := by
  have hpath : ¬(path = [] ∨ tetraDbPathMax ≤ path.length) := by
    rw [not_or]
    exact ⟨h.1, Nat.not_le.2 h.2⟩
  rw [dbOpen, if_neg hpath]
  cases dbLoadJson root with
  | ok db => exact Or.inl ⟨db, rfl, rfl⟩
  | error e => exact Or.inr ⟨e, rfl, rfl⟩

/-- The entities that are written. -/
def savedSlots (db : SubscriberDb) : List (Fin tetraDbEntityCount) :=
  (List.finRange tetraDbEntityCount).filter fun i => !(db.entities i).isEmpty

theorem dbLoadJson_dump (db : SubscriberDb) :
    dbLoadJson (dbDumpJson db) =
      (((List.finRange tetraDbProfileCount).map (profileToJson db)).foldlM dbLoadProfile
        dbInitEmpty).bind fun acc =>
          ((savedSlots db).map fun i => entityToJson i (db.entities i)).foldlM dbLoadEntity acc := by
  have hver : jsonGetUint (dbDumpJson db) "version" 1 = .ok 1 :=
    jsonGetUint_nat (by simp [dbDumpJson]) (le_refl 1)
  have hobj : (dbDumpJson db).isObject = true := rfl
  simp [dbLoadJson, hver, hobj, bind, Except.bind]
  simp [dbDumpJson, savedSlots]

/-- A dump is loaded with its tables, or refused. -/
theorem dbLoadJson_dump_cases {path : List Byte} {db : SubscriberDb} (h : DbInv path db) :
    db.Savable ∧ (∃ out, dbLoadJson (dbDumpJson db) = .ok out ∧
        (∀ i, i.val ≠ 0 → profilePack (out.profiles i) = profilePack (db.profiles i)) ∧
        out.entities = db.entities) ∨
      ¬db.Savable ∧ dbLoadJson (dbDumpJson db) = .error .EINVAL := by
  rw [dbLoadJson_dump]
  obtain ⟨hbits, acc, hacc, hprof, hinit⟩ | ⟨hno, herr⟩ :=
    loadProfiles_cases db (List.finRange tetraDbProfileCount) dbInitEmpty
  · rw [hacc]
    obtain ⟨hres, out, hout, hent, hkeep⟩ | ⟨hno, herr⟩ :=
      loadEntities_cases db.entities h.entities (savedSlots db) acc
    · refine Or.inl ⟨⟨?_, ?_⟩, out, hout, ?_, ?_⟩
      · intro i hi
        exact (profilePack_lt_iff _).1 (hbits i (List.mem_finRange i) hi)
      · intro i
        by_cases he : (db.entities i).isEmpty = true
        · rw [Entity.eq_empty he]
          decide
        · exact hres i (by simp [savedSlots, he])
      · intro i hi
        rw [hkeep, hprof i, if_pos ⟨List.mem_finRange i, hi⟩, profilePack_unpack]
      · funext i
        rw [hent i]
        by_cases he : (db.entities i).isEmpty = true
        · rw [if_neg (by simp [savedSlots, he]), hinit, Entity.eq_empty he]
          rfl
        · rw [if_pos (by simp [savedSlots, he])]
    · exact Or.inr ⟨fun hs => hno fun i _ => hs.entities i, herr⟩
  · rw [herr]
    refine Or.inr ⟨fun hs => hno fun i _ hi => ?_, rfl⟩
    exact (profilePack_lt_iff _).2 (hs.profiles i hi)

/-- A database built by put operations survives saving and opening exactly if it is savable. -/
theorem db_reload_iff {path : List Byte} {db : SubscriberDb} (h : DbReach path db) (file : File)
    (fresh : SubscriberDb) : ReloadsSame path file fresh db ↔ db.Savable := by
  have hinv := dbReach_inv h
  rw [ReloadsSame]
  simp only [dbAtomicSave_ok hinv, true_and]
  obtain ⟨hs, out, hload, hprof, hent⟩ | ⟨hno, hload⟩ := dbLoadJson_dump_cases hinv
  · obtain ⟨db', hok, hopen⟩ | ⟨e, herr, -⟩ := dbOpen_json hinv.path_ok fresh (dbDumpJson db)
    · rw [hload] at hok
      cases hok
      rw [hopen]
      refine ⟨fun _ => hs, fun _ => ⟨rfl, fun i => ?_, hent⟩⟩
      by_cases h0 : i.val = 0
      · have hi : i = ⟨0, by decide⟩ := Fin.ext h0
        rw [hinv.profile0 i h0, hi]
        rfl
      · have hne : i ≠ ⟨0, by decide⟩ := fun heq => h0 (congrArg Fin.val heq)
        rw [← hprof i h0]
        simp [SubscriberDb.setProfile, hne]
    · rw [hload] at herr
      cases herr
  · obtain ⟨db', hok, -⟩ | ⟨e, -, hopen⟩ := dbOpen_json hinv.path_ok fresh (dbDumpJson db)
    · rw [hload] at hok
      cases hok
    · rw [hopen]
      refine ⟨fun h => ?_, fun hs => absurd hs hno⟩
      cases h.1

theorem db_reload_first_start : ReloadsSame [47] .absent {} dbInitEmpty := by
  have hopen : dbOpen {} [47] .absent = (dbInitEmpty, none) := rfl
  apply (db_reload_iff (.opened hopen) .absent {}).2
  constructor
  · intro i hi
    simp [dbInitEmpty, SubscriberDb.setProfile, Fin.ext_iff, hi]
  · intro i
    exact (by decide : 0 < 2 ^ 34)

/-- Calls of up to 128 s in profile 1. -/
def longCalls : SubscriberDb :=
  dbInitEmpty.setProfile ⟨1, by decide⟩ { maxCallDuration := 128, valid := true }

theorem long_calls_not_reloaded :
    DbReach [47] longCalls ∧ ¬ReloadsSame [47] .absent {} longCalls := by
  have hopen : dbOpen {} [47] .absent = (dbInitEmpty, none) := rfl
  have hput : dbPutProfile dbInitEmpty 1 { maxCallDuration := 128, valid := true } =
      .ok longCalls := rfl
  have hreach : DbReach [47] longCalls := .putProfile (.opened hopen) hput
  refine ⟨hreach, fun h => ?_⟩
  have := ((db_reload_iff hreach .absent {}).1 h).profiles ⟨1, by decide⟩ (by decide)
  exact absurd this (by decide)

end TetraBs
