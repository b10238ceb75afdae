import TetraBs.Lib.Run
import TetraBs.Persistence.DbReload

/-! The subscriber database over whole histories: opened from any document, changed, saved and
opened again. -/
namespace TetraBs
open TetraBs.Bits TetraBs.Run

/-- What `db_load_json` checks of an entity; `dbPutEntity` does not look at the reserved field. -/
structure Entity.Loadable (e : Entity) : Prop extends e.InRange where
  reserved_lt : e.reserved34.toNat < 2 ^ 34

theorem jsonGetUint_ok {obj : Json} {key : String} {max n : Nat}
    (h : jsonGetUint obj key max = .ok n) : n ≤ max := by
  unfold jsonGetUint at h
  split at h
  · cases h
  · split at h
    · cases h
    · split at h
      · cases h
      · cases h
        omega

/-- The result of a computation that goes on after a check or a reader. -/
theorem except_bind_ok {ε α β : Type} {x : Except ε α} {f : α → Except ε β} {b : β}
    (h : x.bind f = .ok b) : ∃ a, x = .ok a ∧ f a = .ok b := by
  cases x with
  | error e => cases h
  | ok a => exact ⟨a, rfl, h⟩

theorem dbLoadProfile_ok {db db' : SubscriberDb} {item : Json}
    (h : dbLoadProfile db item = .ok db') :
    db' = db ∨ ∃ i p, i.val ≠ 0 ∧ db' = db.setProfile i p := by
  unfold dbLoadProfile at h
  split at h
  · cases h
  · obtain ⟨id, hid, h⟩ := except_bind_ok h
    obtain ⟨bits, hbits, h⟩ := except_bind_ok h
    split at h
    · cases h
      exact .inl rfl
    · rename_i h0
      split at h
      · rename_i hlt
        cases h
        exact .inr ⟨⟨id, hlt⟩, _, h0, rfl⟩
      · cases h

theorem dbLoadEntity_ok {db db' : SubscriberDb} {item : Json}
    (h : dbLoadEntity db item = .ok db') : ∃ i e, e.Loadable ∧ db' = db.setEntity i e := by
  unfold dbLoadEntity at h
  split at h
  · cases h
  · obtain ⟨idx, hidx, h⟩ := except_bind_ok h
    obtain ⟨entityId, hid, h⟩ := except_bind_ok h
    obtain ⟨entityType, htype, h⟩ := except_bind_ok h
    obtain ⟨profileId, hprof, h⟩ := except_bind_ok h
    obtain ⟨reserved34, hres, h⟩ := except_bind_ok h
    obtain ⟨valid, hvalid, h⟩ := except_bind_ok h
    have hid' := jsonGetUint_ok hid
    have htype' := jsonGetUint_ok htype
    have hprof' := jsonGetUint_ok hprof
    have hres' := jsonGetUint_ok hres
    split at h
    · cases h
      refine ⟨_, _, ⟨⟨?_, ?_, ?_⟩, ?_⟩, rfl⟩
      · simp only [BitVec.toNat_ofNat]
        omega
      · simp only [BitVec.toNat_ofNat]
        omega
      · simp only [BitVec.toNat_ofNat, tetraDbProfileCount] at *
        omega
      · simp only [BitVec.toNat_ofNat]
        omega
    · cases h

/-- What every step of a fold keeps, the fold keeps. -/
theorem foldlM_ok {α β ε : Type} {f : β → α → Except ε β} (P : β → Prop)
    (hf : ∀ b a b', P b → f b a = .ok b' → P b') {as : List α} {b b' : β} (hb : P b)
    (h : as.foldlM f b = .ok b') : P b' := by
  induction as generalizing b with
  | nil =>
    cases h
    exact hb
  | cons a as ih =>
    rw [List.foldlM_cons] at h
    obtain ⟨c, hc, hrest⟩ := except_bind_ok h
    exact ih (hf b a c hb hc) hrest

/-- An open database with the fixed profile 0 and entities that a file may hold, the reserved field
aside. -/
structure DbKept (db : SubscriberDb) : Prop where
  opened : db.opened = true
  profile0 : ∀ i, i.val = 0 → db.profiles i = profileUnpack tetraDbProfile0Bits
  entities : ∀ i, (db.entities i).InRange

structure DbLoaded (db : SubscriberDb) : Prop where
  kept : DbKept db
  reserved : ∀ i, (db.entities i).reserved34.toNat < 2 ^ 34

theorem dbLoaded_empty : DbLoaded dbInitEmpty where
  kept :=
    { opened := rfl
      profile0 := by
        intro i hi
        obtain rfl : i = ⟨0, by decide⟩ := Fin.ext hi
        rfl
      entities := fun i => ⟨Nat.zero_le _, Nat.zero_le _, (by decide : 0 < tetraDbProfileCount)⟩ }
  reserved := fun i => (by decide : 0 < 2 ^ 34)

theorem DbKept.setProfile {db : SubscriberDb} (h : DbKept db) {i : Fin tetraDbProfileCount}
    (hi : i.val ≠ 0) (p : Profile) : DbKept (db.setProfile i p) where
  opened := h.opened
  profile0 := by
    intro j hj
    have hne : j ≠ i := by
      rintro rfl
      exact hi hj
    rw [← h.profile0 j hj]
    exact if_neg hne
  entities := h.entities

theorem DbKept.setEntity {db : SubscriberDb} (h : DbKept db) (i : Fin tetraDbEntityCount)
    {e : Entity} (he : e.InRange) : DbKept (db.setEntity i e) where
  opened := h.opened
  profile0 := h.profile0
  entities := by
    intro j
    by_cases hj : j = i
    · simpa [SubscriberDb.setEntity, hj] using he
    · simpa [SubscriberDb.setEntity, hj] using h.entities j

theorem DbLoaded.loadProfile {db db' : SubscriberDb} {item : Json} (h : DbLoaded db)
    (hload : dbLoadProfile db item = .ok db') : DbLoaded db' := by
  obtain rfl | ⟨i, p, hi, rfl⟩ := dbLoadProfile_ok hload
  · exact h
  · exact ⟨h.kept.setProfile hi p, h.reserved⟩

theorem DbLoaded.loadEntity {db db' : SubscriberDb} {item : Json} (h : DbLoaded db)
    (hload : dbLoadEntity db item = .ok db') : DbLoaded db' := by
  obtain ⟨i, e, he, rfl⟩ := dbLoadEntity_ok hload
  refine ⟨h.kept.setEntity i he.toInRange, fun j => ?_⟩
  by_cases hj : j = i
  · simpa [SubscriberDb.setEntity, hj] using he.reserved_lt
  · simpa [SubscriberDb.setEntity, hj] using h.reserved j

theorem dbLoadJson_loaded {root : Json} {db : SubscriberDb} (h : dbLoadJson root = .ok db) :
    DbLoaded db := by
  unfold dbLoadJson at h
  by_cases hobj : root.isObject = false
  · rw [if_pos hobj] at h
    cases h
  · rw [if_neg hobj] at h
    obtain ⟨version, hversion, h⟩ := except_bind_ok h
    by_cases hone : version ≠ 1
    · simp only [if_pos hone] at h
      cases h
    · simp only [if_neg hone] at h
      split at h
      · obtain ⟨acc, hacc, h⟩ := except_bind_ok h
        have hloaded := foldlM_ok DbLoaded (fun b a b' hb => hb.loadProfile) dbLoaded_empty hacc
        exact foldlM_ok DbLoaded (fun b a b' hb => hb.loadEntity) hloaded h
      · cases h

/-- A database that was opened is loaded, whatever the file. -/
theorem dbOpen_loaded {db db' : SubscriberDb} {path : List Byte} {file : File}
    (h : dbOpen db path file = (db', none)) : DbLoaded db' := by
  unfold dbOpen at h
  split at h
  · cases h
  · cases file with
    | absent =>
      cases h
      exact dbLoaded_empty
    | malformed => cases h
    | json root =>
      simp only at h
      split at h
      · cases h
      · rename_i db'' hload
        cases h
        have hloaded := dbLoadJson_loaded hload
        refine ⟨⟨hloaded.kept.opened, ?_, hloaded.kept.entities⟩, hloaded.reserved⟩
        intro i hi
        obtain rfl : i = ⟨0, by decide⟩ := Fin.ext hi
        rfl

/-! Histories. -/

/-- An operation; a save writes or fails, an open finds any file. -/
inductive DbOp where
  | putProfile (id : Nat) (p : Profile)
  | putEntity (idx : Nat) (e : Entity)
  | save (wrote : Bool) (file : File)
  | open (path : List Byte) (file : File)

/-- The caller's struct. -/
structure DbHandle where
  db : SubscriberDb
  path : List Byte

namespace DbOp

/-- The open refuses before it touches the struct. -/
def RefusesPath (path : List Byte) : Prop := path = [] ∨ tetraDbPathMax ≤ path.length

instance (path : List Byte) : Decidable (RefusesPath path) :=
  inferInstanceAs (Decidable (_ ∨ _))

def run (s : DbHandle) : DbOp → DbHandle × Option Errno
  | .putProfile id p =>
    match dbPutProfile s.db id p with
    | .ok db => ({ s with db := db }, none)
    | .error e => (s, some e)
  | .putEntity idx e =>
    match dbPutEntity s.db idx e with
    | .ok db => ({ s with db := db }, none)
    | .error e => (s, some e)
  | .save wrote file => (s, (dbAtomicSave s.db s.path wrote file).2)
  | .open path file =>
    let r := dbOpen s.db path file
    ({ db := r.1, path := if RefusesPath path then s.path else path }, r.2)

def next (s : DbHandle) (op : DbOp) : DbHandle := (op.run s).1

/-- The operation returns success. -/
def Succeeds (s : DbHandle) (op : DbOp) : Prop := (op.run s).2 = none

end DbOp

/-- What holds of the struct throughout: it is empty and closed, or open with what `DbKept` says, and
a reserved field past 34 bits is one that some operation of `ops` put there. -/
def DbHolds (ops : List DbOp) (db : SubscriberDb) : Prop :=
  db = {} ∨ DbKept db ∧ ∀ i, (db.entities i).reserved34.toNat < 2 ^ 34 ∨
    ∃ idx, DbOp.putEntity idx (db.entities i) ∈ ops

theorem DbLoaded.holds {db : SubscriberDb} (h : DbLoaded db) (ops : List DbOp) : DbHolds ops db :=
  .inr ⟨h.kept, fun i => .inl (h.reserved i)⟩

theorem DbHolds.putProfile {ops : List DbOp} {db db' : SubscriberDb} {id : Nat} {p : Profile}
    (h : DbHolds ops db) (hput : dbPutProfile db id p = .ok db') : DbHolds ops db' := by
  obtain rfl | ⟨hkept, hres⟩ := h
  · cases hput
  · obtain ⟨i, hi, rfl⟩ := dbPutProfile_ok hput
    exact .inr ⟨hkept.setProfile hi p, hres⟩

theorem DbHolds.putEntity {ops : List DbOp} {db db' : SubscriberDb} {idx : Nat} {e : Entity}
    (h : DbHolds ops db) (hop : DbOp.putEntity idx e ∈ ops) (hput : dbPutEntity db idx e = .ok db') :
    DbHolds ops db' := by
  obtain rfl | ⟨hkept, hres⟩ := h
  · cases hput
  · obtain ⟨hrange, i, rfl⟩ := dbPutEntity_ok hput
    refine .inr ⟨hkept.setEntity i hrange, fun j => ?_⟩
    by_cases hj : j = i
    · refine .inr ⟨idx, ?_⟩
      simpa [SubscriberDb.setEntity, hj] using hop
    · simpa [SubscriberDb.setEntity, hj] using hres j

/-- An open gives a loaded database, or refuses: before it touched the struct, or leaving it
empty. -/
theorem dbOpen_cases (db : SubscriberDb) (path : List Byte) (file : File) :
    ((dbOpen db path file).2 = none ∧ DbLoaded (dbOpen db path file).1) ∨
      ((dbOpen db path file).2 ≠ none ∧
        (dbOpen db path file).1 = if DbOp.RefusesPath path then db else {}) := by
  cases hrc : (dbOpen db path file).2 with
  | none => exact .inl ⟨rfl, dbOpen_loaded (Prod.ext rfl hrc)⟩
  | some e =>
    refine .inr ⟨nofun, ?_⟩
    unfold dbOpen at hrc ⊢
    by_cases hpath : path = [] ∨ tetraDbPathMax ≤ path.length
    · rw [if_pos (show DbOp.RefusesPath path from hpath), if_pos hpath]
    · rw [if_neg (show ¬ DbOp.RefusesPath path from hpath), if_neg hpath]
      rw [if_neg hpath] at hrc
      cases file with
      | absent => cases hrc
      | malformed => rfl
      | json root =>
        simp only at hrc ⊢
        cases hload : dbLoadJson root with
        | error e => rfl
        | ok db' =>
          rw [hload] at hrc
          cases hrc

theorem DbHolds.next {ops : List DbOp} {s : DbHandle} (h : DbHolds ops s.db) {op : DbOp}
    (hop : op ∈ ops) : DbHolds ops (op.next s).db := by
  cases op with
  | putProfile id p =>
    cases hput : dbPutProfile s.db id p with
    | ok db => simpa [DbOp.next, DbOp.run, hput] using h.putProfile hput
    | error e => simpa [DbOp.next, DbOp.run, hput] using h
  | putEntity idx e =>
    cases hput : dbPutEntity s.db idx e with
    | ok db => simpa [DbOp.next, DbOp.run, hput] using h.putEntity hop hput
    | error e => simpa [DbOp.next, DbOp.run, hput] using h
  | save wrote file => exact h
  | «open» path file =>
    have hnext : ((DbOp.open path file).next s).db = (dbOpen s.db path file).1 := rfl
    rw [hnext]
    obtain ⟨-, hloaded⟩ | ⟨-, hrefused⟩ := dbOpen_cases s.db path file
    · exact hloaded.holds ops
    · rw [hrefused]
      split
      · exact h
      · exact .inl rfl

/-- After a success the database is open. -/
theorem opened_next {s : DbHandle} {op : DbOp} (hopen : s.db.opened = true) (hok : op.Succeeds s) :
    (op.next s).db.opened = true := by
  cases op with
  | putProfile id p =>
    cases hput : dbPutProfile s.db id p with
    | ok db =>
      obtain ⟨i, -, rfl⟩ := dbPutProfile_ok hput
      simpa [DbOp.next, DbOp.run, hput, SubscriberDb.setProfile] using hopen
    | error e => simpa [DbOp.next, DbOp.run, hput] using hopen
  | putEntity idx e =>
    cases hput : dbPutEntity s.db idx e with
    | ok db =>
      obtain ⟨-, i, rfl⟩ := dbPutEntity_ok hput
      simpa [DbOp.next, DbOp.run, hput, SubscriberDb.setEntity] using hopen
    | error e => simpa [DbOp.next, DbOp.run, hput] using hopen
  | save wrote file => exact hopen
  | «open» path file =>
    obtain ⟨-, hloaded⟩ | ⟨hrc, -⟩ := dbOpen_cases s.db path file
    · exact hloaded.kept.opened
    · exact absurd hok hrc

/-- A refused operation changes nothing, unless it is an open that got as far as its file; that one
leaves the struct empty. -/
theorem refused_next {s : DbHandle} {op : DbOp} (hno : ¬ op.Succeeds s) :
    (op.next s).db = s.db ∨
      (∃ path file, op = .open path file ∧ ¬ DbOp.RefusesPath path) ∧ (op.next s).db = {} := by
  cases op with
  | putProfile id p =>
    cases hput : dbPutProfile s.db id p with
    | ok db => exact absurd (by simp [DbOp.Succeeds, DbOp.run, hput]) hno
    | error e => exact .inl (by simp [DbOp.next, DbOp.run, hput])
  | putEntity idx e =>
    cases hput : dbPutEntity s.db idx e with
    | ok db => exact absurd (by simp [DbOp.Succeeds, DbOp.run, hput]) hno
    | error e => exact .inl (by simp [DbOp.next, DbOp.run, hput])
  | save wrote file => exact .inl rfl
  | «open» path file =>
    have hnext : ((DbOp.open path file).next s).db = (dbOpen s.db path file).1 := rfl
    obtain ⟨hrc, -⟩ | ⟨-, hrefused⟩ := dbOpen_cases s.db path file
    · exact absurd hrc hno
    · rw [hnext, hrefused]
      by_cases hpath : DbOp.RefusesPath path
      · exact .inl (if_pos hpath)
      · exact .inr ⟨⟨path, file, rfl, hpath⟩, if_neg hpath⟩

theorem run_holds {ops : List DbOp} {s : DbHandle} (h : DbHolds ops s.db) :
    ∀ run, run ⊆ ops → DbHolds ops (exec DbOp.next s run).db := by
  intro run hrun
  induction run generalizing s with
  | nil => exact h
  | cons op run ih =>
    obtain ⟨hop, hrest⟩ := List.cons_subset.1 hrun
    exact ih (h.next hop) hrest

/-- A document without profiles and entities. -/
def emptyDocument : Json :=
  .object [("version", .integer 1), ("profiles", .array []), ("entities", .array [])]

theorem emptyDocument_opens : dbOpen {} [47] (.json emptyDocument) =
    (dbInitEmpty.setProfile ⟨0, by decide⟩ (profileUnpack tetraDbProfile0Bits), none) := rfl

end TetraBs
