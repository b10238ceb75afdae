import TetraBs.Core.BitBuffer
import TetraBs.Persistence.AstSnapshot
import Mathlib.Tactic.IntervalCases

/-! The subscriber database of `sw/persistence/src/db.c` in memory. -/
namespace TetraBs
open TetraBs.Bits

def tetraDbProfileCount : Nat := 6
def tetraDbEntityCount : Nat := 256

structure Profile where
  maxCallDuration : Byte := 0
  hangtime : Byte := 0
  priority : Byte := 0
  gilaClass : Byte := 0
  gilaLifetime : Byte := 0
  reserved3 : Byte := 0
  permitVoice : Bool := false
  permitData : Bool := false
  permitReg : Bool := false
  valid : Bool := false
deriving DecidableEq, Repr

structure Entity where
  entityId : BitVec 32 := 0
  entityType : Byte := 0
  profileId : Byte := 0
  reserved34 : BitVec 64 := 0
  valid : Bool := false
deriving DecidableEq, Repr

structure SubscriberDb where
  profiles : Fin tetraDbProfileCount → Profile := fun _ => {}
  entities : Fin tetraDbEntityCount → Entity := fun _ => {}
  opened : Bool := false

def dbGetProfile (db : SubscriberDb) (id : Nat) : Except Errno Profile :=
  if db.opened = false then .error .EINVAL
  else if h : id < tetraDbProfileCount then .ok (db.profiles ⟨id, h⟩)
  else .error .EINVAL

def dbGetEntity (db : SubscriberDb) (idx : Nat) : Except Errno Entity :=
  if db.opened = false then .error .EINVAL
  else if h : idx < tetraDbEntityCount then .ok (db.entities ⟨idx, h⟩)
  else .error .EINVAL

def SubscriberDb.setEntity (db : SubscriberDb) (i : Fin tetraDbEntityCount) (e : Entity) :
    SubscriberDb :=
  { db with entities := fun j => if j = i then e else db.entities j }

def dbPutEntity (db : SubscriberDb) (idx : Nat) (e : Entity) : Except Errno SubscriberDb :=
  if db.opened = false then .error .EINVAL
  else if h : idx < tetraDbEntityCount then
    if tetraDbProfileCount ≤ e.profileId.toNat then .error .EINVAL
    else if 1 < e.entityType then .error .EINVAL
    else if e.entityId &&& ~~~0x00FFFFFF ≠ 0 then .error .EINVAL
    else .ok (db.setEntity ⟨idx, h⟩ e)
  else .error .EINVAL

def dbLookupEntity (db : SubscriberDb) (entityId : BitVec 32) :
    Except Errno (Fin tetraDbEntityCount) :=
  if db.opened = false then .error .EINVAL
  else
    match (List.finRange tetraDbEntityCount).find? fun i =>
        (db.entities i).valid && (db.entities i).entityId == entityId with
    | some i => .ok i
    | none => .error .ENOENT

/-- The database has a valid entity for an ISSI. -/
def Known (db : SubscriberDb) (issi : BitVec 32) : Prop := ∃ i, dbLookupEntity db issi = .ok i

instance (db : SubscriberDb) (issi : BitVec 32) : Decidable (Known db issi) :=
  match h : dbLookupEntity db issi with
  | .ok i => .isTrue ⟨i, h⟩
  | .error _ => .isFalse fun ⟨i, hi⟩ => by
    rw [h] at hi
    cases hi

end TetraBs

/-! The file of the subscriber database: packing of profiles, writing and loading, and what a
database looks like after it was saved and opened again. -/
namespace TetraBs
open TetraBs.Bits

def tetraDbProfile0Bits : BitVec 32 := 0x0000088F

def flagBit (b : Bool) : BitVec 32 := if b then 1 else 0

def profilePack (p : Profile) : BitVec 32 :=
  (p.maxCallDuration.setWidth 32 &&& 0xFF) <<< 24 |||
    (p.hangtime.setWidth 32 &&& 0xFF) <<< 16 |||
    (p.priority.setWidth 32 &&& 0x0F) <<< 12 |||
    (p.gilaClass.setWidth 32 &&& 0x07) <<< 9 |||
    (p.gilaLifetime.setWidth 32 &&& 0x03) <<< 7 |||
    (p.reserved3.setWidth 32 &&& 0x07) <<< 4 |||
    flagBit p.permitVoice <<< 3 ||| flagBit p.permitData <<< 2 |||
    flagBit p.permitReg <<< 1 ||| flagBit p.valid

def profileUnpack (bits : BitVec 32) : Profile where
  maxCallDuration := (bits >>> 24 &&& 0xFF).setWidth 8
  hangtime := (bits >>> 16 &&& 0xFF).setWidth 8
  priority := (bits >>> 12 &&& 0x0F).setWidth 8
  gilaClass := (bits >>> 9 &&& 0x07).setWidth 8
  gilaLifetime := (bits >>> 7 &&& 0x03).setWidth 8
  reserved3 := (bits >>> 4 &&& 0x07).setWidth 8
  permitVoice := bits >>> 3 &&& 1 ≠ 0
  permitData := bits >>> 2 &&& 1 ≠ 0
  permitReg := bits >>> 1 &&& 1 ≠ 0
  valid := bits &&& 1 ≠ 0

def SubscriberDb.setProfile (db : SubscriberDb) (i : Fin tetraDbProfileCount) (p : Profile) :
    SubscriberDb :=
  { db with profiles := fun j => if j = i then p else db.profiles j }

def dbInitEmpty : SubscriberDb :=
  ({ opened := true } : SubscriberDb).setProfile ⟨0, by decide⟩ (profileUnpack tetraDbProfile0Bits)

def dbPutProfile (db : SubscriberDb) (id : Nat) (p : Profile) : Except Errno SubscriberDb :=
  if db.opened = false then .error .EINVAL
  else if h : id < tetraDbProfileCount then
    if id = 0 then .error .EPERM else .ok (db.setProfile ⟨id, h⟩ p)
  else .error .EINVAL

def jsonGetUint (obj : Json) (key : String) (max : Nat) : Except Errno Nat :=
  match (obj.get key).bind Json.int? with
  | none => .error .EINVAL
  | some i => if i < 0 then .error .EINVAL else if max < i.toNat then .error .EINVAL else .ok i.toNat

def jsonGetBool (obj : Json) (key : String) : Except Errno Bool :=
  match (obj.get key).bind Json.bool? with
  | none => .error .EINVAL
  | some b => .ok b

def dbLoadProfile (db : SubscriberDb) (item : Json) : Except Errno SubscriberDb := do
  if item.isObject = false then throw .EINVAL
  let id ← jsonGetUint item "id" (tetraDbProfileCount - 1)
  let bits ← jsonGetUint item "bits" 0xFFFFFFFF
  if id = 0 then return db
  if h : id < tetraDbProfileCount then
    return db.setProfile ⟨id, h⟩ (profileUnpack (BitVec.ofNat 32 bits))
  else throw .EINVAL

def dbLoadEntity (db : SubscriberDb) (item : Json) : Except Errno SubscriberDb := do
  if item.isObject = false then throw .EINVAL
  let idx ← jsonGetUint item "idx" (tetraDbEntityCount - 1)
  let entityId ← jsonGetUint item "entity_id" 0xFFFFFF
  let entityType ← jsonGetUint item "entity_type" 1
  let profileId ← jsonGetUint item "profile_id" (tetraDbProfileCount - 1)
  let reserved34 ← jsonGetUint item "reserved" (2 ^ 34 - 1)
  let valid ← jsonGetBool item "valid"
  if h : idx < tetraDbEntityCount then
    return db.setEntity ⟨idx, h⟩
      { entityId := BitVec.ofNat 32 entityId
        entityType := BitVec.ofNat 8 entityType
        profileId := BitVec.ofNat 8 profileId
        reserved34 := BitVec.ofNat 64 reserved34
        valid := valid }
  else throw .EINVAL

def dbLoadJson (root : Json) : Except Errno SubscriberDb := do
  if root.isObject = false then throw .EINVAL
  let version ← jsonGetUint root "version" 1
  if version ≠ 1 then throw .EINVAL
  match (root.get "profiles").bind Json.array?, (root.get "entities").bind Json.array? with
  | some profiles, some entities =>
    entities.foldlM dbLoadEntity (← profiles.foldlM dbLoadProfile dbInitEmpty)
  | _, _ => throw .EINVAL

/-- `bits` passes through a signed 32-bit `int`. -/
def profileToJson (db : SubscriberDb) (i : Fin tetraDbProfileCount) : Json :=
  let bits := if i.val = 0 then tetraDbProfile0Bits else profilePack (db.profiles i)
  .object [("id", natJson i.val), ("bits", .integer bits.toInt)]

/-- The wide fields pass through a signed 64-bit integer. -/
def entityToJson (i : Fin tetraDbEntityCount) (e : Entity) : Json :=
  .object [("idx", natJson i.val),
    ("entity_id", .integer (e.entityId.setWidth 64).toInt),
    ("entity_type", natJson e.entityType.toNat),
    ("profile_id", natJson e.profileId.toNat),
    ("reserved", .integer e.reserved34.toInt),
    ("valid", .bool e.valid)]

def Entity.isEmpty (e : Entity) : Bool :=
  !e.valid && e.entityId == 0 && e.reserved34 == 0 && e.profileId == 0 && e.entityType == 0

def dbDumpJson (db : SubscriberDb) : Json :=
  .object [("version", natJson 1),
    ("profiles", .array ((List.finRange tetraDbProfileCount).map (profileToJson db))),
    ("entities", .array (((List.finRange tetraDbEntityCount).filter fun i =>
      !(db.entities i).isEmpty).map fun i => entityToJson i (db.entities i)))]

def dbAtomicSave (db : SubscriberDb) (path : List Byte) (wrote : Bool) (file : File) :
    File × Option Errno :=
  if db.opened = false ∨ path = [] then (file, some .EINVAL)
  else if wrote then (.json (dbDumpJson db), none)
  else (file, some Errno.EIO)

/-- `db` is the caller's struct, left alone when the path is refused. -/
def dbOpen (db : SubscriberDb) (path : List Byte) (file : File) : SubscriberDb × Option Errno :=
  if path = [] ∨ tetraDbPathMax ≤ path.length then (db, some .EINVAL)
  else
    match file with
    | .absent => (dbInitEmpty, none)
    | .malformed => ({}, some Errno.EIO)
    | .json root =>
      match dbLoadJson root with
      | .error e => ({}, some e)
      | .ok db => (db.setProfile ⟨0, by decide⟩ (profileUnpack tetraDbProfile0Bits), none)

/-! Packing. -/

theorem flagBit_getLsbD (b : Bool) (j : Nat) : (flagBit b).getLsbD j = (decide (j = 0) && b) := by
  cases b
  · simp [flagBit]
  · simp [flagBit, BitVec.getLsbD_one]

theorem and_one_ne_zero (v : BitVec 32) : (decide (v &&& 1 ≠ 0)) = v.getLsbD 0 := by
  have h : v &&& 1 = if v.getLsbD 0 then 1 else 0 := by
    ext j hj
    by_cases h0 : j = 0
    · subst h0
      cases hv : v.getLsbD 0 <;> simp_all
    · cases hv : v.getLsbD 0 <;> simp_all
  rw [h]
  cases v.getLsbD 0 <;> simp

theorem profilePack_getLsbD (p : Profile) (j : Nat) (hj : j < 32) :
    (profilePack p).getLsbD j =
      if 24 ≤ j then p.maxCallDuration.getLsbD (j - 24)
      else if 16 ≤ j then p.hangtime.getLsbD (j - 16)
      else if 12 ≤ j then p.priority.getLsbD (j - 12)
      else if 9 ≤ j then p.gilaClass.getLsbD (j - 9)
      else if 7 ≤ j then p.gilaLifetime.getLsbD (j - 7)
      else if 4 ≤ j then p.reserved3.getLsbD (j - 4)
      else if j = 3 then p.permitVoice
      else if j = 2 then p.permitData
      else if j = 1 then p.permitReg
      else p.valid := by
  simp only [profilePack, BitVec.getLsbD_or, BitVec.getLsbD_shiftLeft, BitVec.getLsbD_and,
    BitVec.getLsbD_setWidth, flagBit_getLsbD]
  interval_cases j <;> simp [BitVec.getLsbD_of_ge]

theorem profilePack_unpack (bits : BitVec 32) : profilePack (profileUnpack bits) = bits := by
  apply BitVec.eq_of_getLsbD_eq
  intro j hj
  rw [profilePack_getLsbD _ _ hj]
  simp only [profileUnpack, and_one_ne_zero, BitVec.getLsbD_setWidth, BitVec.getLsbD_and,
    BitVec.getLsbD_ushiftRight]
  interval_cases j <;> simp

end TetraBs
