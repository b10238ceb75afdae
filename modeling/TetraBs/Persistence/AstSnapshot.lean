import TetraBs.Core.BitBuffer
import TetraBs.Lib.JsonText

/-! The attachment table and its snapshot file, `sw/persistence/src/ast_snapshot.c`. Running
out of memory and failing writes are one outcome of the write, `wrote = false`, which leaves the
file as it was. -/
namespace TetraBs
open TetraBs.Bits

def tetraAstSlotCount : Nat := 64
def tetraAstGroupListMax : Nat := 8
def tetraDbPathMax : Nat := 256

structure AstSlot where
  issi : BitVec 32 := 0
  lastSeenMultiframe : BitVec 32 := 0
  shadowIdx : Byte := 0
  state : Byte := 0
  groupCount : Byte := 0
  groupList : Fin tetraAstGroupListMax → BitVec 32 := fun _ => 0
  valid : Bool := false

structure Ast where
  slots : Fin tetraAstSlotCount → AstSlot := fun _ => {}

def Ast.set (ast : Ast) (i : Fin tetraAstSlotCount) (s : AstSlot) : Ast :=
  { slots := fun j => if j = i then s else ast.slots j }

/-- The list entries in use; a count past the list is cut. -/
def AstSlot.groups (s : AstSlot) : List (BitVec 32) :=
  (List.ofFn s.groupList).take s.groupCount.toNat

def natJson (n : Nat) : Json := .integer n

def slotToJson (idx : Fin tetraAstSlotCount) (s : AstSlot) : Json :=
  .object [("idx", natJson idx.val),
    ("issi", natJson s.issi.toNat),
    ("last_seen_multiframe", natJson s.lastSeenMultiframe.toNat),
    ("shadow_idx", natJson s.shadowIdx.toNat),
    ("state", natJson s.state.toNat),
    ("group_count", natJson s.groupCount.toNat),
    ("valid", .bool s.valid),
    ("group_list", .array (s.groups.map fun g => natJson g.toNat))]

def astDumpJson (ast : Ast) : Json :=
  .object [("version", natJson 1),
    ("clean_shutdown_flag", .bool true),
    ("slots", .array (((List.finRange tetraAstSlotCount).filter fun i => (ast.slots i).valid).map
      fun i => slotToJson i (ast.slots i)))]

def astSnapshot (ast : Ast) (path : List Byte) (wrote : Bool) (file : File) :
    File × Option Errno :=
  if tetraDbPathMax ≤ path.length then (file, some .EINVAL)
  else if wrote then (.json (astDumpJson ast), none)
  else (file, some Errno.EIO)

/-- The group numbers of an array, each an integer of 24 bits. -/
def astLoadGroups : List Json → Option (List (BitVec 32))
  | [] => some []
  | jg :: jgs => do
    let gv ← jg.int?
    if gv < 0 ∨ 0xFFFFFF < gv then none
    else return BitVec.ofInt 32 gv :: (← astLoadGroups jgs)

def astLoadSlot (o : Json) : Except Errno (Fin tetraAstSlotCount × AstSlot) :=
  let fields : Option (Fin tetraAstSlotCount × AstSlot) := do
    let idx ← (← o.get "idx").int?
    let issi ← (← o.get "issi").int?
    let ls ← (← o.get "last_seen_multiframe").int?
    let shad ← (← o.get "shadow_idx").int?
    let state ← (← o.get "state").int?
    let gc ← (← o.get "group_count").int?
    let gl ← (← o.get "group_list").array?
    let valid ← (← o.get "valid").bool?
    if h : 0 ≤ idx ∧ idx < tetraAstSlotCount then
      if gc < 0 ∨ tetraAstGroupListMax < gc then none
      else if (gl.length : Int) ≠ gc then none
      else
        let groups ← astLoadGroups gl
        return (⟨idx.toNat, by omega⟩,
          { issi := BitVec.ofInt 32 issi
            lastSeenMultiframe := BitVec.ofInt 32 ls
            shadowIdx := BitVec.ofInt 8 shad
            state := BitVec.ofInt 8 state &&& 0x0F
            groupCount := BitVec.ofInt 8 gc
            groupList := fun g => groups.getD g 0
            valid := valid })
    else none
  match fields with
  | some slot => .ok slot
  | none => .error .EINVAL

def astLoadSlots : List Json → Ast → Except Errno Ast
  | [], ast => .ok ast
  | item :: items, ast =>
    match astLoadSlot item with
    | .ok (idx, tmp) => astLoadSlots items (ast.set idx tmp)
    | .error _ => .error Errno.EIO

/-- What a reload hands back: the table, `*out_loaded` and the errno. -/
structure AstReload where
  ast : Ast := {}
  loaded : Bool := false
  rc : Option Errno := none

def astReload : File → AstReload
  | .absent => {}
  | .malformed => { rc := some Errno.EIO }
  | .json root =>
    if root.isObject = false then { rc := some Errno.EIO }
    else if (root.get "clean_shutdown_flag").bind Json.bool? ≠ some true then {}
    else if (root.get "version").bind Json.int? ≠ some 1 then { rc := some Errno.EIO }
    else
      match (root.get "slots").bind Json.array? with
      | none => { rc := some Errno.EIO }
      | some slots =>
        match astLoadSlots slots {} with
        | .ok ast => { ast := ast, loaded := true }
        | .error e => { rc := some e }

end TetraBs
