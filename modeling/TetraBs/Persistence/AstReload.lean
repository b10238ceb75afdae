import TetraBs.Persistence.AstSnapshot

/-! The reload of the attachment table as it works on the live table: what it restores of a
snapshot, and that it fills the table from the whole document or not at all. -/
namespace TetraBs
open TetraBs.Bits

def Ast.memset (_ : Ast) : Ast := {}

/-- The loop over the records; it writes into the live table and clears it at a bad record. -/
def astFillSlots : List Json → Ast → Ast × Option Errno
  | [], ast => (ast, none)
  | item :: items, ast =>
    match astLoadSlot item with
    | .ok (idx, tmp) => astFillSlots items (ast.set idx tmp)
    | .error _ => (ast.memset, some Errno.EIO)

def astReloadInto (live : Ast) : File → AstReload
  | .absent => { ast := live.memset }
  | .malformed => { ast := live.memset, rc := some Errno.EIO }
  | .json root =>
    if root.isObject = false then { ast := live.memset, rc := some Errno.EIO }
    else if (root.get "clean_shutdown_flag").bind Json.bool? ≠ some true then
      { ast := live.memset }
    else if (root.get "version").bind Json.int? ≠ some 1 then
      { ast := live.memset, rc := some Errno.EIO }
    else
      match (root.get "slots").bind Json.array? with
      | none => { ast := live.memset, rc := some Errno.EIO }
      | some slots =>
        let filled := astFillSlots slots live.memset
        { ast := filled.1, loaded := filled.2.isNone, rc := filled.2 }

theorem astFillSlots_eq (items : List Json) (ast : Ast) : astFillSlots items ast =
    match astLoadSlots items ast with
    | .ok ast' => (ast', none)
    | .error e => ({}, some e) := by
  induction items generalizing ast with
  | nil => rfl
  | cons item items ih =>
    rw [astFillSlots, astLoadSlots]
    cases astLoadSlot item with
    | error e => rfl
    | ok r => exact ih _

/-- What was in the live table does not matter. -/
theorem astReloadInto_eq (live : Ast) (file : File) : astReloadInto live file = astReload file := by
  cases file with
  | absent => rfl
  | malformed => rfl
  | json root =>
    rw [astReloadInto, astReload]
    split
    · rfl
    · split
      · rfl
      · split
        · rfl
        · cases (root.get "slots").bind Json.array? with
          | none => rfl
          | some slots =>
            simp only [astFillSlots_eq, Ast.memset]
            cases astLoadSlots slots {} <;> rfl

/-! What a document says. -/

/-- The last record of an index; an index without one is empty. -/
def lastRecord (rs : List (Fin tetraAstSlotCount × AstSlot)) (i : Fin tetraAstSlotCount) : AstSlot :=
  ((rs.reverse.find? fun r => r.1 = i).map (·.2)).getD {}

/-- The table that the records of the document make, none of them bad. -/
def Populates (root : Json) (ast : Ast) : Prop :=
  ∃ items rs, (root.get "slots").bind Json.array? = some items ∧
    items.map astLoadSlot = rs.map .ok ∧ ∀ i, ast.slots i = lastRecord rs i

theorem astLoadSlots_records {items : List Json} {ast ast' : Ast}
    (h : astLoadSlots items ast = .ok ast') :
    ∃ rs : List (Fin tetraAstSlotCount × AstSlot), items.map astLoadSlot = rs.map .ok ∧
      ∀ i, ast'.slots i = ((rs.reverse.find? fun r => r.1 = i).map (·.2)).getD (ast.slots i) := by
  induction items generalizing ast with
  | nil =>
    cases h
    exact ⟨[], rfl, fun i => rfl⟩
  | cons item items ih =>
    rw [astLoadSlots] at h
    cases hitem : astLoadSlot item with
    | error e =>
      rw [hitem] at h
      cases h
    | ok r =>
      rw [hitem] at h
      obtain ⟨rs, hrs, hslots⟩ := ih h
      refine ⟨r :: rs, by simp [hitem, hrs], fun i => ?_⟩
      rw [hslots, List.reverse_cons, List.find?_append]
      cases rs.reverse.find? fun r => decide (r.1 = i) with
      | some q => rfl
      | none =>
        by_cases hi : r.1 = i
        · simp [Ast.set, hi]
        · simp [Ast.set, hi, Ne.symm hi]

/-- The outcome of a reload: the whole document, or an empty table. -/
def AstReload.Whole (r : AstReload) (file : File) : Prop :=
  (r.loaded = true ∧ r.rc = none ∧ ∃ root, file = .json root ∧ Populates root r.ast) ∨
    (r.loaded = false ∧ r.ast = {})

theorem astReload_whole (file : File) : (astReload file).Whole file := by
  cases file with
  | absent => exact .inr ⟨rfl, rfl⟩
  | malformed => exact .inr ⟨rfl, rfl⟩
  | json root =>
    rw [astReload]
    split
    · exact .inr ⟨rfl, rfl⟩
    · split
      · exact .inr ⟨rfl, rfl⟩
      · split
        · exact .inr ⟨rfl, rfl⟩
        · cases hslots : (root.get "slots").bind Json.array? with
          | none => exact .inr ⟨rfl, rfl⟩
          | some items =>
            simp only
            cases hload : astLoadSlots items {} with
            | error e => exact .inr ⟨rfl, rfl⟩
            | ok ast =>
              obtain ⟨rs, hrs, hfill⟩ := astLoadSlots_records hload
              exact .inl ⟨rfl, rfl, root, rfl, items, rs, hslots, hrs, hfill⟩

/-! What a snapshot keeps. -/

namespace AstSlot

/-- The ranges of the packed record: 24 bits of number, last multiframe and groups, 4 bits of state
and up to eight groups. -/
structure InFormat (s : AstSlot) : Prop where
  issi : s.issi.toNat < 2 ^ 24
  lastSeenMultiframe : s.lastSeenMultiframe.toNat < 2 ^ 24
  state : s.state.toNat < 16
  groupCount : s.groupCount.toNat ≤ tetraAstGroupListMax
  groupList : ∀ g, (s.groupList g).toNat < 2 ^ 24

/-- The slot with what lies past the counted groups cleared; these are not part of the list. -/
def inUse (s : AstSlot) : AstSlot :=
  { s with groupList := fun g => if g.val < s.groupCount.toNat then s.groupList g else 0 }

/-- Two slots with the same fields and the same list of groups. -/
structure Same (s t : AstSlot) : Prop where
  issi : s.issi = t.issi
  lastSeenMultiframe : s.lastSeenMultiframe = t.lastSeenMultiframe
  shadowIdx : s.shadowIdx = t.shadowIdx
  state : s.state = t.state
  groupCount : s.groupCount = t.groupCount
  groups : s.groups = t.groups
  valid : s.valid = t.valid

theorem groups_inUse (s : AstSlot) : s.inUse.groups = s.groups := by
  refine List.ext_getElem (by simp [groups, inUse]) fun k hk _ => ?_
  have hlt : k < s.groupCount.toNat := by
    rw [groups, List.length_take] at hk
    exact (Nat.lt_min.1 hk).1
  simp [groups, inUse, hlt]

theorem same_inUse (s : AstSlot) : s.Same s.inUse :=
  ⟨rfl, rfl, rfl, rfl, rfl, (groups_inUse s).symm, rfl⟩

theorem InFormat.groups_lt {s : AstSlot} (h : s.InFormat) : ∀ g ∈ s.groups, g.toNat < 2 ^ 24 := by
  intro g hg
  obtain ⟨k, rfl⟩ := List.mem_ofFn.1 (List.mem_of_mem_take hg)
  exact h.groupList k

end AstSlot

theorem astLoadGroups_natJson {gs : List (BitVec 32)} (h : ∀ g ∈ gs, g.toNat < 2 ^ 24) :
    astLoadGroups (gs.map fun g => natJson g.toNat) = some gs := by
  induction gs with
  | nil => rfl
  | cons g gs ih =>
    have hg := h g List.mem_cons_self
    have hfits : ¬ ((g.toNat : Int) < 0 ∨ 0xFFFFFF < (g.toNat : Int)) := by omega
    have hrest := ih fun x hx => h x (List.mem_cons_of_mem g hx)
    have hint : (natJson g.toNat).int? = some (g.toNat : Int) := rfl
    rw [List.map_cons, astLoadGroups, hrest, hint, Option.bind_eq_bind, Option.bind_some,
      if_neg hfits, BitVec.ofInt_natCast, BitVec.ofNat_toNat, BitVec.setWidth_eq]
    rfl

/-- A written slot is read back. -/
theorem astLoadSlot_written (i : Fin tetraAstSlotCount) {s : AstSlot} (h : s.InFormat) :
    astLoadSlot (slotToJson i s) = .ok (i, s.inUse) := by
  have hidx : (0 : Int) ≤ (i.val : Int) ∧ (i.val : Int) < (tetraAstSlotCount : Int) := by
    have := i.isLt
    omega
  have hneg : ¬ ((s.groupCount.toNat : Int) < 0) := by omega
  have hle : ¬ tetraAstGroupListMax < s.groupCount.toNat := Nat.not_lt.2 h.groupCount
  have hlen : s.groups.length = s.groupCount.toNat := by
    have := h.groupCount
    simp [AstSlot.groups]
    omega
  have hgroups := astLoadGroups_natJson h.groups_lt
  have hstate : s.state &&& 15#8 = s.state := by
    refine BitVec.eq_of_toNat_eq ?_
    rw [BitVec.toNat_and]
    exact (Nat.and_two_pow_sub_one_eq_mod _ 4).trans (Nat.mod_eq_of_lt h.state)
  have hlist : (fun g : Fin tetraAstGroupListMax => s.groups.getD g 0) = s.inUse.groupList := by
    funext g
    by_cases hg : g.val < s.groupCount.toNat
    · simp [AstSlot.groups, AstSlot.inUse, hg]
    · simp [AstSlot.inUse, hg, List.getElem?_eq_none (by omega : s.groups.length ≤ g.val)]
  simp only [natJson] at hgroups
  have hslot : s.inUse = { s with groupList := fun g => s.groups.getD g 0 } := by
    rw [hlist]
    rfl
  rw [hslot]
  simp [astLoadSlot, slotToJson, natJson, hidx, hneg, hle, hlen, hgroups, hstate]

/-- The reload of a written table fills it with the valid slots. -/
theorem astReload_written {ast : Ast} (h : ∀ i, (ast.slots i).valid = true → (ast.slots i).InFormat) :
    astReload (.json (astDumpJson ast)) =
      { ast := ⟨fun i => if (ast.slots i).valid then (ast.slots i).inUse else {}⟩
        loaded := true } := by
  have hload : ∀ is : List (Fin tetraAstSlotCount), (∀ i ∈ is, (ast.slots i).valid = true) →
      ∀ live : Ast, astLoadSlots (is.map fun i => slotToJson i (ast.slots i)) live =
        .ok ⟨fun i => if i ∈ is then (ast.slots i).inUse else live.slots i⟩ := by
    intro is his
    induction is with
    | nil => exact fun live => rfl
    | cons i is ih =>
      intro live
      rw [List.map_cons, astLoadSlots, astLoadSlot_written i (h i (his i List.mem_cons_self))]
      simp only
      rw [ih fun j hj => his j (List.mem_cons_of_mem i hj)]
      congr 2
      funext j
      by_cases hj : j = i
      · subst hj
        simp [Ast.set]
      · simp [Ast.set, hj]
  have hvalid := hload ((List.finRange tetraAstSlotCount).filter fun i => (ast.slots i).valid)
    (by simp) {}
  have hobj : ¬ (astDumpJson ast).isObject = false := by simp [astDumpJson]
  have hclean : ¬ ((astDumpJson ast).get "clean_shutdown_flag").bind Json.bool? ≠ some true :=
    fun h => h rfl
  have hversion : ¬ ((astDumpJson ast).get "version").bind Json.int? ≠ some 1 := fun h => h rfl
  have harray : ((astDumpJson ast).get "slots").bind Json.array? =
      some (((List.finRange tetraAstSlotCount).filter fun i => (ast.slots i).valid).map fun i =>
        slotToJson i (ast.slots i)) := rfl
  rw [astReload, if_neg hobj, if_neg hclean, if_neg hversion, harray]
  simp only
  rw [hvalid]
  simp

/-- The reload took back the valid slots of `ast` and left the others empty. -/
def AstReload.Restores (r : AstReload) (ast : Ast) : Prop :=
  r.loaded = true ∧ r.rc = none ∧
    ∀ i, if (ast.slots i).valid then (ast.slots i).Same (r.ast.slots i) else r.ast.slots i = {}

/-- A table whose valid slots keep to the format comes back from its snapshot, into whatever the live
table held; and any reload fills the table from the whole document or leaves it empty. -/
theorem ast_snapshot_reloaded {ast : Ast}
    (h : ∀ i, (ast.slots i).valid = true → (ast.slots i).InFormat) {path : List Byte} {old new : File}
    (hwrite : astSnapshot ast path true old = (new, none)) :
    (∀ live, (astReloadInto live new).Restores ast) ∧
      ∀ live file, (astReloadInto live file).Whole file := by
  constructor
  · intro live
    obtain rfl : .json (astDumpJson ast) = new := by
      simp only [astSnapshot, if_true] at hwrite
      split at hwrite
      · cases hwrite
      · cases hwrite
        rfl
    rw [astReloadInto_eq, astReload_written h]
    refine ⟨rfl, rfl, fun i => ?_⟩
    by_cases hi : (ast.slots i).valid
    · simp only [hi, if_true]
      exact AstSlot.same_inUse _
    · simp only [hi, if_false, Bool.false_eq_true]
  · intro live file
    rw [astReloadInto_eq]
    exact astReload_whole file

/-- A subscriber with two groups, in slot 3. -/
def twoGroupSlot : AstSlot where
  issi := 5
  state := 1
  groupCount := 2
  groupList g := if g.val < 2 then 7 else 0
  valid := true

def twoGroupTable : Ast where
  slots i := if i.val = 3 then twoGroupSlot else {}

theorem twoGroupTable_inFormat (i : Fin tetraAstSlotCount) (hi : (twoGroupTable.slots i).valid = true) :
    (twoGroupTable.slots i).InFormat := by
  by_cases h3 : i.val = 3
  · have hslot : twoGroupTable.slots i = twoGroupSlot := if_pos h3
    rw [hslot]
    refine ⟨by decide, by decide, by decide, by decide, fun g => ?_⟩
    rw [twoGroupSlot]
    dsimp only
    split <;> decide
  · simp [twoGroupTable, h3] at hi

theorem ast_snapshot_reloaded_two_groups :
    (∀ live, (astReloadInto live (.json (astDumpJson twoGroupTable))).Restores twoGroupTable) ∧
      ∀ live file, (astReloadInto live file).Whole file :=
  ast_snapshot_reloaded twoGroupTable_inFormat
    (rfl : astSnapshot twoGroupTable [] true .absent = (.json (astDumpJson twoGroupTable), none))

end TetraBs
