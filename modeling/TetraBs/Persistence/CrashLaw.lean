import TetraBs.Lib.Run
import TetraBs.Persistence.AstSnapshot

/-! Histories of daemon runs over one snapshot file: when a start finds the attachments of an
earlier run. -/
namespace TetraBs
open TetraBs.Bits TetraBs.Run

/-- What a run does with the table; a snapshot that cannot be written leaves the file. -/
inductive RunOp where
  | change (ast : Ast)
  | snapshot (wrote : Bool)

inductive RunEnd where
  | clean (wrote : Bool)
  | crash

structure DaemonRun where
  ops : List RunOp
  ending : RunEnd

structure RunState where
  ast : Ast
  file : File

/-- The table the daemon starts with: a failed reload and one that loaded nothing leave it
empty. -/
def startAst (file : File) : Ast :=
  if (astReload file).rc ≠ none then {}
  else if (astReload file).loaded = false then {}
  else (astReload file).ast

def RunState.step (path : List Byte) (s : RunState) : RunOp → RunState
  | .change ast => { s with ast := ast }
  | .snapshot wrote => { s with file := (astSnapshot s.ast path wrote s.file).1 }

/-- The file a run leaves. -/
def daemonRun (path : List Byte) (file : File) (r : DaemonRun) : File :=
  let s := exec (RunState.step path) ⟨startAst file, file⟩ r.ops
  match r.ending with
  | .clean wrote => (astSnapshot s.ast path wrote s.file).1
  | .crash => s.file

def fileAfter (path : List Byte) (rs : List DaemonRun) : File :=
  exec (daemonRun path) .absent rs

/-- In a history from the first start on, a start loads a table only after a clean end, and
starts empty after a crash. -/
def CrashLaw (path : List Byte) (rs : List DaemonRun) : Prop :=
  ∀ pre prev next post, rs = pre ++ prev :: next :: post →
    ((astReload (fileAfter path (pre ++ [prev]))).loaded = true → prev.ending ≠ .crash) ∧
      (prev.ending = .crash → startAst (fileAfter path (pre ++ [prev])) = {})

/-- The tables a reload takes back: no more groups in use than the list has, each of 24 bits. -/
def AstSlot.Storable (s : AstSlot) : Prop :=
  s.groupCount.toNat ≤ tetraAstGroupListMax ∧ ∀ g ∈ s.groups, g.toNat ≤ 0xFFFFFF

def Ast.Storable (ast : Ast) : Prop := ∀ i, (ast.slots i).valid = true → (ast.slots i).Storable

/-- A clean end or a snapshot on the way put a table on the disk that a reload takes back. -/
def LeavesStorable (path : List Byte) (rs : List DaemonRun) : Prop :=
  ∃ ast : Ast, ast.Storable ∧ fileAfter path rs = .json (astDumpJson ast)

theorem astLoadGroups_isSome (gs : List (BitVec 32)) :
    (astLoadGroups (gs.map fun g => natJson g.toNat)).isSome ↔ ∀ g ∈ gs, g.toNat ≤ 0xFFFFFF := by
  induction gs with
  | nil => simp [astLoadGroups]
  | cons g gs ih =>
    have hg : (0xFFFFFF < (g.toNat : Int)) ↔ ¬g.toNat ≤ 0xFFFFFF := by omega
    rw [List.forall_mem_cons, ← ih]
    by_cases h : g.toNat ≤ 0xFFFFFF
    · cases hrest : astLoadGroups (gs.map fun g => natJson g.toNat) <;>
        simp_all [astLoadGroups, natJson, Json.int?]
    · simp [astLoadGroups, natJson, Json.int?, hg, h]

theorem groups_length (s : AstSlot) :
    s.groups.length = min s.groupCount.toNat tetraAstGroupListMax := by
  simp [AstSlot.groups]

/-- A slot that was written is read back exactly if it is storable. -/
theorem astLoadSlot_slotToJson (i : Fin tetraAstSlotCount) (s : AstSlot) :
    (∃ r, astLoadSlot (slotToJson i s) = .ok r) ↔ s.Storable := by
  have hidx : (0 : Int) ≤ (i.val : Int) ∧ (i.val : Int) < (tetraAstSlotCount : Int) := by
    have := i.isLt
    omega
  have hneg : ¬((s.groupCount.toNat : Int) < 0) := by omega
  have hlen := groups_length s
  rw [AstSlot.Storable]
  rw [← astLoadGroups_isSome]
  by_cases hgc : s.groupCount.toNat ≤ tetraAstGroupListMax
  · have hgl : s.groups.length = s.groupCount.toNat := by omega
    have hle : ¬tetraAstGroupListMax < s.groupCount.toNat := by omega
    cases hg : astLoadGroups (s.groups.map fun g => natJson g.toNat) <;>
      simp only [natJson] at hg <;>
      simp [astLoadSlot, slotToJson, natJson, hidx, hgl, hg, hneg, hgc, hle]
  · have hlt : tetraAstGroupListMax < s.groupCount.toNat := by omega
    simp [astLoadSlot, slotToJson, natJson, hlt, hgc]

theorem astLoadSlots_ok (slots : Fin tetraAstSlotCount → AstSlot)
    (is : List (Fin tetraAstSlotCount)) (ast : Ast) :
    (∃ r, astLoadSlots (is.map fun i => slotToJson i (slots i)) ast = .ok r) ↔
      ∀ i ∈ is, (slots i).Storable := by
  induction is generalizing ast with
  | nil => simp [astLoadSlots]
  | cons i is ih =>
    rw [List.forall_mem_cons, ← astLoadSlot_slotToJson i, List.map_cons, astLoadSlots]
    cases hslot : astLoadSlot (slotToJson i (slots i)) with
    | error e => simp
    | ok r => simp [ih]

theorem astReload_dump_loaded (ast : Ast) :
    (astReload (.json (astDumpJson ast))).loaded = true ↔ ast.Storable := by
  have hslots := astLoadSlots_ok ast.slots
    ((List.finRange tetraAstSlotCount).filter fun i => (ast.slots i).valid) {}
  have hall : (∀ i ∈ (List.finRange tetraAstSlotCount).filter fun i => (ast.slots i).valid,
      (ast.slots i).Storable) ↔ ast.Storable := by
    simp [Ast.Storable]
  have hobj : ¬(astDumpJson ast).isObject = false := by simp [astDumpJson]
  have hclean : ¬((astDumpJson ast).get "clean_shutdown_flag").bind Json.bool? ≠ some true :=
    fun h => h rfl
  have hversion : ¬((astDumpJson ast).get "version").bind Json.int? ≠ some 1 := fun h => h rfl
  have harray : ((astDumpJson ast).get "slots").bind Json.array? =
      some (((List.finRange tetraAstSlotCount).filter fun i => (ast.slots i).valid).map fun i =>
        slotToJson i (ast.slots i)) := rfl
  rw [← hall, ← hslots, astReload, if_neg hobj, if_neg hclean, if_neg hversion]
  simp only [harray]
  cases hload : astLoadSlots (((List.finRange tetraAstSlotCount).filter fun i =>
      (ast.slots i).valid).map fun i => slotToJson i (ast.slots i)) {} with
  | ok r => exact ⟨fun _ => ⟨r, rfl⟩, fun _ => rfl⟩
  | error e =>
    constructor
    · intro h
      cases h
    · rintro ⟨r, hr⟩
      cases hr

/-- Nothing, or what some snapshot wrote. -/
def File.Snapshotted (f : File) : Prop := f = .absent ∨ ∃ ast, f = .json (astDumpJson ast)

theorem astSnapshot_snapshotted {f : File} (hf : f.Snapshotted) (ast : Ast) (path : List Byte)
    (wrote : Bool) : (astSnapshot ast path wrote f).1.Snapshotted := by
  rw [astSnapshot]
  split
  · exact hf
  · split
    · exact Or.inr ⟨ast, rfl⟩
    · exact hf

theorem daemonRun_snapshotted (path : List Byte) {f : File} (hf : f.Snapshotted)
    (r : DaemonRun) : (daemonRun path f r).Snapshotted := by
  have hops : (exec (RunState.step path) ⟨startAst f, f⟩ r.ops).file.Snapshotted := by
    apply exec_invariant (fun s : RunState => s.file.Snapshotted) _ hf (along_true _ _ _)
    intro s op hs _
    cases op with
    | change ast => exact hs
    | snapshot wrote => exact astSnapshot_snapshotted hs _ _ _
  rw [daemonRun]
  cases r.ending with
  | clean wrote => exact astSnapshot_snapshotted hops _ _ _
  | crash => exact hops

theorem fileAfter_snapshotted (path : List Byte) (rs : List DaemonRun) :
    (fileAfter path rs).Snapshotted :=
  exec_invariant File.Snapshotted (fun _ r hf _ => daemonRun_snapshotted path hf r) (Or.inl rfl)
    (along_true _ _ rs)

theorem loaded_iff_leavesStorable (path : List Byte) (rs : List DaemonRun) :
    (astReload (fileAfter path rs)).loaded = true ↔ LeavesStorable path rs := by
  constructor
  · intro h
    obtain habs | ⟨ast, hfile⟩ := fileAfter_snapshotted path rs
    · rw [habs] at h
      cases h
    · rw [hfile] at h
      exact ⟨ast, (astReload_dump_loaded ast).1 h, hfile⟩
  · rintro ⟨ast, hstore, hfile⟩
    rw [hfile]
    exact (astReload_dump_loaded ast).2 hstore

theorem startAst_not_loaded {file : File} (h : ¬(astReload file).loaded = true) :
    startAst file = {} := by
  rw [startAst]
  split
  · rfl
  · rw [if_pos (Bool.eq_false_iff.2 h)]

/-- The law holds of exactly the histories in which no run that is followed by another crashes
while the disk holds a table that a reload takes back. -/
theorem crash_law_iff (path : List Byte) (rs : List DaemonRun) :
    CrashLaw path rs ↔ ∀ pre prev next post, rs = pre ++ prev :: next :: post →
      prev.ending = .crash → ¬LeavesStorable path (pre ++ [prev]) := by
  constructor
  · intro h pre prev next post hrs hcrash hleft
    exact (h pre prev next post hrs).1 ((loaded_iff_leavesStorable _ _).2 hleft) hcrash
  · intro h pre prev next post hrs
    constructor
    · intro hload hcrash
      exact h pre prev next post hrs hcrash ((loaded_iff_leavesStorable _ _).1 hload)
    · intro hcrash
      apply startAst_not_loaded
      intro hload
      exact h pre prev next post hrs hcrash ((loaded_iff_leavesStorable _ _).1 hload)

/-- One attached subscriber. -/
def oneAttached : Ast where
  slots i := if i.val = 0 then { issi := 5, state := 1, valid := true } else {}

/-- A clean end, a crash, and the third start takes the table of the first run back. -/
theorem stale_table_after_crash :
    ¬CrashLaw [] [⟨[.change oneAttached], .clean true⟩, ⟨[], .crash⟩, ⟨[], .crash⟩] := by
  intro h
  refine (crash_law_iff _ _).1 h [⟨[.change oneAttached], .clean true⟩] ⟨[], .crash⟩
    ⟨[], .crash⟩ [] rfl rfl ⟨oneAttached, ?_, rfl⟩
  intro i hi
  by_cases h0 : i.val = 0
  · simp [AstSlot.Storable, AstSlot.groups, oneAttached, h0]
  · simp [oneAttached, h0] at hi

end TetraBs
