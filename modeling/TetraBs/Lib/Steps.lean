import Mathlib.Data.List.Basic

/-! Procedures that check and write, in an order of their own. A check that fails ends the
procedure with an error and leaves what was written before it; a write that cannot be done breaks
the run off. Nothing here is about TETRA. -/
namespace TetraBs.Steps

inductive Step (ω ε : Type) where
  | check (ok : Bool) (e : ε)
  | write (w : ω)

variable {σ ω ε : Type}

/-- The state a procedure leaves, and its error if it has one. -/
def run (write : σ → ω → Option σ) : List (Step ω ε) → σ → Option (σ × Option ε)
  | [], s => some (s, none)
  | .check ok e :: steps, s => if ok then run write steps s else some (s, some e)
  | .write w :: steps, s => (write s w).bind (run write steps)

def writes : List (Step ω ε) → List ω
  | [] => []
  | .check _ _ :: steps => writes steps
  | .write w :: steps => w :: writes steps

/-- Every check passes. -/
def Passes : List (Step ω ε) → Prop
  | [] => True
  | .check ok _ :: steps => ok = true ∧ Passes steps
  | .write _ :: steps => Passes steps

/-- No check comes after a write. -/
def ChecksFirst : List (Step ω ε) → Prop
  | [] => True
  | .check _ _ :: steps => ChecksFirst steps
  | .write _ :: steps => Passes steps

/-- The writes alone. -/
def writeAll (write : σ → ω → Option σ) : List ω → σ → Option σ
  | [], s => some s
  | w :: ws, s => (write s w).bind (writeAll write ws)

variable {write : σ → ω → Option σ}

theorem writes_append (u v : List (Step ω ε)) : writes (u ++ v) = writes u ++ writes v := by
  induction u with
  | nil => rfl
  | cons step u ih =>
    cases step with
    | check ok e => exact ih
    | write w => exact congrArg (List.cons w) ih

theorem passes_append {u v : List (Step ω ε)} : Passes (u ++ v) ↔ Passes u ∧ Passes v := by
  induction u with
  | nil => simp [Passes]
  | cons step u ih =>
    cases step with
    | check ok e => simp [Passes, ih, and_assoc]
    | write f => simpa [Passes] using ih

/-- A procedure without an error passed its checks and did its writes. -/
theorem run_none_iff {steps : List (Step ω ε)} {s t : σ} :
    run write steps s = some (t, none) ↔
      Passes steps ∧ writeAll write (writes steps) s = some t := by
  induction steps generalizing s with
  | nil => simp [run, Passes, writes, writeAll]
  | cons step steps ih =>
    cases step with
    | check ok e =>
      cases ok with
      | false => simp [run, Passes]
      | true => simpa [run, Passes, writes] using ih
    | write w =>
      rw [run, Passes, writes, writeAll]
      cases write s w with
      | none => simp
      | some u => simpa using ih

theorem run_of_passes {steps : List (Step ω ε)} (h : Passes steps) (s : σ) :
    run write steps s = (writeAll write (writes steps) s).map fun t => (t, none) := by
  induction steps generalizing s with
  | nil => rfl
  | cons step steps ih =>
    cases step with
    | check ok e =>
      rw [run, if_pos h.1]
      exact ih h.2 s
    | write w =>
      rw [run, writes, writeAll]
      cases write s w with
      | none => rfl
      | some u => exact ih h u

/-- Writes that break off do so at the first one that cannot be done. -/
theorem writeAll_none {ws : List ω} {s : σ}
    (h : writeAll write ws s = none) :
    ∃ done w rest t, ws = done ++ w :: rest ∧ writeAll write done s = some t ∧
      write t w = none := by
  induction ws generalizing s with
  | nil => cases h
  | cons w ws ih =>
    cases hw : write s w with
    | none => exact ⟨[], w, ws, s, rfl, rfl, hw⟩
    | some t =>
      rw [writeAll, hw] at h
      obtain ⟨done, u, rest, b, rfl, hdone, hu⟩ := ih h
      refine ⟨w :: done, u, rest, b, rfl, ?_, hu⟩
      rw [writeAll, hw]
      exact hdone

/-- A procedure that checks first has changed nothing when it reports an error. -/
theorem ChecksFirst.unchanged {steps : List (Step ω ε)} (h : ChecksFirst steps) {s t : σ} {e : ε}
    (hrun : run write steps s = some (t, some e)) : t = s := by
  induction steps with
  | nil => cases hrun
  | cons step steps ih =>
    cases step with
    | check ok e' =>
      cases ok with
      | false =>
        cases hrun
        rfl
      | true => exact ih h hrun
    | write w =>
      have hpass : Passes (Step.write w :: steps : List (Step ω ε)) := h
      rw [run_of_passes hpass, Option.map_eq_some_iff] at hrun
      obtain ⟨u, -, hu⟩ := hrun
      cases hu

/-- What comes before a failing check is done. -/
theorem run_append_check {pre post : List (Step ω ε)} (h : Passes pre) (s : σ) (e : ε) :
    run write (pre ++ .check false e :: post) s =
      (writeAll write (writes pre) s).map fun t => (t, some e) := by
  induction pre generalizing s with
  | nil => rfl
  | cons step pre ih =>
    cases step with
    | check ok e' =>
      rw [List.cons_append, run, if_pos h.1]
      exact ih h.2 s
    | write w =>
      rw [List.cons_append, run, writes, writeAll]
      cases write s w with
      | none => rfl
      | some u => exact ih h u

end TetraBs.Steps
