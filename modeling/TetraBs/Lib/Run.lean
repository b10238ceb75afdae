import Mathlib.Data.List.Basic

/-! Runs of deterministic systems: clocked systems fed by an input stream, and
systems driven by a finite list of operations. Nothing here is about TETRA. -/
namespace TetraBs.Run
variable {σ ι : Type*}

/-- State after `n` cycles of a clocked system; the step may read the cycle number. -/
def clocked (step : Nat → σ → ι → σ) (s : σ) (inp : Nat → ι) : Nat → σ
  | 0 => s
  | n + 1 => step n (clocked step s inp n) (inp n)

theorem clocked_invariant {step : Nat → σ → ι → σ} {s : σ} {inp : Nat → ι}
    (Inv : Nat → σ → Prop) (h0 : Inv 0 s)
    (hs : ∀ n, Inv n (clocked step s inp n) →
      Inv (n + 1) (step n (clocked step s inp n) (inp n))) (n : Nat) :
    Inv n (clocked step s inp n) := by
  induction n with
  | zero => exact h0
  | succ n ih => exact hs n ih

/-- Final state of a list of operations. -/
def exec (step : σ → ι → σ) : σ → List ι → σ
  | s, [] => s
  | s, i :: is => exec step (step s i) is

/-- Every operation of the run is taken in a state where `P` holds of both. -/
def Along (step : σ → ι → σ) (P : σ → ι → Prop) : σ → List ι → Prop
  | _, [] => True
  | s, i :: is => P s i ∧ Along step P (step s i) is

instance Along.decidable (step : σ → ι → σ) (P : σ → ι → Prop) [∀ s i, Decidable (P s i)] :
    (s : σ) → (is : List ι) → Decidable (Along step P s is)
  | _, [] => isTrue trivial
  | s, i :: is =>
    have := Along.decidable step P (step s i) is
    inferInstanceAs (Decidable (P s i ∧ Along step P (step s i) is))

theorem exec_append (step : σ → ι → σ) (s : σ) (is js : List ι) :
    exec step s (is ++ js) = exec step (exec step s is) js := by
  induction is generalizing s with
  | nil => rfl
  | cons i is ih => simpa [exec] using ih (step s i)

theorem exec_snoc (step : σ → ι → σ) (s : σ) (is : List ι) (i : ι) :
    exec step s (is ++ [i]) = step (exec step s is) i := by
  rw [exec_append]
  rfl

theorem along_append {step : σ → ι → σ} {P : σ → ι → Prop} {s : σ} {is js : List ι} :
    Along step P s (is ++ js) ↔ Along step P s is ∧ Along step P (exec step s is) js := by
  induction is generalizing s with
  | nil => exact ⟨fun h => ⟨trivial, h⟩, And.right⟩
  | cons i is ih =>
    rw [List.cons_append, Along, Along, ih, and_assoc]
    rfl

theorem along_true (step : σ → ι → σ) (s : σ) (is : List ι) :
    Along step (fun _ _ => True) s is := by
  induction is generalizing s with
  | nil => trivial
  | cons i is ih => exact ⟨trivial, ih (step s i)⟩

theorem along_of_forall {step : σ → ι → σ} {P : σ → ι → Prop} {is : List ι}
    (h : ∀ i ∈ is, ∀ s, P s i) (s : σ) : Along step P s is := by
  induction is generalizing s with
  | nil => trivial
  | cons i is ih =>
    exact ⟨h i List.mem_cons_self s, ih (fun j hj => h j (List.mem_cons_of_mem i hj)) (step s i)⟩

theorem along_and {step : σ → ι → σ} {P Q : σ → ι → Prop} {s : σ} {is : List ι}
    (hp : Along step P s is) (hq : Along step Q s is) :
    Along step (fun s i => P s i ∧ Q s i) s is := by
  induction is generalizing s with
  | nil => trivial
  | cons i is ih => exact ⟨⟨hp.1, hq.1⟩, ih hp.2 hq.2⟩

/-- What holds of every state of the run holds where each step is taken. -/
theorem along_of_prefixes {step : σ → ι → σ} {P : σ → Prop} {s : σ} {is : List ι}
    (h : ∀ pre, pre <+: is → P (exec step s pre)) : Along step (fun s _ => P s) s is := by
  induction is generalizing s with
  | nil => trivial
  | cons i is ih =>
    exact ⟨h [] List.nil_prefix,
      ih fun pre hpre => h (i :: pre) (List.cons_prefix_cons.2 ⟨rfl, hpre⟩)⟩

/-- An invariant kept by every step that meets `P` holds at the end of a run whose
steps all meet `P`. -/
theorem exec_invariant {step : σ → ι → σ} {P : σ → ι → Prop} (Inv : σ → Prop)
    (hs : ∀ s i, Inv s → P s i → Inv (step s i)) {s : σ} {is : List ι}
    (h0 : Inv s) (ha : Along step P s is) : Inv (exec step s is) := by
  induction is generalizing s with
  | nil => exact h0
  | cons i is ih => exact ih (hs s i h0 ha.1) ha.2

/-- A phase that ends when `cnt` reaches `n`. `R s e` says that the phase makes `e` of `s`. -/
theorem exec_phase {step : σ → ι → σ} {P : σ → Prop} {R : σ → σ → Prop} {cnt : σ → ℕ} {n : ℕ}
    (hnext : ∀ s i, P s → cnt s + 1 < n → P (step s i) ∧ cnt (step s i) = cnt s + 1 ∧
      ∀ e, R (step s i) e → R s e)
    (hlast : ∀ s i, P s → cnt s + 1 = n → R s (step s i)) {s : σ} (hs : P s) (hcnt : cnt s < n)
    {is : List ι} (hlen : is.length + cnt s = n) : R s (exec step s is) := by
  induction is generalizing s with
  | nil =>
    rw [List.length_nil] at hlen
    omega
  | cons i is ih =>
    rw [List.length_cons] at hlen
    rw [exec]
    by_cases hend : cnt s + 1 = n
    · have hnil : is = [] := List.eq_nil_of_length_eq_zero (by omega)
      rw [hnil, exec]
      exact hlast s i hs hend
    · obtain ⟨hs', hcnt', hback⟩ := hnext s i hs (by omega)
      exact hback _ (ih hs' (by omega) (by omega))

/-- Two step conditions that agree on the states of an invariant, which the second keeps, hold
along the same runs. -/
theorem along_iff_of_kept {step : σ → ι → σ} {P Q : σ → ι → Prop} (Inv : σ → Prop)
    (hs : ∀ s i, Inv s → Q s i → Inv (step s i)) (hpq : ∀ s i, Inv s → (P s i ↔ Q s i))
    {s : σ} {is : List ι} (h0 : Inv s) : Along step P s is ↔ Along step Q s is := by
  induction is generalizing s with
  | nil => exact Iff.rfl
  | cons i is ih =>
    rw [Along, Along, hpq s i h0]
    exact and_congr_right fun hq => ih (hs s i h0 hq)

/-- Two step conditions that agree on the states of an invariant hold along the same runs. -/
theorem along_congr {step : σ → ι → σ} {P Q : σ → ι → Prop} (Inv : σ → Prop)
    (hs : ∀ s i, Inv s → Inv (step s i)) (hpq : ∀ s i, Inv s → (P s i ↔ Q s i))
    {s : σ} {is : List ι} (h0 : Inv s) : Along step P s is ↔ Along step Q s is :=
  along_iff_of_kept Inv (fun s i h _ => hs s i h) hpq h0

/-- A property that a step keeps exactly if it meets `Q` survives exactly the runs whose steps
all meet `Q`. -/
theorem exec_iff_along {step : σ → ι → σ} {P : σ → Prop} {Q : σ → ι → Prop} (Inv : σ → Prop)
    (hs : ∀ s i, Inv s → Inv (step s i)) (hpq : ∀ s i, Inv s → (P (step s i) ↔ P s ∧ Q s i))
    {s : σ} {is : List ι} (h0 : Inv s) : P (exec step s is) ↔ P s ∧ Along step Q s is := by
  induction is generalizing s with
  | nil => simp [Along, exec]
  | cons i is ih => rw [exec, Along, ih (hs s i h0), hpq s i h0, and_assoc]

/-- Where a property held so far, a step keeps it exactly if it meets `Q`: it holds after every
step of exactly the runs whose steps all meet `Q`. -/
theorem along_after_iff {step : σ → ι → σ} {P : σ → Prop} {Q : σ → ι → Prop} (Inv : σ → Prop)
    (hs : ∀ s i, Inv s → Inv (step s i)) (hpq : ∀ s i, Inv s → P s → (P (step s i) ↔ Q s i))
    {s : σ} {is : List ι} (h0 : Inv s) (hp : P s) :
    Along step (fun s i => P (step s i)) s is ↔ Along step Q s is := by
  induction is generalizing s with
  | nil => exact Iff.rfl
  | cons i is ih =>
    constructor
    · rintro ⟨hi, his⟩
      exact ⟨(hpq s i h0 hp).1 hi, (ih (hs s i h0) hi).1 his⟩
    · rintro ⟨hi, his⟩
      have hstep := (hpq s i h0 hp).2 hi
      exact ⟨hstep, (ih (hs s i h0) hstep).2 his⟩

/-- A property of every state reached, step by step. -/
theorem forall_prefix_iff {step : σ → ι → σ} {P : σ → Prop} {s : σ} {is : List ι} :
    (∀ pre, pre <+: is → P (exec step s pre)) ↔
      P s ∧ Along step (fun s i => P (step s i)) s is := by
  induction is generalizing s with
  | nil => simp [Along, exec]
  | cons i is ih =>
    rw [Along, ← ih]
    constructor
    · intro h
      exact ⟨h [] List.nil_prefix, fun pre hpre =>
        h (i :: pre) (List.cons_prefix_cons.2 ⟨rfl, hpre⟩)⟩
    · rintro ⟨hs, h⟩ pre hpre
      cases pre with
      | nil => exact hs
      | cons j pre =>
        obtain ⟨rfl, hrest⟩ := List.cons_prefix_cons.1 hpre
        exact h pre hrest

/-- A statement about every position of a list, by its first position. -/
theorem forall_split_cons {P : List ι → ι → Prop} {i : ι} {is : List ι} :
    (∀ pre j post, i :: is = pre ++ j :: post → P pre j) ↔
      P [] i ∧ ∀ pre j post, is = pre ++ j :: post → P (i :: pre) j := by
  constructor
  · intro h
    refine ⟨h [] i is rfl, fun pre j post heq => h (i :: pre) j post ?_⟩
    rw [heq]
    rfl
  · rintro ⟨h0, h⟩ pre j post heq
    cases pre with
    | nil =>
      cases heq
      exact h0
    | cons k pre =>
      cases heq
      exact h pre j post rfl

end TetraBs.Run
