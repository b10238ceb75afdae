import Mathlib.Data.List.Basic
import Mathlib.Order.Nat

/-! Viterbi decoding on a trellis in which every state has two predecessors, with metrics that
saturate: add, compare and select, the trace back, and when it finds a given path. Nothing here is
about TETRA. -/
namespace TetraBs.Viterbi
variable {σ : Type*} (prev : σ → Bool → σ) (cap : Nat)

/-- The predecessor with the smaller sum; the first one when they are equal. -/
def survivor (pm : σ → Nat) (cost : σ → Bool → Nat) (s : σ) : Bool :=
  pm (prev s true) + cost s true < pm (prev s false) + cost s false

/-- The metric of a state after the stage. -/
def select (pm : σ → Nat) (cost : σ → Bool → Nat) (s : σ) : Nat :=
  min cap (pm (prev s (survivor prev pm cost s)) + cost s (survivor prev pm cost s))

/-- The metrics after `t` stages. -/
def metrics (pm : σ → Nat) (cost : Nat → σ → Bool → Nat) : Nat → σ → Nat
  | 0 => pm
  | t + 1 => select prev cap (metrics pm cost t) (cost t)

/-- The survivors of stage `t`. -/
def survivors (pm : σ → Nat) (cost : Nat → σ → Bool → Nat) (t : Nat) : σ → Bool :=
  survivor prev (metrics prev cap pm cost t) (cost t)

/-- The state `k` stages before stage `n`, traced back from `s`. -/
def trace (surv : Nat → σ → Bool) (n : Nat) (s : σ) : Nat → σ
  | 0 => s
  | k + 1 => prev (trace surv n s k) (surv (n - 1 - k) (trace surv n s k))

variable {prev cap}

theorem select_le (pm : σ → Nat) (cost : σ → Bool → Nat) (s : σ) (b : Bool) :
    select prev cap pm cost s ≤ pm (prev s b) + cost s b := by
  refine (Nat.min_le_right _ _).trans ?_
  by_cases h : pm (prev s true) + cost s true < pm (prev s false) + cost s false
  · rw [survivor, decide_eq_true h]
    cases b with
    | true => exact Nat.le_refl _
    | false => exact Nat.le_of_lt h
  · rw [survivor, decide_eq_false h]
    cases b with
    | true => exact Nat.le_of_not_lt h
    | false => exact Nat.le_refl _

theorem le_select {pm : σ → Nat} {cost : σ → Bool → Nat} {s : σ} {m : Nat} (hcap : m ≤ cap)
    (h : ∀ b, m ≤ pm (prev s b) + cost s b) : m ≤ select prev cap pm cost s :=
  Nat.le_min.2 ⟨hcap, h _⟩

/-- A path through the trellis: `choice t` leads from `path (t + 1)` back to `path t`. -/
structure Path (prev : σ → Bool → σ) (n : Nat) where
  path : Nat → σ
  choice : Nat → Bool
  back : ∀ t < n, prev (path (t + 1)) (choice t) = path t

/-- The costs of the first `t` stages. -/
def Path.sum {n : Nat} (p : Path prev n) (cost : Nat → σ → Bool → Nat) : Nat → Nat
  | 0 => 0
  | t + 1 => p.sum cost t + cost t (p.path (t + 1)) (p.choice t)

theorem Path.sum_le {n : Nat} (p : Path prev n) {cost : Nat → σ → Bool → Nat} {m : Nat}
    (h : ∀ t s b, cost t s b ≤ m) (t : Nat) : p.sum cost t ≤ m * t := by
  induction t with
  | zero => exact Nat.zero_le _
  | succ t ih => exact Nat.add_le_add ih (h t _ _)

/-- No path is cheaper than the metric of its last state. -/
theorem Path.metrics_le {n : Nat} (p : Path prev n) (cost : Nat → σ → Bool → Nat) (pm : σ → Nat)
    {t : Nat} (ht : t ≤ n) :
    metrics prev cap pm cost t (p.path t) ≤ pm (p.path 0) + p.sum cost t := by
  induction t with
  | zero => exact Nat.le_refl _
  | succ t ih =>
    refine (select_le _ _ _ (p.choice t)).trans ?_
    rw [p.back t (by omega), sum, ← Nat.add_assoc]
    exact Nat.add_le_add_right (ih (by omega)) _

/-- Along the survivors the metric is the cost, as far as it does not saturate. -/
theorem Path.metrics_eq {n : Nat} (p : Path prev n) (cost : Nat → σ → Bool → Nat) {pm : σ → Nat}
    (hpm : pm (p.path 0) ≤ cap) {m : Nat} (hm : m ≤ n)
    (hs : ∀ t < m, survivors prev cap pm cost t (p.path (t + 1)) = p.choice t) :
    metrics prev cap pm cost m (p.path m) = min cap (pm (p.path 0) + p.sum cost m) := by
  induction m with
  | zero => exact (Nat.min_eq_right hpm).symm
  | succ m ih =>
    have hprev := ih (by omega) fun t ht => hs t (by omega)
    have hsurv := hs m (by omega)
    rw [survivors] at hsurv
    rw [metrics, select, hsurv, p.back m (by omega), hprev, sum]
    omega

/-- Every other path is more expensive by an excess that no edge uses up. -/
structure Path.Leads {n : Nat} (p : Path prev n) (cost : Nat → σ → Bool → Nat) (pm : σ → Nat)
    (cap : Nat) (excess : Nat → σ → Nat) : Prop where
  start : pm (p.path 0) = 0
  start_le : ∀ s, excess 0 s ≤ pm s
  own : ∀ t, excess t (p.path t) = 0
  edge : ∀ t < n, ∀ s b, excess (t + 1) s + cost t (p.path (t + 1)) (p.choice t) ≤
    excess t (prev s b) + cost t s b
  strict : ∀ t < n, cost t (p.path (t + 1)) (p.choice t) <
    excess t (prev (p.path (t + 1)) (!p.choice t)) + cost t (p.path (t + 1)) (!p.choice t)
  fits : ∀ t ≤ n, ∀ s, p.sum cost t + excess t s ≤ cap

variable {cost : Nat → σ → Bool → Nat} {n : Nat} {p : Path prev n} {pm : σ → Nat}
  {excess : Nat → σ → Nat}

theorem Path.Leads.metrics (h : p.Leads cost pm cap excess) {t : Nat} (ht : t ≤ n) :
    metrics prev cap pm cost t (p.path t) = p.sum cost t ∧
      ∀ s, p.sum cost t + excess t s ≤ metrics prev cap pm cost t s := by
  induction t with
  | zero =>
    refine ⟨by exact h.start, fun s => ?_⟩
    rw [sum, Nat.zero_add]
    exact h.start_le s
  | succ t ih =>
    obtain ⟨hown, hall⟩ := ih (by omega)
    have hbound : ∀ s, p.sum cost (t + 1) + excess (t + 1) s ≤
        Viterbi.metrics prev cap pm cost (t + 1) s := by
      intro s
      refine le_select (h.fits (t + 1) ht s) fun b => ?_
      have hstep := h.edge t (by omega) s b
      have hprev := hall (prev s b)
      rw [sum]
      omega
    refine ⟨Nat.le_antisymm ?_ ?_, hbound⟩
    · refine (select_le _ _ _ (p.choice t)).trans ?_
      rw [p.back t (by omega), hown, sum]
    · have hself := hbound (p.path (t + 1))
      rwa [h.own, Nat.add_zero] at hself

theorem Path.Leads.survivors (h : p.Leads cost pm cap excess) {t : Nat} (ht : t < n) :
    survivors prev cap pm cost t (p.path (t + 1)) = p.choice t := by
  obtain ⟨hown, hall⟩ := h.metrics (Nat.le_of_lt ht)
  have hother := hall (prev (p.path (t + 1)) (!p.choice t))
  have hstrict := h.strict t ht
  have hback := p.back t ht
  rw [Viterbi.survivors, survivor]
  cases hc : p.choice t with
  | true =>
    rw [hc] at hback hstrict hother
    rw [Bool.not_true] at hstrict hother
    exact decide_eq_true (by rw [hback, hown]; omega)
  | false =>
    rw [hc] at hback hstrict hother
    rw [Bool.not_false] at hstrict hother
    exact decide_eq_false (by rw [hback, hown]; omega)

/-- The trace back from the end of the path finds the path. -/
theorem Path.Leads.trace (h : p.Leads cost pm cap excess) {k : Nat} (hk : k ≤ n) :
    trace prev (Viterbi.survivors prev cap pm cost) n (p.path n) k = p.path (n - k) := by
  induction k with
  | zero => rfl
  | succ k ih =>
    have hnext : n - k = n - 1 - k + 1 := by omega
    rw [Viterbi.trace, ih (by omega), hnext, h.survivors (by omega), p.back _ (by omega)]
    congr 1
    omega

end TetraBs.Viterbi
