import TetraBs.Lib.Viterbi

/-! What a survivor memory finds: the path traced back is the cheapest one, also when a common
amount is taken off all metrics after a stage. Nothing here is about TETRA. -/
namespace TetraBs.Viterbi
variable {σ : Type*} (prev : σ → Bool → σ) (cap : Nat)

/-- The better sum of a state, before anything is cut off. -/
def raw (pm : σ → Nat) (cost : σ → Bool → Nat) (s : σ) : Nat :=
  pm (prev s (survivor prev pm cost s)) + cost s (survivor prev pm cost s)

variable {prev}

theorem select_eq_raw (pm : σ → Nat) (cost : σ → Bool → Nat) (s : σ) :
    select prev cap pm cost s = min cap (raw prev pm cost s) := rfl

theorem raw_le (pm : σ → Nat) (cost : σ → Bool → Nat) (s : σ) (b : Bool) :
    raw prev pm cost s ≤ pm (prev s b) + cost s b := by
  have h : select prev (raw prev pm cost s) pm cost s ≤ pm (prev s b) + cost s b :=
    select_le pm cost s b
  rw [select_eq_raw, Nat.min_self] at h
  exact h

variable (prev) in
/-- Metrics of which each stage keeps the better sums, less a common amount, up to `cap`. -/
structure Keeps (pm : Nat → σ → Nat) (cost : Nat → σ → Bool → Nat) (shift : Nat → Nat)
    (n : Nat) : Prop where
  le : ∀ t < n, ∀ s, shift t ≤ raw prev (pm t) (cost t) s
  step : ∀ t < n, ∀ s, pm (t + 1) s = min cap (raw prev (pm t) (cost t) s - shift t)

/-- What was taken off before stage `t`. -/
def total (shift : Nat → Nat) : Nat → Nat
  | 0 => 0
  | t + 1 => total shift t + shift t

variable {cap} {pm : Nat → σ → Nat} {cost : Nat → σ → Bool → Nat} {shift : Nat → Nat} {n : Nat}

/-- No path is cheaper than the metric of its last state. -/
theorem Keeps.le_sum (h : Keeps prev cap pm cost shift n) (p : Path prev n) {t : Nat}
    (ht : t ≤ n) :
    pm t (p.path t) + total shift t ≤ pm 0 (p.path 0) + p.sum cost t := by
  induction t with
  | zero => exact Nat.le_refl _
  | succ t ih =>
    have hbest : raw prev (pm t) (cost t) (p.path (t + 1)) ≤
        pm t (prev (p.path (t + 1)) (p.choice t)) + cost t (p.path (t + 1)) (p.choice t) :=
      raw_le (pm t) (cost t) (p.path (t + 1)) (p.choice t)
    have hbefore := ih (by omega)
    have hle := h.le t ht (p.path (t + 1))
    rw [p.back t ht] at hbest
    rw [h.step t ht, total, Path.sum]
    omega

/-- A path of survivors costs what the metric of its last state says, or at least `cap`. -/
theorem Keeps.sum_le (h : Keeps prev cap pm cost shift n) (p : Path prev n) {t : Nat}
    (ht : t ≤ n) (hs : ∀ i < t, survivor prev (pm i) (cost i) (p.path (i + 1)) = p.choice i) :
    min (pm 0 (p.path 0) + p.sum cost t) cap ≤ pm t (p.path t) + total shift t := by
  induction t with
  | zero => exact Nat.min_le_left _ _
  | succ t ih =>
    have hbefore := ih (by omega) fun i hi => hs i (by omega)
    have hraw : raw prev (pm t) (cost t) (p.path (t + 1)) =
        pm t (p.path t) + cost t (p.path (t + 1)) (p.choice t) := by
      rw [raw, hs t (Nat.lt_succ_self t), p.back t ht]
    have hle := h.le t ht (p.path (t + 1))
    rw [h.step t ht, total, Path.sum]
    omega

variable (prev) in
/-- The path traced back from `s`. -/
def traced (surv : Nat → σ → Bool) (n : Nat) (s : σ) : Path prev n where
  path t := trace prev surv n s (n - t)
  choice t := surv t (trace prev surv n s (n - (t + 1)))
  back t ht := by
    have hstep : n - t = n - (t + 1) + 1 := by omega
    have hstage : n - 1 - (n - (t + 1)) = t := by omega
    rw [hstep, trace, hstage]

theorem traced_last (surv : Nat → σ → Bool) (n : Nat) (s : σ) :
    (traced prev surv n s).path n = s := by
  have hzero : n - n = 0 := Nat.sub_self n
  show trace prev surv n s (n - n) = s
  rw [hzero]
  rfl

/-- Metrics that start at one state only: zero there, `cap` elsewhere. -/
def StartsAt (s₀ : σ) (cap : Nat) (pm : σ → Nat) : Prop := pm s₀ = 0 ∧ ∀ s, s ≠ s₀ → pm s = cap

variable {s₀ s : σ}

/-- The path traced back from a state that is no worse than the end of some path of less than
`cap` begins where that path does, and its cost is the metric of the state. -/
theorem Keeps.traced_spec (h : Keeps prev cap pm cost shift n) (hstart : StartsAt s₀ cap (pm 0))
    (p : Path prev n) (hp : p.path 0 = s₀) (hcheap : p.sum cost n < cap)
    (hbest : pm n s ≤ pm n (p.path n)) :
    (traced prev (fun t => survivor prev (pm t) (cost t)) n s).path 0 = s₀ ∧
      (traced prev (fun t => survivor prev (pm t) (cost t)) n s).sum cost n =
        pm n s + total shift n := by
  obtain ⟨hzero, hcap⟩ := hstart
  have hlast : (traced prev (fun t => survivor prev (pm t) (cost t)) n s).path n = s :=
    traced_last _ n s
  have hlow := h.sum_le (traced prev (fun t => survivor prev (pm t) (cost t)) n s)
    (Nat.le_refl n) fun i _ => rfl
  have hhigh := h.le_sum (traced prev (fun t => survivor prev (pm t) (cost t)) n s)
    (Nat.le_refl n)
  have hother := h.le_sum p (Nat.le_refl n)
  rw [hlast] at hlow hhigh
  rw [hp, hzero] at hother
  have hfirst : (traced prev (fun t => survivor prev (pm t) (cost t)) n s).path 0 = s₀ := by
    by_contra hne
    rw [hcap _ hne] at hlow
    omega
  rw [hfirst, hzero] at hlow hhigh
  exact ⟨hfirst, by omega⟩

/-- It is the cheapest of all paths whose end is no better. -/
theorem Keeps.traced_le (h : Keeps prev cap pm cost shift n) (hstart : StartsAt s₀ cap (pm 0))
    (p : Path prev n) (hp : p.path 0 = s₀) (hcheap : p.sum cost n < cap)
    (hbest : pm n s ≤ pm n (p.path n)) (q : Path prev n) (hq : q.path 0 = s₀)
    (hworse : pm n s ≤ pm n (q.path n)) :
    (traced prev (fun t => survivor prev (pm t) (cost t)) n s).sum cost n ≤ q.sum cost n := by
  obtain ⟨-, hsum⟩ := h.traced_spec hstart p hp hcheap hbest
  have hother := h.le_sum q (Nat.le_refl n)
  rw [hq, hstart.1] at hother
  omega

/-- Metrics that only saturate. -/
theorem keeps_metrics (pm : σ → Nat) (cost : Nat → σ → Bool → Nat) (n : Nat) :
    Keeps prev cap (metrics prev cap pm cost) cost (fun _ => 0) n where
  le _ _ _ := Nat.zero_le _
  step _ _ _ := rfl

/-! Trellises that shift bits in: paths as bit sequences. -/

/-- `prev s b` is the state that becomes `s` when `input s` comes in and `b` goes out. -/
structure Shifts (prev : σ → Bool → σ) (next : σ → Bool → σ) (input lost : σ → Bool) : Prop where
  next_prev : ∀ s b, next (prev s b) (input s) = s
  prev_next : ∀ s x, prev (next s x) (lost s) = s
  input_next : ∀ s x, input (next s x) = x
  lost_prev : ∀ s b, lost (prev s b) = b

/-- The states that a bit sequence goes through. -/
def states (next : σ → Bool → σ) (s₀ : σ) (x : Nat → Bool) : Nat → σ
  | 0 => s₀
  | t + 1 => next (states next s₀ x t) (x t)

/-- The cost of the first `t` bits; `branch` is the cost of an edge by its first state and bit. -/
def bitsCost (next : σ → Bool → σ) (branch : Nat → σ → Bool → Nat) (s₀ : σ) (x : Nat → Bool) :
    Nat → Nat
  | 0 => 0
  | t + 1 => bitsCost next branch s₀ x t + branch t (states next s₀ x t) (x t)

variable {next : σ → Bool → σ} {input lost : σ → Bool} {branch : Nat → σ → Bool → Nat}

/-- The path of a bit sequence. -/
def Shifts.ofBits (h : Shifts prev next input lost) (s₀ : σ) (x : Nat → Bool) (n : Nat) :
    Path prev n where
  path := states next s₀ x
  choice t := lost (states next s₀ x t)
  back t _ := by rw [states, h.prev_next]

/-- The bits of a path. -/
def Path.bits (input : σ → Bool) (p : Path prev n) (t : Nat) : Bool := input (p.path (t + 1))

theorem Shifts.states_bits (h : Shifts prev next input lost) (p : Path prev n) {t : Nat}
    (ht : t ≤ n) : states next (p.path 0) (p.bits input) t = p.path t := by
  induction t with
  | zero => rfl
  | succ t ih =>
    have hback := p.back t ht
    rw [states, ih (by omega), ← hback]
    exact h.next_prev _ _

theorem Shifts.sum_ofBits (h : Shifts prev next input lost)
    (hcost : ∀ t s x, cost t (next s x) (lost s) = branch t s x) (x : Nat → Bool) (t : Nat) :
    (h.ofBits s₀ x n).sum cost t = bitsCost next branch s₀ x t := by
  induction t with
  | zero => rfl
  | succ t ih =>
    rw [Path.sum, bitsCost, ih]
    exact congrArg _ (hcost t _ _)

theorem Shifts.bitsCost_bits (h : Shifts prev next input lost)
    (hcost : ∀ t s x, cost t (next s x) (lost s) = branch t s x) (p : Path prev n) {t : Nat}
    (ht : t ≤ n) :
    bitsCost next branch (p.path 0) (p.bits input) t = p.sum cost t := by
  induction t with
  | zero => rfl
  | succ t ih =>
    have hback := p.back t ht
    have hlost := h.lost_prev (p.path (t + 1)) (p.choice t)
    have hnext := h.next_prev (p.path (t + 1)) (p.choice t)
    rw [hback] at hlost hnext
    rw [bitsCost, ih (by omega), h.states_bits p (by omega), Path.sum, ← hcost, Path.bits, hnext,
      hlost]

theorem states_congr (next : σ → Bool → σ) (s₀ : σ) {x y : Nat → Bool} {t : Nat}
    (h : ∀ i < t, x i = y i) : states next s₀ x t = states next s₀ y t := by
  induction t with
  | zero => rfl
  | succ t ih => rw [states, states, ih fun i hi => h i (by omega), h t (Nat.lt_succ_self t)]

theorem bitsCost_congr (next : σ → Bool → σ) (branch : Nat → σ → Bool → Nat) (s₀ : σ)
    {x y : Nat → Bool} {t : Nat} (h : ∀ i < t, x i = y i) :
    bitsCost next branch s₀ x t = bitsCost next branch s₀ y t := by
  induction t with
  | zero => rfl
  | succ t ih =>
    rw [bitsCost, bitsCost, ih fun i hi => h i (by omega),
      states_congr next s₀ fun i hi => h i (by omega), h t (Nat.lt_succ_self t)]

theorem bitsCost_le {m : Nat} (h : ∀ t s x, branch t s x ≤ m) (x : Nat → Bool) (t : Nat) :
    bitsCost next branch s₀ x t ≤ t * m := by
  induction t with
  | zero => exact Nat.zero_le _
  | succ t ih =>
    rw [bitsCost, Nat.succ_mul]
    exact Nat.add_le_add ih (h _ _ _)

/-- Once every state is reached, the cheaper of its two predecessors adds at most half of what
both would. -/
theorem Shifts.cheap_bits (hsh : Shifts prev next input lost)
    (hcost : ∀ t s x, cost t (next s x) (lost s) = branch t s x) {m B t₀ : Nat}
    (hpair : ∀ t s, cost t s false + cost t s true ≤ 2 * m)
    (hall : ∀ s, ∃ x, states next s₀ x t₀ = s ∧ bitsCost next branch s₀ x t₀ ≤ B) (k : Nat)
    (s : σ) : ∃ x, states next s₀ x (t₀ + k) = s ∧
      bitsCost next branch s₀ x (t₀ + k) ≤ B + k * m := by
  induction k generalizing s with
  | zero =>
    obtain ⟨x, hx, hle⟩ := hall s
    exact ⟨x, hx, by rw [Nat.zero_mul]; exact hle⟩
  | succ k ih =>
    have hless : ∃ b, cost (t₀ + k) s b ≤ m := by
      have h := hpair (t₀ + k) s
      by_cases hf : cost (t₀ + k) s false ≤ m
      · exact ⟨false, hf⟩
      · exact ⟨true, by omega⟩
    obtain ⟨b, hb⟩ := hless
    obtain ⟨x, hx, hle⟩ := ih (prev s b)
    let y : Nat → Bool := fun i => if i = t₀ + k then input s else x i
    have hyx : ∀ i < t₀ + k, y i = x i := fun i hi => if_neg (Nat.ne_of_lt hi)
    have hy : y (t₀ + k) = input s := if_pos rfl
    have hbranch : branch (t₀ + k) (prev s b) (input s) = cost (t₀ + k) s b := by
      rw [← hcost, hsh.next_prev, hsh.lost_prev]
    refine ⟨y, ?_, ?_⟩
    · rw [← Nat.add_assoc, states, states_congr next s₀ hyx, hx, hy, hsh.next_prev]
    · rw [← Nat.add_assoc, bitsCost, bitsCost_congr next branch s₀ hyx,
        states_congr next s₀ hyx, hx, hy, hbranch, Nat.succ_mul]
      omega

/-- The bits traced back from `s` lead from the start to `s`, and no bits that lead to a state
that is no better than `s` cost less. -/
theorem Shifts.traced_bits (hsh : Shifts prev next input lost)
    (hcost : ∀ t s x, cost t (next s x) (lost s) = branch t s x)
    (h : Keeps prev cap pm cost shift n) (hstart : StartsAt s₀ cap (pm 0)) (x : Nat → Bool)
    (hcheap : bitsCost next branch s₀ x n < cap) (hbest : pm n s ≤ pm n (states next s₀ x n)) :
    states next s₀
        ((traced prev (fun t => survivor prev (pm t) (cost t)) n s).bits input) n = s ∧
      ∀ y, pm n s ≤ pm n (states next s₀ y n) →
        bitsCost next branch s₀
            ((traced prev (fun t => survivor prev (pm t) (cost t)) n s).bits input) n ≤
          bitsCost next branch s₀ y n := by
  have hpath : (hsh.ofBits s₀ x n).sum cost n = bitsCost next branch s₀ x n :=
    hsh.sum_ofBits hcost x n
  rw [← hpath] at hcheap
  obtain ⟨hfirst, -⟩ := h.traced_spec hstart (hsh.ofBits s₀ x n) rfl hcheap hbest
  have hends := hsh.states_bits (traced prev (fun t => survivor prev (pm t) (cost t)) n s)
    (Nat.le_refl n)
  have hcosts := hsh.bitsCost_bits hcost
    (traced prev (fun t => survivor prev (pm t) (cost t)) n s) (Nat.le_refl n)
  rw [hfirst] at hends hcosts
  refine ⟨hends.trans (traced_last _ n s), fun y hy => ?_⟩
  rw [hcosts, ← hsh.sum_ofBits (n := n) hcost y n]
  exact h.traced_le hstart (hsh.ofBits s₀ x n) rfl hcheap hbest (hsh.ofBits s₀ y n) rfl hy

/-- As long as a metric is below `cap` it is the cost of the cheapest bits that lead to its
state. -/
theorem Shifts.metric_spec (hsh : Shifts prev next input lost)
    (hcost : ∀ t s x, cost t (next s x) (lost s) = branch t s x)
    (h : Keeps prev cap pm cost shift n) (hstart : StartsAt s₀ cap (pm 0)) (x : Nat → Bool)
    (hcheap : bitsCost next branch s₀ x n < cap) :
    (∃ y, states next s₀ y n = states next s₀ x n ∧
        bitsCost next branch s₀ y n = pm n (states next s₀ x n) + total shift n) ∧
      ∀ y, states next s₀ y n = states next s₀ x n →
        pm n (states next s₀ x n) + total shift n ≤ bitsCost next branch s₀ y n := by
  have hpath : (hsh.ofBits s₀ x n).sum cost n = bitsCost next branch s₀ x n :=
    hsh.sum_ofBits hcost x n
  rw [← hpath] at hcheap
  obtain ⟨hfirst, hsum⟩ := h.traced_spec hstart (hsh.ofBits s₀ x n) rfl hcheap (Nat.le_refl _)
  have hends := hsh.states_bits (traced prev (fun t => survivor prev (pm t) (cost t)) n
    (states next s₀ x n)) (Nat.le_refl n)
  have hcosts := hsh.bitsCost_bits hcost (traced prev (fun t => survivor prev (pm t) (cost t)) n
    (states next s₀ x n)) (Nat.le_refl n)
  have hend : (hsh.ofBits s₀ x n).path n = states next s₀ x n := rfl
  rw [hend] at hfirst hsum
  rw [hfirst] at hends hcosts
  refine ⟨⟨_, hends.trans (traced_last _ n _), hcosts.trans hsum⟩, fun y hy => ?_⟩
  have hle := h.le_sum (hsh.ofBits s₀ y n) (Nat.le_refl n)
  have hzero : pm 0 ((hsh.ofBits s₀ y n).path 0) = 0 := hstart.1
  have hlast : (hsh.ofBits s₀ y n).path n = states next s₀ x n := hy
  rw [hsh.sum_ofBits hcost, hzero, hlast, Nat.zero_add] at hle
  exact hle

end TetraBs.Viterbi
