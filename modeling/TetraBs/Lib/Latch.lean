import Mathlib.Data.List.Basic
import Mathlib.Data.Nat.Init
import Mathlib.Tactic.ByContra

/-! A toggle that is sampled through three registers by a clock of its own. Nothing here is about
TETRA. -/
namespace TetraBs.Toggle

/-- The registers, the first one sampled first. -/
structure Chain where
  first : Bool
  second : Bool
  last : Bool
deriving DecidableEq

def Chain.zero : Chain := ⟨false, false, false⟩

/-- One edge of the sampling clock. -/
def Chain.shift (c : Chain) (sample : Bool) : Chain := ⟨sample, c.first, c.second⟩

/-- A change of `tog` shows in the last register after `n` edges at most; `seen` are the values of
`tog` since the last sample, which may still be one of them. -/
structure Crossing (tog : Bool) (seen : List Bool) (c : Chain) (n : Nat) : Prop where
  le : n ≤ 4
  seen : n ≤ 3 → ∀ v ∈ seen, v = tog
  first : c.first = tog ↔ n ≤ 2
  second : c.second = tog ↔ n ≤ 1
  third : c.last = tog ↔ n = 0

variable {tog : Bool} {seen : List Bool} {c : Chain} {n : Nat}

theorem crossing_zero : Crossing false [false] .zero 0 := by
  refine ⟨by decide, ?_, by decide, by decide, by decide⟩
  intro _ v hv
  exact List.mem_singleton.1 hv

/-- The sample is either the value already or the old one for the last time. -/
theorem Crossing.edge (h : Crossing tog seen c n) {v : Bool} (hv : v ∈ seen) :
    ∃ n', n' ≤ n - 1 ∧ (n' = 0 ↔ n ≤ 1) ∧ Crossing tog [tog] (c.shift v) n' := by
  have hle := h.le
  have hnew : ∀ u ∈ [tog], u = tog := fun u hu => List.mem_singleton.1 hu
  by_cases hsample : v = tog
  · refine ⟨min (n - 1) 2, by omega, by omega, by omega, fun _ => hnew, ?_, ?_, ?_⟩
    · exact iff_of_true hsample (by omega)
    · exact h.first.trans (by omega)
    · exact h.second.trans (by omega)
  · have hn : n = 4 := by
      by_contra hne
      exact hsample (h.seen (by omega) v hv)
    refine ⟨3, by omega, by omega, by omega, fun _ => hnew, ?_, ?_, ?_⟩
    · exact iff_of_false hsample (by omega)
    · exact h.first.trans (by omega)
    · exact h.second.trans (by omega)

/-- A toggle that has come through starts again. -/
theorem Crossing.toggle (h : Crossing tog seen c 0) :
    Crossing (!tog) (seen ++ [!tog]) c 4 := by
  have hflip : ∀ b : Bool, b = tog → b ≠ !tog := by
    rintro b rfl
    cases b <;> decide
  refine ⟨Nat.le_refl 4, fun hn => absurd hn (by decide), ?_, ?_, ?_⟩
  · exact iff_of_false (hflip _ (h.first.2 (by decide))) (by decide)
  · exact iff_of_false (hflip _ (h.second.2 (by decide))) (by decide)
  · exact iff_of_false (hflip _ (h.third.2 rfl)) (by decide)

/-- The last two registers differ just before the change arrives in the last. -/
theorem Crossing.edge_detected (h : Crossing tog seen c n) :
    (c.second ^^ c.last) = true ↔ n = 1 := by
  have hdiffer : (c.second ^^ c.last) = true ↔ ¬(c.second = tog ↔ c.last = tog) := by
    cases c.second <;> cases c.last <;> cases tog <;> decide
  rw [hdiffer, h.second, h.third]
  omega

end TetraBs.Toggle

/-! Registers of a clocked design, seen as functions of the cycle: a one-place latch that is
taken and drained, and a sticky bit that is set and cleared. Nothing here is about TETRA. -/
namespace TetraBs.Latch
variable {α ι : Type*}

/-- A place that takes an offered value only when empty and holds it until it is drained. -/
structure Holds (full : Nat → Prop) (val : Nat → α) (take drain : Nat → Prop)
    (offer : Nat → α) : Prop where
  init : ¬ full 0
  taken : ∀ n, take n → ¬ full n ∧ full (n + 1) ∧ val (n + 1) = offer n
  drained : ∀ n, ¬ take n → drain n → ¬ full (n + 1)
  kept : ∀ n, ¬ take n → ¬ drain n → (full (n + 1) ↔ full n) ∧ val (n + 1) = val n

/-- What was taken in cycle `k` is still waiting in cycle `n`. -/
def Waiting (take drain : Nat → Prop) (n k : Nat) : Prop :=
  k < n ∧ take k ∧ ∀ j, k < j → j < n → ¬ drain j

theorem Waiting.succ {take drain : Nat → Prop} {n k : Nat} (h : Waiting take drain n k)
    (hd : ¬ drain n) : Waiting take drain (n + 1) k := by
  refine ⟨Nat.lt_succ_of_lt h.1, h.2.1, fun j hkj hj => ?_⟩
  rcases Nat.lt_succ_iff_lt_or_eq.1 hj with hlt | rfl
  · exact h.2.2 j hkj hlt
  · exact hd

theorem Waiting.of_take {take drain : Nat → Prop} {n : Nat} (h : take n) :
    Waiting take drain (n + 1) n :=
  ⟨Nat.lt_succ_self n, h, fun _ hkj hj => absurd hkj (Nat.not_lt.2 (Nat.lt_succ_iff.1 hj))⟩

theorem Waiting.of_succ {take drain : Nat → Prop} {n k : Nat}
    (h : Waiting take drain (n + 1) k) : k = n ∨ Waiting take drain n k ∧ ¬ drain n := by
  rcases Nat.lt_succ_iff_lt_or_eq.1 h.1 with hlt | rfl
  · exact .inr ⟨⟨hlt, h.2.1, fun j hkj hj => h.2.2 j hkj (Nat.lt_succ_of_lt hj)⟩,
      h.2.2 n hlt (Nat.lt_succ_self n)⟩
  · exact .inl rfl

section
variable {full : Nat → Prop} {val : Nat → α} {take drain : Nat → Prop} {offer : Nat → α}

theorem Holds.of_waiting (h : Holds full val take drain offer) {n k : Nat}
    (hw : Waiting take drain n k) : full n ∧ val n = offer k := by
  induction n with
  | zero => exact absurd hw.1 (Nat.not_lt_zero k)
  | succ n ih =>
    rcases hw.of_succ with rfl | ⟨hold, hd⟩
    · exact (h.taken k hw.2.1).2
    · obtain ⟨hfull, hval⟩ := ih hold
      have ht : ¬ take n := fun ht => (h.taken n ht).1 hfull
      obtain ⟨hkeep, hsame⟩ := h.kept n ht hd
      exact ⟨hkeep.2 hfull, hsame.trans hval⟩

theorem Holds.exists_waiting (h : Holds full val take drain offer) {n : Nat} (hf : full n) :
    ∃ k, Waiting take drain n k ∧ val n = offer k := by
  induction n with
  | zero => exact absurd hf h.init
  | succ n ih =>
    by_cases ht : take n
    · exact ⟨n, .of_take ht, (h.taken n ht).2.2⟩
    · by_cases hd : drain n
      · exact absurd hf (h.drained n ht hd)
      · obtain ⟨hkeep, hsame⟩ := h.kept n ht hd
        obtain ⟨k, hw, hval⟩ := ih (hkeep.1 hf)
        exact ⟨k, hw.succ hd, hsame.trans hval⟩

/-- The value a full latch holds is the one waiting in it. -/
theorem Holds.full_iff (h : Holds full val take drain offer) (P : α → Prop) (n : Nat) :
    full n ∧ P (val n) ↔ ∃ k, Waiting take drain n k ∧ P (offer k) := by
  constructor
  · rintro ⟨hf, hp⟩
    obtain ⟨k, hw, hval⟩ := h.exists_waiting hf
    exact ⟨k, hw, hval ▸ hp⟩
  · rintro ⟨k, hw, hp⟩
    obtain ⟨hf, hval⟩ := h.of_waiting hw
    exact ⟨hf, hval.symm ▸ hp⟩

end

/-- A sticky bit where a clear beats a set of the same cycle. -/
def ClearWins (bit set clear : Nat → ι → Prop) : Prop :=
  ∀ n b, bit (n + 1) b ↔ (bit n b ∨ set n b) ∧ ¬ clear n b

/-- Set always shows, only a clear without a set of the same cycle removes it, and what was
set stays until a later clear. -/
structure SetWins (bit set clear : Nat → ι → Prop) : Prop where
  shows : ∀ n b, set n b → bit (n + 1) b
  removed : ∀ n b, bit n b → ¬ bit (n + 1) b → clear n b ∧ ¬ set n b
  lasts : ∀ n m b, n < m → set n b → (∀ k, n < k → k < m → ¬ clear k b) → bit m b

theorem ClearWins.lasts {bit set clear : Nat → ι → Prop} (h : ClearWins bit set clear)
    {n m : Nat} {b : ι} (hb : bit n b) (hnm : n ≤ m)
    (hc : ∀ k, n ≤ k → k < m → ¬ clear k b) : bit m b := by
  induction m, hnm using Nat.le_induction with
  | base => exact hb
  | succ m hnm ih =>
    have hbit := ih fun k hnk hkm => hc k hnk (Nat.lt_succ_of_lt hkm)
    exact (h m b).2 ⟨.inl hbit, hc m hnm (Nat.lt_succ_self m)⟩

/-- The two priorities agree exactly where no bit is set and cleared in one cycle. -/
theorem ClearWins.setWins_iff {bit set clear : Nat → ι → Prop} (h : ClearWins bit set clear) :
    SetWins bit set clear ↔ ∀ n b, set n b → ¬ clear n b := by
  constructor
  · intro hs n b hset
    exact ((h n b).1 (hs.shows n b hset)).2
  · intro hno
    have hshows : ∀ n b, set n b → bit (n + 1) b := fun n b hset =>
      (h n b).2 ⟨.inr hset, hno n b hset⟩
    refine ⟨hshows, fun n b hb hgone => ?_, fun n m b hnm hset hc => ?_⟩
    · have hclear : clear n b := by
        by_contra hnc
        exact hgone ((h n b).2 ⟨.inl hb, hnc⟩)
      exact ⟨hclear, fun hset => hno n b hset hclear⟩
    · exact h.lasts (hshows n b hset) hnm fun k hnk hkm => hc k hnk hkm

end TetraBs.Latch
