import Mathlib.Algebra.GroupWithZero.Nat
import Mathlib.Data.List.Basic
import Mathlib.Order.Nat

/-! Hamming weight and distance of bit strings, and the search for the nearest of a numbered
family of candidates. -/
namespace TetraBs.Hamming

def weight (v : List Bool) : Nat := (v.map Bool.toNat).sum

def add (v w : List Bool) : List Bool := List.zipWith Bool.xor v w

@[simp] theorem weight_nil : weight [] = 0 := rfl

@[simp] theorem weight_cons (b : Bool) (v : List Bool) : weight (b :: v) = b.toNat + weight v := by
  simp [weight]

theorem weight_append (v w : List Bool) : weight (v ++ w) = weight v + weight w := by
  simp [weight]

theorem weight_eq_zero {v : List Bool} : weight v = 0 ↔ ∀ b ∈ v, b = false := by
  induction v with
  | nil => simp
  | cons b v ih => cases b <;> simp [ih]

@[simp] theorem add_length (v w : List Bool) : (add v w).length = min v.length w.length := by
  simp [add]

theorem add_comm (v w : List Bool) : add v w = add w v :=
  List.zipWith_comm_of_comm Bool.xor_comm

theorem add_cons (b c : Bool) (v w : List Bool) : add (b :: v) (c :: w) = (b ^^ c) :: add v w :=
  rfl

theorem toNat_xor_le (b c : Bool) : (b ^^ c).toNat ≤ b.toNat + c.toNat := by
  cases b <;> cases c <;> decide

theorem weight_add_le (v w : List Bool) : weight (add v w) ≤ weight v + weight w := by
  induction v generalizing w with
  | nil => simp [add]
  | cons b v ih => cases w with
    | nil => simp [add]
    | cons c w =>
      have hbit := toNat_xor_le b c
      have hrest := ih w
      simp only [add_cons, weight_cons]
      omega

/-- The second word is at most as heavy as the first and their sum together. -/
theorem weight_le_add (v w : List Bool) (h : v.length = w.length) :
    weight w ≤ weight v + weight (add v w) := by
  induction v generalizing w with
  | nil =>
    cases w with
    | nil => simp [add]
    | cons c w => cases h
  | cons b v ih => cases w with
    | nil => cases h
    | cons c w =>
      have hbit : c.toNat ≤ b.toNat + (b ^^ c).toNat := by cases b <;> cases c <;> decide
      have hrest := ih w (by simpa using h)
      simp only [add_cons, weight_cons]
      omega

theorem add_take (v w : List Bool) (n : Nat) : (add v w).take n = add (v.take n) (w.take n) :=
  List.take_zipWith

theorem add_drop (v w : List Bool) (n : Nat) : (add v w).drop n = add (v.drop n) (w.drop n) :=
  List.drop_zipWith

/-- Sums pair up in either order. -/
theorem add_add_add (a b c d : List Bool) :
    add (add a b) (add c d) = add (add a c) (add b d) := by
  induction a generalizing b c d with
  | nil => simp [add]
  | cons x a ih => cases b with
    | nil => simp [add]
    | cons y b => cases c with
      | nil => simp [add]
      | cons z c => cases d with
        | nil => simp [add]
        | cons t d =>
          have hbit : ((x ^^ y) ^^ (z ^^ t)) = ((x ^^ z) ^^ (y ^^ t)) := by
            cases x <;> cases y <;> cases z <;> cases t <;> rfl
          simp only [add_cons, ih, hbit]

/-! The bits of a bit vector, lowest first. -/

variable {n : Nat}

def bits (v : BitVec n) : List Bool := (List.range n).map v.getLsbD

@[simp] theorem bits_length (v : BitVec n) : (bits v).length = n := by simp [bits]

theorem bits_xor (v w : BitVec n) : bits (v ^^^ w) = add (bits v) (bits w) := by
  simp [bits, add, List.zipWith_map, List.zipWith_self]

@[simp] theorem weight_bits_zero : weight (bits 0#n) = 0 := by
  simp [weight_eq_zero, bits]

theorem weight_xor_le (v w : BitVec n) :
    weight (bits (v ^^^ w)) ≤ weight (bits v) + weight (bits w) := by
  rw [bits_xor]
  exact weight_add_le (bits v) (bits w)

/-! The search. -/

/-- The best of the first `k` candidates and its distance, the first of equals; it starts from
candidate 0 at the distance `far`. -/
def nearest (dist : Nat → Nat) (far : Nat) : Nat → Nat × Nat
  | 0 => (0, far)
  | k + 1 =>
    let best := nearest dist far k
    if dist k < best.2 then (k, dist k) else best

variable (dist : Nat → Nat) (far : Nat)

theorem nearest_le {k j : Nat} (hj : j < k) : (nearest dist far k).2 ≤ dist j := by
  induction k with
  | zero => omega
  | succ k ih =>
    simp only [nearest]
    by_cases hjk : j = k
    · subst hjk
      split <;> omega
    · have hbest := ih (by omega)
      split <;> omega

theorem nearest_spec (k : Nat) : nearest dist far k = (0, far) ∨
    ∃ j < k, nearest dist far k = (j, dist j) := by
  induction k with
  | zero => exact .inl rfl
  | succ k ih =>
    simp only [nearest]
    split
    · exact .inr ⟨k, by omega, rfl⟩
    · obtain h | ⟨j, hj, h⟩ := ih
      · exact .inl h
      · exact .inr ⟨j, by omega, h⟩

/-- Where no two candidates are within `t`, the search returns a candidate at a distance of at most
`t` exactly if the candidate is that near. -/
theorem nearest_within_iff {t k j : Nat} (hj : j < k) (hfar : t < far)
    (hone : ∀ i < k, ∀ j < k, dist i ≤ t → dist j ≤ t → i = j) :
    (nearest dist far k).1 = j ∧ (nearest dist far k).2 ≤ t ↔ dist j ≤ t := by
  constructor
  · rintro ⟨hbest, hnear⟩
    obtain h | ⟨i, -, h⟩ := nearest_spec dist far k
    · rw [h] at hnear
      omega
    · rw [h] at hbest hnear
      exact hbest ▸ hnear
  · intro hnear
    have hle := nearest_le dist far hj
    refine ⟨?_, hle.trans hnear⟩
    obtain h | ⟨i, hi, h⟩ := nearest_spec dist far k
    · rw [h] at hle
      omega
    · rw [h] at hle ⊢
      exact hone i hi j hj (hle.trans hnear) hnear

end TetraBs.Hamming

/-! Reed-Muller codes by the `(u | u + v)` construction and their least weight. -/
namespace TetraBs.ReedMuller
open TetraBs.Hamming

/-- The words of `RM(r, m)`: the front half lies in `RM(r, m - 1)`, the sum of the halves in
`RM(r - 1, m - 1)`. -/
def Codeword : Nat → Nat → List Bool → Prop
  | _, 0, w => w.length = 1
  | 0, m + 1, w =>
    w.length = 2 ^ (m + 1) ∧ Codeword 0 m (w.take (2 ^ m)) ∧ w.drop (2 ^ m) = w.take (2 ^ m)
  | r + 1, m + 1, w =>
    w.length = 2 ^ (m + 1) ∧ Codeword (r + 1) m (w.take (2 ^ m)) ∧
      Codeword r m (add (w.take (2 ^ m)) (w.drop (2 ^ m)))

instance Codeword.decidable : (r m : Nat) → (w : List Bool) → Decidable (Codeword r m w)
  | _, 0, w => inferInstanceAs (Decidable (w.length = 1))
  | 0, m + 1, w =>
    have := Codeword.decidable 0 m (w.take (2 ^ m))
    inferInstanceAs (Decidable (_ ∧ _ ∧ _))
  | r + 1, m + 1, w =>
    have := Codeword.decidable (r + 1) m (w.take (2 ^ m))
    have := Codeword.decidable r m (add (w.take (2 ^ m)) (w.drop (2 ^ m)))
    inferInstanceAs (Decidable (_ ∧ _ ∧ _))

theorem Codeword.length {r m : Nat} {w : List Bool} (h : Codeword r m w) : w.length = 2 ^ m := by
  cases m with
  | zero =>
    cases r <;> exact h
  | succ m => cases r with
    | zero => exact h.1
    | succ r => exact h.1

theorem Codeword.add {r m : Nat} {v w : List Bool} (hv : Codeword r m v) (hw : Codeword r m w) :
    Codeword r m (add v w) := by
  induction m generalizing r v w with
  | zero =>
    have hlv := hv.length
    have hlw := hw.length
    cases r <;> simp [Codeword, hlv, hlw]
  | succ m ih =>
    have hlen : (Hamming.add v w).length = 2 ^ (m + 1) := by simp [hv.length, hw.length]
    cases r with
    | zero =>
      obtain ⟨-, hvf, hvb⟩ := hv
      obtain ⟨-, hwf, hwb⟩ := hw
      refine ⟨hlen, ?_, ?_⟩
      · rw [add_take]
        exact ih hvf hwf
      · rw [add_take, add_drop, hvb, hwb]
    | succ r =>
      obtain ⟨-, hvf, hvs⟩ := hv
      obtain ⟨-, hwf, hws⟩ := hw
      refine ⟨hlen, ?_, ?_⟩
      · rw [add_take]
        exact ih hvf hwf
      · rw [add_take, add_drop, add_add_add]
        exact ih hvs hws

/-- The least weight of the non-zero words. -/
theorem Codeword.weight_ge {r m : Nat} {w : List Bool} (h : Codeword r m w) (hr : r ≤ m)
    (hne : weight w ≠ 0) : 2 ^ (m - r) ≤ weight w := by
  induction m generalizing r w with
  | zero => simpa using Nat.one_le_iff_ne_zero.2 hne
  | succ m ih =>
    have hsplit : weight w = weight (w.take (2 ^ m)) + weight (w.drop (2 ^ m)) := by
      rw [← weight_append, List.take_append_drop]
    cases r with
    | zero =>
      obtain ⟨-, hfront, hback⟩ := h
      rw [hback] at hsplit
      have hhalf := ih hfront (Nat.zero_le m) (by omega)
      rw [Nat.sub_zero, Nat.pow_succ] at *
      omega
    | succ r =>
      obtain ⟨hlen, hfront, hsum⟩ := h
      have hexp : m + 1 - (r + 1) = m - r := by omega
      rw [hexp]
      by_cases hzero : weight (Hamming.add (w.take (2 ^ m)) (w.drop (2 ^ m))) = 0
      · -- equal halves: twice the front, unless the code holds every word
        have hle : weight (w.drop (2 ^ m)) ≤ weight (w.take (2 ^ m)) := by
          have := weight_le_add (w.take (2 ^ m)) (w.drop (2 ^ m)) (by simp [hlen]; omega)
          omega
        have hge : weight (w.take (2 ^ m)) ≤ weight (w.drop (2 ^ m)) := by
          have := weight_le_add (w.drop (2 ^ m)) (w.take (2 ^ m)) (by simp [hlen]; omega)
          rw [add_comm] at this
          omega
        by_cases htop : r = m
        · subst htop
          simpa using Nat.one_le_iff_ne_zero.2 hne
        · have hhalf := ih hfront (by omega) (by omega)
          have hdouble : 2 ^ (m - r) = 2 ^ (m - (r + 1)) * 2 := by
            rw [← Nat.pow_succ]
            congr 1
            omega
          omega
      · have hge := ih hsum (by omega) hzero
        have hle := weight_add_le (w.take (2 ^ m)) (w.drop (2 ^ m))
        omega

end TetraBs.ReedMuller
