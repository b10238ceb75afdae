import Mathlib.Algebra.Order.BigOperators.Group.Finset
import Mathlib.Algebra.Order.Ring.Abs
import Mathlib.Data.BitVec
import Mathlib.Tactic.Linarith
import Mathlib.Tactic.Ring

/-! Two's complement registers that do not overflow, read as integers. Nothing here is about
TETRA. -/
namespace TetraBs.Signed
variable {w m k : ℕ}

/-- `x` is the value of a register of `w` bits. -/
def Fits (w : ℕ) (x : ℤ) : Prop := -2 ^ w ≤ 2 * x ∧ 2 * x < 2 ^ w

theorem fits_toInt (x : BitVec w) : Fits w x.toInt := by
  have hlo := BitVec.le_two_mul_toInt (x := x)
  have hhi := BitVec.two_mul_toInt_lt (x := x)
  exact ⟨hlo, hhi⟩

theorem Fits.mono {x : ℤ} (h : Fits w x) (hm : w ≤ m) : Fits m x := by
  have hp : (2 : ℤ) ^ w ≤ 2 ^ m := pow_le_pow_right₀ (by norm_num) hm
  obtain ⟨hlo, hhi⟩ := h
  exact ⟨by linarith, by linarith⟩

theorem Fits.bmod {x : ℤ} (h : Fits w x) : x.bmod (2 ^ w) = x := by
  obtain ⟨hlo, hhi⟩ := h
  apply Int.bmod_eq_of_le_mul_two
  · push_cast
    linarith
  · push_cast
    linarith

theorem toInt_add {x y : BitVec w} (h : Fits w (x.toInt + y.toInt)) :
    (x + y).toInt = x.toInt + y.toInt := by
  rw [BitVec.toInt_add, h.bmod]

theorem toInt_sub {x y : BitVec w} (h : Fits w (x.toInt - y.toInt)) :
    (x - y).toInt = x.toInt - y.toInt := by
  rw [BitVec.toInt_sub, h.bmod]

theorem toInt_mul {x y : BitVec w} (h : Fits w (x.toInt * y.toInt)) :
    (x * y).toInt = x.toInt * y.toInt := by
  rw [BitVec.toInt_mul, h.bmod]

theorem toInt_ofInt {x : ℤ} (h : Fits w x) : (BitVec.ofInt w x).toInt = x := by
  rw [BitVec.toInt_ofInt, h.bmod]

theorem toInt_signExtend (x : BitVec w) (h : w ≤ m) : (x.signExtend m).toInt = x.toInt :=
  BitVec.toInt_signExtend_of_le h

theorem toInt_sshiftRight (x : BitVec w) (n : ℕ) : (x.sshiftRight n).toInt = x.toInt / 2 ^ n := by
  rw [BitVec.toInt_sshiftRight, Int.shiftRight_eq_div_pow]
  push_cast
  rfl

theorem Fits.div {x : ℤ} (h : Fits (k + m) x) (hm : 0 < m) : Fits m (x / 2 ^ k) := by
  obtain ⟨n, rfl⟩ : ∃ n, m = n + 1 := ⟨m - 1, by omega⟩
  obtain ⟨hlo, hhi⟩ := h
  have hk : (0 : ℤ) < 2 ^ k := by positivity
  have hsplit : (2 : ℤ) ^ (k + (n + 1)) = 2 * (2 ^ n * 2 ^ k) := by ring
  rw [hsplit] at hlo hhi
  have hlow : -2 ^ n ≤ x / 2 ^ k := (Int.le_ediv_iff_mul_le hk).2 (by linarith)
  have hhigh : x / 2 ^ k < 2 ^ n := (Int.ediv_lt_iff_lt_mul hk).2 (by linarith)
  constructor
  · rw [pow_succ]
    linarith
  · rw [pow_succ]
    linarith

/-- The upper bits of a register are its value shifted down. -/
theorem toInt_top {x : BitVec w} (hw : k + m = w) (hm : 0 < m) :
    (x.extractLsb' k m).toInt = x.toInt / 2 ^ k := by
  subst hw
  obtain ⟨c, hc⟩ : ∃ c : ℤ, x.toInt = (x.toNat : ℤ) - c * 2 ^ m * 2 ^ k := by
    rw [BitVec.toInt_eq_toNat_cond]
    split
    · exact ⟨0, by ring⟩
    · refine ⟨1, ?_⟩
      push_cast
      ring
  have hfits : Fits m (x.toInt / 2 ^ k) := (fits_toInt x).div hm
  have hshift : ((x.toNat >>> k : ℕ) : ℤ) = (x.toNat : ℤ) / 2 ^ k := by
    rw [Nat.shiftRight_eq_div_pow]
    push_cast
    rfl
  have hdiv : x.toInt / 2 ^ k = (x.toNat : ℤ) / 2 ^ k - c * 2 ^ m := by
    rw [hc]
    exact Int.sub_mul_ediv_right _ _ (by positivity)
  have hmod : ((x.toNat : ℤ) / 2 ^ k - c * 2 ^ m).bmod (2 ^ m) =
      ((x.toNat : ℤ) / 2 ^ k).bmod (2 ^ m) := by
    have hsub := Int.sub_mul_bmod_self_right ((x.toNat : ℤ) / 2 ^ k) c (2 ^ m)
    push_cast at hsub
    exact hsub
  rw [BitVec.toInt_extractLsb', hshift, ← hmod, ← hdiv, hfits.bmod]

theorem abs_mul_le {a b A B : ℤ} (ha : |a| ≤ A) (hb : |b| ≤ B) : |a * b| ≤ A * B := by
  rw [abs_mul]
  exact mul_le_mul ha hb (abs_nonneg b) ((abs_nonneg a).trans ha)

/-- An accumulator with room for `t + 1` products of size `B` adds up the first `t + 1` exactly. -/
theorem toInt_accumulate {acc prod : BitVec w} {p : ℕ → ℤ} {B : ℤ} {t : ℕ}
    (hacc : acc.toInt = ∑ j ∈ Finset.range t, p j) (hprod : prod.toInt = p t)
    (hB : ∀ j, |p j| ≤ B) (hroom : 2 * ((t + 1) * B) < 2 ^ w) :
    (acc + prod).toInt = ∑ j ∈ Finset.range (t + 1), p j := by
  have hsum : |∑ j ∈ Finset.range (t + 1), p j| ≤ (t + 1) * B := by
    refine (Finset.abs_sum_le_sum_abs _ _).trans ?_
    refine (Finset.sum_le_card_nsmul _ _ B fun j _ => hB j).trans_eq ?_
    rw [Finset.card_range, nsmul_eq_mul]
    push_cast
    rfl
  obtain ⟨hlow, hhigh⟩ := abs_le.1 hsum
  have htotal : acc.toInt + prod.toInt = ∑ j ∈ Finset.range (t + 1), p j := by
    rw [Finset.sum_range_succ, hacc, hprod]
  rw [toInt_add, htotal]
  rw [htotal]
  exact ⟨by linarith, by linarith⟩

theorem abs_toInt_le (x : BitVec w) : |x.toInt| ≤ 2 ^ (w - 1) :=
  abs_le.2 ⟨BitVec.le_toInt x, BitVec.toInt_lt.le⟩

/-- The value nearest to `x` that a register of `m` bits holds. -/
def clamp (m : ℕ) (x : ℤ) : ℤ := max (-2 ^ (m - 1)) (min x (2 ^ (m - 1) - 1))

/-- What a register of `m` bits takes of a wider one: its lower bits if the bits above them all
repeat the sign, else the end of the range on the side of the sign. -/
def saturate (m : ℕ) (x : BitVec w) : BitVec m :=
  let guard := x.extractLsb' (m - 1) (w - m + 1)
  if guard = BitVec.allOnes _ ∨ guard = 0#_ then x.setWidth m
  else if x.msb then BitVec.intMin m else BitVec.intMax m

theorem fits_iff (hm : 0 < m) (x : ℤ) : Fits m x ↔ -2 ^ (m - 1) ≤ x ∧ x < 2 ^ (m - 1) := by
  have hpow : (2 : ℤ) ^ m = 2 * 2 ^ (m - 1) := by
    rw [← pow_succ', Nat.sub_add_cancel hm]
  rw [Fits, hpow]
  constructor
  · rintro ⟨hlo, hhi⟩
    exact ⟨by linarith, by linarith⟩
  · rintro ⟨hlo, hhi⟩
    exact ⟨by linarith, by linarith⟩

theorem fits_iff_ediv (hm : 0 < m) (x : ℤ) :
    Fits m x ↔ x / 2 ^ (m - 1) = -1 ∨ x / 2 ^ (m - 1) = 0 := by
  have hpos : (0 : ℤ) < 2 ^ (m - 1) := by positivity
  have hlow : -1 ≤ x / 2 ^ (m - 1) ↔ -2 ^ (m - 1) ≤ x := by
    rw [Int.le_ediv_iff_mul_le hpos, neg_one_mul]
  have hhigh : x / 2 ^ (m - 1) < 1 ↔ x < 2 ^ (m - 1) := by
    rw [Int.ediv_lt_iff_lt_mul hpos, one_mul]
  rw [fits_iff hm, ← hlow, ← hhigh]
  omega

theorem clamp_of_fits (hm : 0 < m) {x : ℤ} (h : Fits m x) : clamp m x = x := by
  obtain ⟨hlo, hhi⟩ := (fits_iff hm x).1 h
  rw [clamp, min_eq_left (by linarith), max_eq_right hlo]

theorem clamp_of_neg {x : ℤ} (h : ¬Fits m x) (hm : 0 < m) (hneg : x < 0) :
    clamp m x = -2 ^ (m - 1) := by
  have hpos : (0 : ℤ) < 2 ^ (m - 1) := by positivity
  have hlow : x ≤ -2 ^ (m - 1) := by
    by_contra hno
    exact h ((fits_iff hm x).2 ⟨by linarith, by linarith⟩)
  exact max_eq_left ((min_le_left _ _).trans hlow)

theorem clamp_of_nonneg {x : ℤ} (h : ¬Fits m x) (hm : 0 < m) (hnonneg : 0 ≤ x) :
    clamp m x = 2 ^ (m - 1) - 1 := by
  have hpos : (0 : ℤ) < 2 ^ (m - 1) := by positivity
  have hhigh : 2 ^ (m - 1) ≤ x := by
    by_contra hno
    exact h ((fits_iff hm x).2 ⟨by linarith, by linarith⟩)
  rw [clamp, min_eq_right (by linarith), max_eq_right (by linarith)]

theorem fits_clamp (hm : 0 < m) (x : ℤ) : Fits m (clamp m x) := by
  have hpos : (0 : ℤ) < 2 ^ (m - 1) := by positivity
  have hhigh : clamp m x ≤ 2 ^ (m - 1) - 1 := max_le (by linarith) (min_le_right _ _)
  exact (fits_iff hm _).2 ⟨le_max_left _ _, by linarith⟩

theorem toInt_setWidth_of_fits {x : BitVec w} (hw : m ≤ w) (h : Fits m x.toInt) :
    (x.setWidth m).toInt = x.toInt := by
  rw [← BitVec.signExtend_eq_setWidth_of_le x hw,
    BitVec.toInt_signExtend_eq_toInt_bmod_of_le x hw, h.bmod]

/-- The bits above all repeat the sign where the value fits. -/
theorem guard_iff (x : BitVec w) (hm : 0 < m) (hw : m ≤ w) :
    (x.extractLsb' (m - 1) (w - m + 1) = BitVec.allOnes _ ∨
      x.extractLsb' (m - 1) (w - m + 1) = 0#_) ↔ Fits m x.toInt := by
  have hguard : (x.extractLsb' (m - 1) (w - m + 1)).toInt = x.toInt / 2 ^ (m - 1) :=
    toInt_top (by omega) (by omega)
  have hones : (BitVec.allOnes (w - m + 1)).toInt = -1 := by
    rw [BitVec.toInt_allOnes, if_pos (by omega)]
  have hzero : (0#(w - m + 1)).toInt = 0 := BitVec.toInt_zero
  rw [fits_iff_ediv hm, ← hguard, ← hones, ← hzero]
  constructor
  · rintro (h | h)
    · exact Or.inl (congrArg BitVec.toInt h)
    · exact Or.inr (congrArg BitVec.toInt h)
  · rintro (h | h)
    · exact Or.inl (BitVec.eq_of_toInt_eq h)
    · exact Or.inr (BitVec.eq_of_toInt_eq h)

/-- Saturation keeps a value as near as it can. -/
theorem toInt_saturate (x : BitVec w) (hm : 0 < m) (hw : m ≤ w) :
    (saturate m x).toInt = clamp m x.toInt := by
  unfold saturate
  simp only
  by_cases hfits : Fits m x.toInt
  · rw [if_pos ((guard_iff x hm hw).2 hfits), toInt_setWidth_of_fits hw hfits,
      clamp_of_fits hm hfits]
  · rw [if_neg (mt (guard_iff x hm hw).1 hfits), BitVec.msb_eq_toInt]
    by_cases hneg : x.toInt < 0
    · rw [decide_eq_true hneg, if_pos rfl, BitVec.toInt_intMin_of_pos hm,
        clamp_of_neg hfits hm hneg]
    · rw [decide_eq_false hneg, if_neg Bool.false_ne_true, BitVec.toInt_intMax,
        clamp_of_nonneg hfits hm (not_lt.1 hneg)]

end TetraBs.Signed
