import Mathlib.Algebra.BigOperators.Fin
import Mathlib.Analysis.SpecialFunctions.Trigonometric.Bounds
import Mathlib.Tactic.Linarith

/-! Vectoring by micro-rotations in integers: step `i` turns a vector towards the first axis by an
angle whose tangent is near `2⁻ⁱ`, with shifts that round down. Nothing here is about TETRA. -/
namespace TetraBs.Cordic
open Complex (I)

/-- The side of the axis that the vector is on. -/
def side (y : ℤ) : ℤ := if 0 ≤ y then 1 else -1

def micro (i : ℕ) (p : ℤ × ℤ) : ℤ × ℤ :=
  (p.1 + side p.2 * (p.2 / 2 ^ i), p.2 - side p.2 * (p.1 / 2 ^ i))

def rotated (p : ℤ × ℤ) : ℕ → ℤ × ℤ
  | 0 => p
  | n + 1 => micro n (rotated p n)

/-- The angle that the first `n` steps took off, by a table of angles. -/
def turned {R : Type*} [CommRing R] (a : ℕ → R) (p : ℤ × ℤ) : ℕ → R
  | 0 => 0
  | n + 1 => turned a p n + side (rotated p n).2 * a n

/-! Sizes. -/

theorem side_mul_div (y : ℤ) (i : ℕ) :
    0 ≤ side y * (y / 2 ^ i) ∧ 2 ^ i * (side y * (y / 2 ^ i)) ≤ |y| + 2 ^ i := by
  have hpos : (0 : ℤ) < 2 ^ i := by positivity
  have hdiv := Int.mul_ediv_add_emod y (2 ^ i)
  have hrem := Int.emod_nonneg y hpos.ne'
  have hlt := Int.emod_lt_of_pos y hpos
  rw [side]
  by_cases hy : 0 ≤ y
  · rw [if_pos hy, abs_of_nonneg hy, one_mul]
    exact ⟨Int.ediv_nonneg hy hpos.le, by linarith⟩
  · rw [if_neg hy, abs_of_neg (by omega)]
    have hneg : y / 2 ^ i < 0 := Int.ediv_neg_of_neg_of_pos (by omega) hpos
    exact ⟨by linarith, by linarith⟩

theorem le_micro (i : ℕ) (p : ℤ × ℤ) : p.1 ≤ (micro i p).1 :=
  le_add_of_nonneg_right (side_mul_div p.2 i).1

theorem le_rotated (p : ℤ × ℤ) (n : ℕ) : p.1 ≤ (rotated p n).1 := by
  induction n with
  | zero => exact le_refl _
  | succ n ih => exact ih.trans (le_micro n _)

theorem rotated_one_le (p : ℤ × ℤ) (n : ℕ) : (rotated p 1).1 ≤ (rotated p (n + 1)).1 := by
  induction n with
  | zero => exact le_refl _
  | succ n ih => exact ih.trans (le_micro (n + 1) _)

theorem rotated_one (p : ℤ × ℤ) (hx : 0 ≤ p.1) :
    (rotated p 1).1 = p.1 + |p.2| ∧ |(rotated p 1).2| ≤ (rotated p 1).1 := by
  have hone : rotated p 1 = (p.1 + side p.2 * p.2, p.2 - side p.2 * p.1) := by
    rw [rotated, rotated, micro, pow_zero, Int.ediv_one, Int.ediv_one]
  rw [hone, side]
  by_cases hy : 0 ≤ p.2
  · rw [if_pos hy, abs_of_nonneg hy, one_mul, one_mul]
    exact ⟨rfl, abs_le.2 ⟨by linarith, by linarith⟩⟩
  · rw [if_neg hy, abs_of_neg (not_le.1 hy)]
    exact ⟨by ring, abs_le.2 ⟨by linarith, by linarith⟩⟩

/-- What is left of the second coordinate. -/
theorem residue (p : ℤ × ℤ) (hx : 0 ≤ p.1) (n : ℕ) :
    2 ^ n * |(rotated p (n + 1)).2| ≤ (rotated p (n + 1)).1 + n * 2 ^ n := by
  induction n with
  | zero =>
    rw [pow_zero, one_mul, Nat.cast_zero, zero_mul, add_zero]
    exact (rotated_one p hx).2
  | succ n ih =>
    have hle := le_micro (n + 1) (rotated p (n + 1))
    rw [rotated]
    generalize rotated p (n + 1) = w at ih hle ⊢
    have hpos : (0 : ℤ) < 2 ^ (n + 1) := by positivity
    have hdiv := Int.mul_ediv_add_emod w.1 (2 ^ (n + 1))
    have hrem := Int.emod_nonneg w.1 hpos.ne'
    have hlt := Int.emod_lt_of_pos w.1 hpos
    have hpow : (2 : ℤ) ^ (n + 1) = 2 * 2 ^ n := pow_succ' 2 n
    have habs : 2 ^ (n + 1) * |(micro (n + 1) w).2| =
        |2 ^ (n + 1) * w.2 - side w.2 * (2 ^ (n + 1) * (w.1 / 2 ^ (n + 1)))| := by
      rw [micro, ← abs_of_pos hpos, ← abs_mul, abs_of_pos hpos]
      congr 1
      ring
    have hx0 : (0 : ℤ) ≤ 2 ^ n * |w.2| := by positivity
    have hn0 : (0 : ℤ) ≤ n * 2 ^ n := by positivity
    rw [habs]
    push_cast
    refine abs_le.2 ?_
    rw [side]
    by_cases hy : 0 ≤ w.2
    · rw [if_pos hy]
      rw [abs_of_nonneg hy] at ih hx0
      have hprod : 2 ^ (n + 1) * w.2 = 2 * (2 ^ n * w.2) := by rw [hpow, mul_assoc]
      have hn : ((n : ℤ) + 1) * 2 ^ (n + 1) = 2 * (n * 2 ^ n) + 2 ^ (n + 1) := by rw [hpow]; ring
      rw [hprod, hn]
      constructor <;> linarith
    · rw [if_neg hy]
      rw [abs_of_neg (not_le.1 hy)] at ih hx0
      have hprod : 2 ^ (n + 1) * w.2 = -(2 * (2 ^ n * -w.2)) := by rw [hpow]; ring
      have hn : ((n : ℤ) + 1) * 2 ^ (n + 1) = 2 * (n * 2 ^ n) + 2 ^ (n + 1) := by rw [hpow]; ring
      rw [hprod, hn]
      constructor <;> linarith

/-- A bound on the first coordinate of vectors whose coordinates are at most `B`. -/
def reach (B : ℤ) : ℕ → ℤ
  | 0 => B
  | 1 => 2 * B
  | n + 2 => reach B (n + 1) + (reach B (n + 1) / 2 ^ n + n) / 2 ^ (n + 1) + 1

theorem abs_rotated_le (p : ℤ × ℤ) (hx : 0 ≤ p.1) (n : ℕ) :
    |(rotated p (n + 1)).2| ≤ (rotated p (n + 1)).1 / 2 ^ n + n := by
  have hpos : (0 : ℤ) < 2 ^ n := by positivity
  have hdiv : ((rotated p (n + 1)).1 + n * 2 ^ n) / 2 ^ n =
      (rotated p (n + 1)).1 / 2 ^ n + n := Int.add_mul_ediv_right _ _ hpos.ne'
  rw [← hdiv, Int.le_ediv_iff_mul_le hpos, mul_comm]
  exact residue p hx n

theorem rotated_le_reach {p : ℤ × ℤ} {B : ℤ} (hx : 0 ≤ p.1) (hB : p.1 ≤ B) (hy : |p.2| ≤ B)
    (n : ℕ) : (rotated p n).1 ≤ reach B n := by
  induction n with
  | zero => exact hB
  | succ n ih =>
    cases n with
    | zero =>
      rw [(rotated_one p hx).1, reach]
      linarith
    | succ n =>
      have hres := abs_rotated_le p hx n
      have hstep := (side_mul_div (rotated p (n + 1)).2 (n + 1)).2
      have hpos : (0 : ℤ) < 2 ^ n := by positivity
      have hpos' : (0 : ℤ) < 2 ^ (n + 1) := by positivity
      have hshift : side (rotated p (n + 1)).2 * ((rotated p (n + 1)).2 / 2 ^ (n + 1)) ≤
          (reach B (n + 1) / 2 ^ n + n) / 2 ^ (n + 1) + 1 := by
        have hmono : (rotated p (n + 1)).1 / 2 ^ n ≤ reach B (n + 1) / 2 ^ n :=
          Int.ediv_le_ediv hpos ih
        have hsum : (reach B (n + 1) / 2 ^ n + n) / 2 ^ (n + 1) + 1 =
            (reach B (n + 1) / 2 ^ n + n + 1 * 2 ^ (n + 1)) / 2 ^ (n + 1) :=
          (Int.add_mul_ediv_right _ _ hpos'.ne').symm
        rw [hsum, Int.le_ediv_iff_mul_le hpos', mul_comm]
        linarith
      rw [rotated, micro, reach]
      linarith

/-! Directions. -/

noncomputable def vec (p : ℤ × ℤ) : ℂ := ⟨p.1, p.2⟩

noncomputable def unit (φ : ℝ) : ℂ := Complex.exp (φ * I)

theorem unit_eq (φ : ℝ) : unit φ = ⟨Real.cos φ, Real.sin φ⟩ := by
  apply Complex.ext
  · exact Complex.exp_ofReal_mul_I_re φ
  · exact Complex.exp_ofReal_mul_I_im φ

theorem norm_unit (φ : ℝ) : ‖unit φ‖ = 1 := Complex.norm_exp_ofReal_mul_I φ

theorem unit_add (φ ψ : ℝ) : unit (φ + ψ) = unit φ * unit ψ := by
  rw [unit, unit, unit, ← Complex.exp_add, Complex.ofReal_add, add_mul]

section
variable (θ : ℕ → ℝ)

/-- What a step adds to the length, and to the side. -/
noncomputable def gain (i : ℕ) : ℝ := Real.cos (θ i) + Real.sin (θ i) / 2 ^ i
noncomputable def slip (i : ℕ) : ℝ := Real.sin (θ i) - Real.cos (θ i) / 2 ^ i

noncomputable def gains (n : ℕ) : ℝ := ∏ i ∈ Finset.range n, gain θ i

theorem side_cast (y : ℤ) : (side y : ℝ) = 1 ∨ (side y : ℝ) = -1 := by
  rw [side]
  split
  · exact Or.inl Int.cast_one
  · exact Or.inr (by rw [Int.cast_neg, Int.cast_one])

/-- A step rounds each coordinate by less than 1. -/
theorem exists_micro (i : ℕ) (p : ℤ × ℤ) : ∃ τ : ℂ, ‖τ‖ ≤ 3 / 2 ∧
    vec (micro i p) = vec p * ⟨1, -(side p.2 / 2 ^ i)⟩ + τ := by
  have hround : ∀ y : ℤ, |((y / 2 ^ i : ℤ) : ℝ) - y / 2 ^ i| ≤ 1 := by
    intro y
    have hpos : (0 : ℤ) < 2 ^ i := by positivity
    have hdiv := Int.mul_ediv_add_emod y (2 ^ i)
    have hrem := Int.emod_nonneg y hpos.ne'
    have hlt := Int.emod_lt_of_pos y hpos
    have hcast : (y : ℝ) = 2 ^ i * ((y / 2 ^ i : ℤ) : ℝ) + ((y % 2 ^ i : ℤ) : ℝ) := by
      exact_mod_cast hdiv.symm
    have hrem' : (0 : ℝ) ≤ ((y % 2 ^ i : ℤ) : ℝ) := by exact_mod_cast hrem
    have hlt' : ((y % 2 ^ i : ℤ) : ℝ) ≤ 2 ^ i := by exact_mod_cast hlt.le
    have hpow : (0 : ℝ) < 2 ^ i := by positivity
    have hquot : (y : ℝ) / 2 ^ i = ((y / 2 ^ i : ℤ) : ℝ) + ((y % 2 ^ i : ℤ) : ℝ) / 2 ^ i := by
      rw [hcast, add_div, mul_div_cancel_left₀ _ hpow.ne']
    have hfrac : ((y % 2 ^ i : ℤ) : ℝ) / 2 ^ i ≤ 1 := (div_le_one hpow).2 hlt'
    have hfrac0 : 0 ≤ ((y % 2 ^ i : ℤ) : ℝ) / 2 ^ i := by positivity
    rw [hquot, abs_le]
    constructor <;> linarith
  refine ⟨⟨side p.2 * (((p.2 / 2 ^ i : ℤ) : ℝ) - p.2 / 2 ^ i),
    -(side p.2 * (((p.1 / 2 ^ i : ℤ) : ℝ) - p.1 / 2 ^ i))⟩, ?_, ?_⟩
  · have hy := abs_le.1 (hround p.2)
    have hx := abs_le.1 (hround p.1)
    rw [← sq_le_sq₀ (norm_nonneg _) (by norm_num), Complex.sq_norm, Complex.normSq_mk]
    have hside : (side p.2 : ℝ) * side p.2 = 1 := by
      rcases side_cast p.2 with h | h <;> rw [h] <;> norm_num
    have hsq : ∀ a b : ℝ, side p.2 * a * (side p.2 * a) + -(side p.2 * b) * -(side p.2 * b) =
        a * a + b * b := by
      intro a b
      linear_combination (a * a + b * b) * hside
    rw [hsq]
    nlinarith
  · apply Complex.ext
    · simp [vec, micro]
      ring
    · simp [vec, micro]
      ring

variable {θ}

/-- A turn by the angle undoes a step up to its gain and its slip. -/
theorem unit_mul_step {d : ℝ} (hd : d = 1 ∨ d = -1) (i : ℕ) :
    unit (d * θ i) * ⟨1, -(d / 2 ^ i)⟩ = ⟨gain θ i, d * slip θ i⟩ := by
  rw [unit_eq, gain, slip]
  rcases hd with rfl | rfl
  · apply Complex.ext
    · simp
      ring
    · simp
      ring
  · apply Complex.ext
    · simp
      ring
    · simp
      ring

theorem unit_mul_micro {φ : ℝ} {p : ℤ × ℤ} {n : ℕ} {τ : ℂ}
    (hstep : vec (micro n p) = vec p * ⟨1, -(side p.2 / 2 ^ n)⟩ + τ) (P : ℝ) (v : ℂ) :
    unit (φ + side p.2 * θ n) * vec (micro n p) - (P * gain θ n : ℝ) * v =
      gain θ n * (unit φ * vec p - P * v) + (side p.2 * slip θ n : ℝ) * (I * (unit φ * vec p)) +
        unit (φ + side p.2 * θ n) * τ := by
  have hturn := unit_mul_step (θ := θ) (side_cast p.2) n
  rw [Complex.mk_eq_add_mul_I (gain θ n)] at hturn
  rw [hstep, mul_add, unit_add, mul_mul_mul_comm, hturn]
  push_cast
  ring

/-- The error of a step, from that of the steps before it. -/
theorem error_step {e A t R P B s σ M : ℝ} (he : e ≤ P * B) (hA : A ≤ P * M) (hA0 : 0 ≤ A)
    (hσ0 : 0 ≤ σ) (hσ : σ ≤ s) (ht : t ≤ 3 / 2) (hR : 1 ≤ R) (hP : 1 ≤ P) :
    R * e + σ * A + t ≤ P * R * (B + s * M + 3 / 2) := by
  have hold : R * e ≤ R * (P * B) := mul_le_mul_of_nonneg_left he (by linarith)
  have hslip : σ * A ≤ s * (P * M) := mul_le_mul hσ hA hA0 (hσ0.trans hσ)
  have hM : 0 ≤ s * (P * M) := (mul_nonneg hσ0 hA0).trans hslip
  have hscaled : s * (P * M) ≤ R * (s * (P * M)) := le_mul_of_one_le_left hM hR
  have hgain : 1 ≤ P * R := one_le_mul_of_one_le_of_one_le hP hR
  calc R * e + σ * A + t ≤ R * (P * B) + R * (s * (P * M)) + P * R * (3 / 2) := by linarith
    _ = P * R * (B + s * M + 3 / 2) := by ring

/-- What is near the scaled vector is not much longer. -/
theorem norm_le_of_near {a v : ℂ} {P η : ℝ} (hP : 0 ≤ P) (h : ‖a - P * v‖ ≤ P * (η * ‖v‖)) :
    ‖a‖ ≤ P * ((1 + η) * ‖v‖) := by
  have htri := norm_le_norm_add_norm_sub' a (P * v)
  rw [norm_mul, Complex.norm_real, Real.norm_of_nonneg hP] at htri
  linarith

/-- The error of `n` steps, against the vector scaled by their gains. -/
theorem rotated_near {p : ℤ × ℤ} {s : ℕ → ℝ} {N : ℕ} {η : ℝ} (hgain : ∀ i < N, 1 ≤ gain θ i)
    (hslip : ∀ i < N, |slip θ i| ≤ s i)
    (hη : (1 + η) * (∑ i ∈ Finset.range N, s i) * ‖vec p‖ + 3 / 2 * N ≤ η * ‖vec p‖)
    (h0 : 0 ≤ η) {n : ℕ} (hn : n ≤ N) : 1 ≤ gains θ n ∧
      ‖unit (turned θ p n) * vec (rotated p n) - gains θ n * vec p‖ ≤
        gains θ n * ((1 + η) * (∑ i ∈ Finset.range n, s i) * ‖vec p‖ + 3 / 2 * n) := by
  induction n with
  | zero => simp [turned, rotated, gains, unit]
  | succ n ih =>
    obtain ⟨hone, hnear⟩ := ih (by omega)
    have hlt : n < N := hn
    obtain ⟨τ, hτ, hstep⟩ := exists_micro n (rotated p n)
    have hgains : gains θ (n + 1) = gains θ n * gain θ n := Finset.prod_range_succ _ _
    refine ⟨by rw [hgains]; exact one_le_mul_of_one_le_of_one_le hone (hgain n hlt), ?_⟩
    have hpos : 0 ≤ gains θ n := by linarith
    -- The vector so far is at most `1 + η` times as long as it should be.
    have hsum : (1 + η) * (∑ i ∈ Finset.range n, s i) * ‖vec p‖ + 3 / 2 * n ≤ η * ‖vec p‖ := by
      refine le_trans ?_ hη
      have hle : ∑ i ∈ Finset.range n, s i ≤ ∑ i ∈ Finset.range N, s i :=
        Finset.sum_le_sum_of_subset_of_nonneg (Finset.range_subset_range.2 (by omega))
          fun i hi _ => (abs_nonneg _).trans (hslip i (Finset.mem_range.1 hi))
      have hcast : (n : ℝ) ≤ N := by exact_mod_cast hlt.le
      have hscaled : (1 + η) * (∑ i ∈ Finset.range n, s i) * ‖vec p‖ ≤
          (1 + η) * (∑ i ∈ Finset.range N, s i) * ‖vec p‖ := by gcongr
      linarith
    have hlong := norm_le_of_near hpos (hnear.trans (mul_le_mul_of_nonneg_left hsum hpos))
    have hterm := error_step hnear hlong (norm_nonneg _) (abs_nonneg (slip θ n)) (hslip n hlt) hτ
      (hgain n hlt) hone
    have hside : |(side (rotated p n).2 : ℝ)| = 1 := by
      rcases side_cast (rotated p n).2 with h | h <;> rw [h] <;> norm_num
    rw [turned, rotated, hgains, unit_mul_micro hstep]
    refine (norm_add₃_le).trans ?_
    rw [norm_mul, norm_mul, norm_mul I, norm_mul (unit _) τ, Complex.norm_I, one_mul,
      Complex.norm_real, Complex.norm_real, Real.norm_of_nonneg (by linarith [hgain n hlt]),
      Real.norm_eq_abs, abs_mul, hside, one_mul, norm_unit, one_mul, Finset.sum_range_succ]
    refine hterm.trans_eq ?_
    push_cast
    ring

/-- What is left of the second coordinate, against the vector that the steps began with. -/
theorem rest_le {w : ℤ × ℤ} {P M : ℝ} {N : ℕ} (hP : 1 ≤ P) (hlong : ‖vec w‖ ≤ P * M)
    (hres : 2 ^ N * |w.2| ≤ w.1 + N * 2 ^ N) : |(w.2 : ℝ)| ≤ P * (M / 2 ^ N + N) := by
  have hre : (w.1 : ℝ) ≤ P * M := (Complex.re_le_norm (vec w)).trans hlong
  have hcast : (2 : ℝ) ^ N * |(w.2 : ℝ)| ≤ w.1 + N * 2 ^ N := by exact_mod_cast hres
  have hN : (N : ℝ) * 2 ^ N ≤ P * (N * 2 ^ N) := le_mul_of_one_le_left (by positivity) hP
  have hscale : P * (M / 2 ^ N + N) = (P * M + P * (N * 2 ^ N)) / 2 ^ N := by
    field_simp
  rw [hscale, le_div_iff₀ (by positivity)]
  linarith

/-- A turned vector that is near the first axis tells the direction it was turned from. -/
theorem direction_near {u v : ℂ} {w : ℤ × ℤ} {P a b : ℝ} (hu : ‖u‖ = 1) (hP : 0 < P)
    (hnear : ‖u * vec w - P * v‖ ≤ P * a) (hrest : |(w.2 : ℝ)| ≤ P * b) :
    ‖((w.1 / P : ℝ) : ℂ) * u - v‖ ≤ a + b := by
  have hsplit : (P : ℂ) * (((w.1 / P : ℝ) : ℂ) * u - v) =
      (u * vec w - P * v) - (w.2 : ℝ) * (I * u) := by
    have hne : (P : ℂ) ≠ 0 := by exact_mod_cast hP.ne'
    have hw : vec w = (w.1 : ℝ) + (w.2 : ℝ) * I := Complex.mk_eq_add_mul_I _ _
    rw [hw]
    push_cast
    field_simp
    ring
  have hscaled := congrArg norm hsplit
  rw [norm_mul, Complex.norm_real, Real.norm_of_nonneg hP.le] at hscaled
  refine le_of_mul_le_mul_left ?_ hP
  calc P * ‖((w.1 / P : ℝ) : ℂ) * u - v‖ = ‖(u * vec w - P * v) - (w.2 : ℝ) * (I * u)‖ := hscaled
    _ ≤ ‖u * vec w - P * v‖ + ‖((w.2 : ℝ) : ℂ) * (I * u)‖ := norm_sub_le _ _
    _ = ‖u * vec w - P * v‖ + |(w.2 : ℝ)| := by
      rw [norm_mul, norm_mul, hu, Complex.norm_I, one_mul, mul_one, Complex.norm_real,
        Real.norm_eq_abs]
    _ ≤ P * (a + b) := by linarith

/-- The angle taken off is the direction of the vector, as near as gains, slips, roundings and the
rest of the second coordinate let it be. -/
theorem vectored {p : ℤ × ℤ} (hx : 0 ≤ p.1) (hp : 0 < p.1 + |p.2|) {s : ℕ → ℝ} {N : ℕ} {η : ℝ}
    (hgain : ∀ i < N + 1, 1 ≤ gain θ i) (hslip : ∀ i < N + 1, |slip θ i| ≤ s i)
    (hη : (1 + η) * (∑ i ∈ Finset.range (N + 1), s i) * ‖vec p‖ + 3 / 2 * (N + 1 : ℕ) ≤
      η * ‖vec p‖) (h0 : 0 ≤ η) :
    ∃ l : ℝ, 0 < l ∧
      ‖l * unit (turned θ p (N + 1)) - vec p‖ ≤ (η + (1 + η) / 2 ^ N) * ‖vec p‖ + N := by
  obtain ⟨hone, hnear⟩ := rotated_near hgain hslip hη h0 (le_refl (N + 1))
  have hpos : 0 < gains θ (N + 1) := by linarith
  have hnear' := hnear.trans (mul_le_mul_of_nonneg_left hη hpos.le)
  have hu := norm_unit (turned θ p (N + 1))
  have hlong : ‖vec (rotated p (N + 1))‖ ≤ gains θ (N + 1) * ((1 + η) * ‖vec p‖) := by
    have hturned := norm_le_of_near hpos.le hnear'
    rwa [norm_mul, hu, one_mul] at hturned
  have hrest := rest_le hone hlong (residue p hx N)
  have hlength : 0 < (rotated p (N + 1)).1 := by
    have hle := rotated_one_le p N
    rw [(rotated_one p hx).1] at hle
    exact hp.trans_le hle
  refine ⟨_, div_pos (by exact_mod_cast hlength) hpos,
    (direction_near hu hpos hnear' hrest).trans_eq ?_⟩
  ring

/-- An angle up to 1.6 times the tangent does not shorten the vector. -/
theorem one_le_gain {i : ℕ} (hi : 1 ≤ i) (h0 : 0 ≤ θ i) (h1 : θ i * 2 ^ i ≤ 8 / 5) :
    1 ≤ gain θ i := by
  have hcos := Real.one_sub_sq_div_two_le_cos (x := θ i)
  have hsin := Real.sin_ge_sub_cube h0
  have hpow : (2 : ℝ) ≤ 2 ^ i := by
    simpa using pow_le_pow_right₀ (by norm_num : (1 : ℝ) ≤ 2) hi
  have hpos : (0 : ℝ) < 2 ^ i := by positivity
  have hθ : θ i ≤ 4 / 5 := by nlinarith
  have hscaled : (1 - θ i ^ 2 / 2) * 2 ^ i + (θ i - θ i ^ 3 / 6) ≤
      Real.cos (θ i) * 2 ^ i + Real.sin (θ i) := by nlinarith
  have hroom : 1 * 2 ^ i ≤ (1 - θ i ^ 2 / 2) * 2 ^ i + (θ i - θ i ^ 3 / 6) := by
    have hsq : θ i ^ 2 * 2 ^ i ≤ θ i * (8 / 5) := by nlinarith
    have hcube : θ i ^ 3 ≤ θ i * (16 / 25) := by nlinarith
    nlinarith
  have hgain : gain θ i * 2 ^ i = Real.cos (θ i) * 2 ^ i + Real.sin (θ i) := by
    rw [gain, add_mul, div_mul_cancel₀ _ hpos.ne']
  exact le_of_mul_le_mul_right (by linarith) hpos

/-- The slip of an angle that is known to lie between `lo` and `hi`. -/
theorem abs_slip_le {i : ℕ} {lo hi ε : ℝ} (h0 : 0 ≤ lo) (hlo : lo ≤ θ i) (hhi : θ i ≤ hi)
    (hone : hi ≤ 1)
    (hup : hi - lo ^ 3 / 6 + hi ^ 5 / 100 - (1 - hi ^ 2 / 2 - hi ^ 4 * (5 / 96)) / 2 ^ i ≤ ε)
    (hdown : (1 - lo ^ 2 / 2 + hi ^ 4 * (5 / 96)) / 2 ^ i - (lo - hi ^ 3 / 6 - hi ^ 5 / 100) ≤ ε) :
    |slip θ i| ≤ ε := by
  have hθ : 0 ≤ θ i := h0.trans hlo
  have habs : |θ i| ≤ 1 := by
    rw [abs_of_nonneg hθ]
    linarith
  have hcos := abs_le.1 (Real.cos_bound habs)
  have hsin := abs_le.1 (Real.sin_bound habs)
  rw [abs_of_nonneg hθ] at hcos hsin
  have hpos : (0 : ℝ) < 2 ^ i := by positivity
  have hsq := pow_le_pow_left₀ hθ hhi 2
  have hsq' := pow_le_pow_left₀ h0 hlo 2
  have hcube := pow_le_pow_left₀ hθ hhi 3
  have hcube' := pow_le_pow_left₀ h0 hlo 3
  have hfour := pow_le_pow_left₀ hθ hhi 4
  have hfive := pow_le_pow_left₀ hθ hhi 5
  have hcosLow : (1 - hi ^ 2 / 2 - hi ^ 4 * (5 / 96)) / 2 ^ i ≤ Real.cos (θ i) / 2 ^ i :=
    div_le_div_of_nonneg_right (by linarith) hpos.le
  have hcosHigh : Real.cos (θ i) / 2 ^ i ≤ (1 - lo ^ 2 / 2 + hi ^ 4 * (5 / 96)) / 2 ^ i :=
    div_le_div_of_nonneg_right (by linarith) hpos.le
  rw [slip]
  exact abs_le.2 ⟨by linarith, by linarith⟩

/-- Two directions known up to `ε` give the direction between them up to `2ε + ε²`. -/
theorem between {u₁ u₂ v₁ v₂ : ℂ} {l₁ l₂ ε : ℝ} (h₁ : ‖l₁ * u₁ - v₁‖ ≤ ε * ‖v₁‖)
    (h₂ : ‖l₂ * u₂ - v₂‖ ≤ ε * ‖v₂‖) :
    ‖(l₂ * l₁ : ℝ) * (u₂ * star u₁) - v₂ * star v₁‖ ≤ (2 * ε + ε ^ 2) * (‖v₂‖ * ‖v₁‖) := by
  have hsplit : ((l₂ * l₁ : ℝ) : ℂ) * (u₂ * star u₁) - v₂ * star v₁ =
      (l₂ * u₂ - v₂) * star v₁ + v₂ * star (l₁ * u₁ - v₁) +
        (l₂ * u₂ - v₂) * star (l₁ * u₁ - v₁) := by
    rw [star_sub, star_mul', Complex.star_def, Complex.conj_ofReal]
    push_cast
    ring
  rw [hsplit]
  refine (norm_add₃_le).trans ?_
  rw [norm_mul, norm_mul, norm_mul, norm_star, norm_star]
  have hfirst := mul_le_mul_of_nonneg_right h₂ (norm_nonneg v₁)
  have hsecond := mul_le_mul_of_nonneg_left h₁ (norm_nonneg v₂)
  have hboth := mul_le_mul h₂ h₁ (norm_nonneg _) ((norm_nonneg _).trans h₂)
  linarith

end

end TetraBs.Cordic
