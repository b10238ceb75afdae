import Mathlib.Algebra.BigOperators.Fin
import Mathlib.Analysis.Real.Pi.Bounds
import Mathlib.Tactic.IntervalCases
import TetraBs.Phy.Pi4dqpskDemod

/-! The phases that `tetra_pi4dqpsk_demod` finds, as angles, and the dibits it makes of them. -/
namespace TetraBs.Phy
open Complex (I)
open Real (pi)
open TetraBs.Cordic TetraBs.Signed

namespace IqSample

def normSq (v : IqSample) : ℤ := v.i ^ 2 + v.q ^ 2

/-! The products of two vectors. -/

def dot (v₁ v₂ : IqSample) : ℤ := v₂.i * v₁.i + v₂.q * v₁.q
def cross (v₁ v₂ : IqSample) : ℤ := v₂.q * v₁.i - v₂.i * v₁.q

end IqSample

namespace Pi4dqpskDemod

/-- A phase as an angle. -/
noncomputable def rad (z : BitVec 16) : ℝ := z.toInt * (pi / 32768)

noncomputable def dir (z : BitVec 16) : ℂ := unit (rad z)

theorem unit_add_turns (φ : ℝ) (k : ℤ) : unit (φ + k * (2 * pi)) = unit φ := by
  have hturns : unit (k * (2 * pi)) = 1 := by
    rw [unit]
    push_cast
    rw [mul_assoc]
    exact Complex.exp_int_mul_two_pi_mul_I k
  rw [unit_add, hturns, mul_one]

/-- Phases add up as angles do, whatever the wrap. -/
theorem dir_add (a b : BitVec 16) : dir (a + b) = dir a * dir b := by
  obtain ⟨k, hk⟩ : ∃ k : ℤ, (a + b).toInt = a.toInt + b.toInt + k * 65536 := by
    rw [BitVec.toInt_add]
    have hdvd : (65536 : ℤ) ∣ (a.toInt + b.toInt).bmod (2 ^ 16) - (a.toInt + b.toInt) :=
      Int.dvd_bmod_sub_self
    obtain ⟨k, hk⟩ := hdvd
    exact ⟨k, by linarith⟩
  have hrad : rad (a + b) = rad a + rad b + k * (2 * pi) := by
    rw [rad, rad, rad, hk]
    push_cast
    ring
  rw [dir, hrad, unit_add_turns, unit_add]
  rfl

theorem dir_zero : dir 0 = 1 := by
  have hzero : rad 0 = 0 := by simp [rad]
  rw [dir, hzero, unit]
  simp

theorem dir_sub (a b : BitVec 16) : dir (a - b) = dir a * star (dir b) := by
  have hprod : dir (a - b) * dir b = dir a := by rw [← dir_add, sub_add_cancel]
  have hunit : dir b * star (dir b) = 1 := by
    rw [Complex.star_def, Complex.mul_conj, Complex.normSq_eq_norm_sq, dir, norm_unit, one_pow,
      Complex.ofReal_one]
  rw [← hprod, mul_assoc, hunit, mul_one]

/-- The table as angles. -/
noncomputable def atanRad (n : ℕ) : ℝ := rad (atanVal n)

theorem atanRad_eq (n : ℕ) : atanRad n = ((atanVal n).toInt : ℝ) * (pi / 32768) := rfl

theorem dir_turned (p : ℤ × ℤ) (n : ℕ) : dir (turned atanVal p n) = unit (turned atanRad p n) := by
  have hneg : ∀ a : BitVec 16, dir (-a) = unit (-rad a) := by
    intro a
    have hprod : dir (-a) * dir a = unit (-rad a) * dir a := by
      rw [← dir_add, neg_add_cancel, dir_zero, dir, ← unit_add, neg_add_cancel, unit]
      simp
    exact mul_right_cancel₀ (norm_ne_zero_iff.1 (by rw [dir, norm_unit]; exact one_ne_zero)) hprod
  induction n with
  | zero =>
    rw [turned, turned, dir_zero, unit]
    simp
  | succ n ih =>
    rw [turned, turned, dir_add, ih, unit_add, side]
    congr 1
    split
    · rw [Int.cast_one, one_mul, Int.cast_one, one_mul]
      rfl
    · rw [Int.cast_neg, Int.cast_one, neg_one_mul, Int.cast_neg, Int.cast_one, neg_one_mul]
      exact hneg _

/-! The table. -/

theorem pi_bounds {a : ℤ} (ha : 0 ≤ a) :
    (a : ℝ) * (3.141592 / 32768) ≤ a * (pi / 32768) ∧
      (a : ℝ) * (pi / 32768) ≤ a * (3.141593 / 32768) := by
  have hcast : (0 : ℝ) ≤ a := by exact_mod_cast ha
  have hlo := Real.pi_gt_d6
  have hhi := Real.pi_lt_d6
  exact ⟨by gcongr, by gcongr⟩

theorem atan_toInt {n : ℕ} (hn : n < 16) : (atanVal n).toInt =
    [8192, 4836, 2556, 1297, 651, 326, 163, 81, 41, 20, 10, 5, 3, 1, 1].getD n 0 := by
  interval_cases n <;> rfl

theorem atanRad_zero : atanRad 0 = pi / 4 := by
  have hval : (atanVal 0).toInt = 8192 := rfl
  rw [atanRad_eq, hval]
  push_cast
  ring

theorem atan_nonneg (n : ℕ) : 0 ≤ (atanVal n).toInt := by
  by_cases hn : n < 15
  · interval_cases n <;> decide
  · rw [atanVal, List.getD_eq_default _ _ (not_lt.1 hn)]
    rfl

/-- No entry shortens the vector. -/
theorem atan_gain {n : ℕ} (hn : n < 16) : 1 ≤ gain atanRad n := by
  by_cases hzero : n = 0
  · have hsq : Real.sqrt 2 * Real.sqrt 2 = 2 := Real.mul_self_sqrt (by norm_num)
    have hpos := Real.sqrt_nonneg 2
    rw [hzero, gain, atanRad_zero, Real.cos_pi_div_four, Real.sin_pi_div_four]
    nlinarith
  · have hone : 1 ≤ n := Nat.pos_of_ne_zero hzero
    have htable : ((atanVal n).toInt : ℝ) * (3.141593 / 32768) * 2 ^ n ≤ 8 / 5 := by
      rw [atan_toInt hn]
      interval_cases n <;> norm_num
    refine one_le_gain hone ?_ (le_trans ?_ htable)
    · rw [atanRad_eq]
      have hcast : (0 : ℝ) ≤ (atanVal n).toInt := by exact_mod_cast atan_nonneg n
      positivity
    · rw [atanRad_eq]
      have hpi := (pi_bounds (atan_nonneg n)).2
      gcongr

/-- How far an entry may be from the angle of its step. -/
noncomputable def slack (n : ℕ) : ℝ := if n = 0 then 0 else if n = 1 then 1 / 200 else 1 / 1500

theorem atan_slip {n : ℕ} (hn : n < 16) : |slip atanRad n| ≤ slack n := by
  by_cases hzero : n = 0
  · rw [hzero, slip, atanRad_zero, Real.cos_pi_div_four, Real.sin_pi_div_four, pow_zero, div_one,
      sub_self, abs_zero, slack, if_pos rfl]
  · have hone : 1 ≤ n := Nat.pos_of_ne_zero hzero
    obtain ⟨hlo, hhi⟩ := pi_bounds (atan_nonneg n)
    rw [← atanRad_eq] at hlo hhi
    have hcast : (0 : ℝ) ≤ (atanVal n).toInt := by exact_mod_cast atan_nonneg n
    refine abs_slip_le (by positivity) hlo hhi ?_ ?_ ?_
    · rw [atan_toInt hn]
      interval_cases n <;> norm_num
    · rw [atan_toInt hn]
      interval_cases n <;> norm_num [slack]
    · rw [atan_toInt hn]
      interval_cases n <;> norm_num [slack]

/-! The phase of a sample. -/

/-- The sample as a vector. -/
noncomputable def sampleVec (i : Pi4Input) : ℂ := vec (i.iIn.toInt, i.qIn.toInt)

theorem dir_quarter : dir 16384 = I ∧ dir (-16384) = -I := by
  have hpos : rad 16384 = pi / 2 := by
    have hval : (16384 : BitVec 16).toInt = 16384 := rfl
    rw [rad, hval]
    push_cast
    ring
  have hneg : rad (-16384) = -(pi / 2) := by
    have hval : (-16384 : BitVec 16).toInt = -16384 := rfl
    rw [rad, hval]
    push_cast
    ring
  rw [dir, dir, hpos, hneg, unit_eq, unit_eq, Real.cos_neg, Real.sin_neg, Real.cos_pi_div_two,
    Real.sin_pi_div_two]
  exact ⟨rfl, Complex.ext (by simp) (by simp)⟩

/-- The quadrant correction is undone by the phase it starts with. -/
theorem dir_zInit (i : Pi4Input) : dir i.zInit * vec i.start = sampleVec i := by
  rw [i.start_eq, Pi4Input.quarterTurned, Pi4Input.zInit, BitVec.msb_eq_toInt,
    BitVec.msb_eq_toInt, sampleVec]
  by_cases hi : i.iIn.toInt < 0
  · by_cases hq : i.qIn.toInt < 0
    · simp only [hi, hq, decide_true, if_true, dir_quarter.2]
      apply Complex.ext <;> simp [vec]
    · simp only [hi, hq, decide_true, decide_false, if_true, if_false, Bool.false_eq_true,
        dir_quarter.1]
      apply Complex.ext <;> simp [vec]
  · simp only [hi, decide_false, if_false, Bool.false_eq_true, dir_zero, one_mul]

/-- The phase is the direction of the sample but for six percent. -/
theorem phase_near (i : Pi4Input) (hlong : 1024 ≤ ‖sampleVec i‖) :
    ∃ l : ℝ, 0 < l ∧ ‖l * dir i.phase - sampleVec i‖ ≤ 3 / 50 * ‖sampleVec i‖ := by
  have hunit : ‖dir i.zInit‖ = 1 := norm_unit _
  have hnorm : ‖sampleVec i‖ = ‖vec i.start‖ := by
    rw [← dir_zInit, norm_mul, hunit, one_mul]
  have hpos : 0 < i.start.1 + |i.start.2| := by
    have hx := i.start_nonneg
    have hy := abs_nonneg i.start.2
    by_contra hno
    have hx0 : i.start.1 = 0 := by omega
    have hy0 : i.start.2 = 0 := abs_eq_zero.1 (by omega)
    have hzero : vec i.start = 0 := by
      rw [vec, hx0, hy0, Int.cast_zero]
      rfl
    rw [hnorm, hzero, norm_zero] at hlong
    norm_num at hlong
  have hsum : ∑ n ∈ Finset.range (15 + 1), slack n = 1 / 200 + 14 / 1500 := by
    simp only [Finset.sum_range_succ, Finset.sum_range_zero, slack]
    norm_num
  have hroom : (1 + 48 / 1250) * (∑ n ∈ Finset.range (15 + 1), slack n) * ‖vec i.start‖ +
      3 / 2 * ((15 + 1 : ℕ) : ℝ) ≤ 48 / 1250 * ‖vec i.start‖ := by
    rw [hsum, ← hnorm]
    norm_num
    linarith
  obtain ⟨l, hl, hnear⟩ := vectored i.start_nonneg hpos (fun n hn => atan_gain hn)
    (fun n hn => atan_slip hn) hroom (by norm_num)
  refine ⟨l, hl, ?_⟩
  have hsplit : l * dir i.phase - sampleVec i =
      dir i.zInit * (l * unit (turned atanRad i.start (15 + 1)) - vec i.start) := by
    rw [Pi4Input.phase, dir_add, dir_turned, ← dir_zInit]
    ring
  rw [hsplit, norm_mul, hunit, one_mul]
  refine hnear.trans ?_
  rw [← hnorm]
  norm_num
  linarith

/-! The decision. -/

/-- The vectors are long enough, and the angle between them is far enough from the axes. -/
structure Clear (v₁ v₂ : IqSample) : Prop where
  long₁ : 2 ^ 20 ≤ v₁.normSq
  long₂ : 2 ^ 20 ≤ v₂.normSq
  dot : v₁.normSq * v₂.normSq ≤ 64 * v₁.dot v₂ ^ 2
  cross : v₁.normSq * v₂.normSq ≤ 64 * v₁.cross v₂ ^ 2

/-- The dibit of a dot product and a cross product. -/
def quadrant (d c : ℤ) : BitVec 2 :=
  if 0 < c then if 0 < d then 0 else 1 else if 0 < d then 2 else 3

theorem dibitNext_toInt (delta : BitVec 16) : dibitNext delta =
    if 16384 ≤ delta.toInt then 1 else if 0 ≤ delta.toInt then 0
    else if delta.toInt < -16384 then 3 else 2 := by
  have hpos : (16384 : BitVec 16).toInt = 16384 := rfl
  have hneg : (-16384 : BitVec 16).toInt = -16384 := rfl
  rw [dibitNext, BitVec.sle_eq_decide, BitVec.slt_eq_decide, BitVec.msb_eq_toInt, hpos, hneg]
  simp only [decide_eq_true_eq, ← decide_not, not_lt]

/-- The quadrants of the angles. -/
theorem dir_quadrant (delta : BitVec 16) :
    (0 ≤ delta.toInt → 0 ≤ (dir delta).im) ∧ (delta.toInt ≤ 0 → (dir delta).im ≤ 0) ∧
      (|delta.toInt| ≤ 16384 → 0 ≤ (dir delta).re) ∧
        (16384 ≤ |delta.toInt| → (dir delta).re ≤ 0) := by
  have hpi := Real.pi_pos
  have hlo : (-32768 : ℝ) ≤ delta.toInt := by exact_mod_cast BitVec.le_toInt delta
  have hhi : (delta.toInt : ℝ) ≤ 32768 := by exact_mod_cast (BitVec.toInt_lt (x := delta)).le
  rw [dir, unit_eq, rad]
  refine ⟨fun h => ?_, fun h => ?_, fun h => ?_, fun h => ?_⟩
  · have h' : (0 : ℝ) ≤ delta.toInt := by exact_mod_cast h
    exact Real.sin_nonneg_of_nonneg_of_le_pi (by positivity) (by nlinarith)
  · have h' : (delta.toInt : ℝ) ≤ 0 := by exact_mod_cast h
    exact Real.sin_nonpos_of_nonpos_of_neg_pi_le (by nlinarith) (by nlinarith)
  · have h' : |(delta.toInt : ℝ)| ≤ 16384 := by exact_mod_cast h
    obtain ⟨hlow, hhigh⟩ := abs_le.1 h'
    exact Real.cos_nonneg_of_neg_pi_div_two_le_of_le (by nlinarith) (by nlinarith)
  · have h' : (16384 : ℝ) ≤ |(delta.toInt : ℝ)| := by exact_mod_cast h
    have habs : |(delta.toInt : ℝ)| ≤ 32768 := abs_le.2 ⟨hlo, hhi⟩
    show Real.cos _ ≤ 0
    rw [← Real.cos_abs, abs_mul, abs_of_pos (by positivity : 0 < pi / 32768)]
    exact Real.cos_nonpos_of_pi_div_two_le_of_le (by nlinarith) (by nlinarith)

/-- The signs of the direction decide the dibit. -/
theorem dibitNext_eq {delta : BitVec 16} {d c : ℤ}
    (hd : 0 < d ∧ 0 < (dir delta).re ∨ d < 0 ∧ (dir delta).re < 0)
    (hc : 0 < c ∧ 0 < (dir delta).im ∨ c < 0 ∧ (dir delta).im < 0) :
    dibitNext delta = quadrant d c := by
  obtain ⟨hup, hdown, hright, hleft⟩ := dir_quadrant delta
  rw [dibitNext_toInt, quadrant]
  rcases hd with ⟨hd, hre⟩ | ⟨hd, hre⟩
  · have hinner : |delta.toInt| < 16384 := by
      by_contra hno
      exact absurd (hleft (not_lt.1 hno)) (not_le.2 hre)
    rw [abs_lt] at hinner
    rcases hc with ⟨hc, him⟩ | ⟨hc, him⟩
    · have hnonneg : 0 ≤ delta.toInt := by
        by_contra hno
        exact absurd (hdown (by omega)) (not_le.2 him)
      rw [if_neg (by omega), if_pos hnonneg, if_pos hc, if_pos hd]
    · have hneg : ¬0 ≤ delta.toInt := fun h => absurd (hup h) (not_le.2 him)
      rw [if_neg (by omega), if_neg hneg, if_neg (by omega), if_neg (by omega), if_pos hd]
  · have houter : 16384 < |delta.toInt| := by
      by_contra hno
      exact absurd (hright (not_lt.1 hno)) (not_le.2 hre)
    rw [lt_abs] at houter
    rcases hc with ⟨hc, him⟩ | ⟨hc, him⟩
    · have hnonneg : 0 ≤ delta.toInt := by
        by_contra hno
        exact absurd (hdown (by omega)) (not_le.2 him)
      rw [if_pos (by omega), if_pos hc, if_neg (by omega)]
    · have hneg : ¬0 ≤ delta.toInt := fun h => absurd (hup h) (not_le.2 him)
      rw [if_neg (by omega), if_neg hneg, if_pos (by omega), if_neg (by omega),
        if_neg (by omega)]

/-- A value known up to a small part of its size has its sign. -/
theorem same_sign {m x : ℝ} {d : ℤ} {V : ℝ} (hm : 0 < m) (hV : 0 < V)
    (hd : V ≤ 8 * |(d : ℝ)|) (hx : |m * x - d| ≤ 309 / 2500 * V) :
    0 < d ∧ 0 < x ∨ d < 0 ∧ x < 0 := by
  obtain ⟨hlo, hhi⟩ := abs_le.1 hx
  rcases lt_trichotomy d 0 with hneg | hzero | hpos
  · have hcast : (d : ℝ) < 0 := by exact_mod_cast hneg
    rw [abs_of_neg hcast] at hd
    exact Or.inr ⟨hneg, by nlinarith⟩
  · rw [hzero, Int.cast_zero, abs_zero] at hd
    linarith
  · have hcast : (0 : ℝ) < d := by exact_mod_cast hpos
    rw [abs_of_pos hcast] at hd
    exact Or.inl ⟨hpos, by nlinarith⟩

end Pi4dqpskDemod

/-- The sample as the uplink detectors see it. -/
def Pi4Input.iq (i : Pi4Input) : IqSample := ⟨i.iIn.toInt, i.qIn.toInt⟩

namespace Pi4dqpskDemod

theorem norm_sampleVec (i : Pi4Input) : ‖sampleVec i‖ ^ 2 = (i.iq.normSq : ℝ) := by
  rw [Complex.sq_norm, sampleVec, vec, Complex.normSq_mk, IqSample.normSq]
  push_cast
  rw [sq, sq]
  rfl

theorem norm_long {i : Pi4Input} (h : 2 ^ 20 ≤ i.iq.normSq) : 1024 ≤ ‖sampleVec i‖ := by
  have hcast : (2 : ℝ) ^ 20 ≤ (i.iq.normSq : ℝ) := by exact_mod_cast h
  rw [← norm_sampleVec] at hcast
  refine (sq_le_sq₀ (by norm_num) (norm_nonneg _)).1 ?_
  linarith

theorem norm_product_le {i j : Pi4Input} {d : ℤ}
    (h : i.iq.normSq * j.iq.normSq ≤ 64 * d ^ 2) :
    ‖sampleVec j‖ * ‖sampleVec i‖ ≤ 8 * |(d : ℝ)| := by
  have hcast : (i.iq.normSq : ℝ) * (j.iq.normSq : ℝ) ≤ 64 * (d : ℝ) ^ 2 := by exact_mod_cast h
  rw [← norm_sampleVec, ← norm_sampleVec] at hcast
  refine (sq_le_sq₀ (by positivity) (by positivity)).1 ?_
  calc (‖sampleVec j‖ * ‖sampleVec i‖) ^ 2 = ‖sampleVec i‖ ^ 2 * ‖sampleVec j‖ ^ 2 := by ring
    _ ≤ 64 * (d : ℝ) ^ 2 := hcast
    _ = (8 * |(d : ℝ)|) ^ 2 := by rw [mul_pow, sq_abs]; norm_num

/-- The real part of the product is the dot product, the imaginary part the cross product. -/
theorem product_eq (i j : Pi4Input) : sampleVec j * star (sampleVec i) =
    ⟨(i.iq.dot j.iq : ℝ), (i.iq.cross j.iq : ℝ)⟩ := by
  apply Complex.ext
  · simp [sampleVec, vec, Pi4Input.iq, IqSample.dot]
  · simp [sampleVec, vec, Pi4Input.iq, IqSample.cross]
    ring

/-- Two samples in the clear give the dibit of the exact products. -/
theorem decision_eq {i j : Pi4Input} (h : Clear i.iq j.iq) :
    decision i j = quadrant (i.iq.dot j.iq) (i.iq.cross j.iq) := by
  have hlong₁ := norm_long h.long₁
  have hlong₂ := norm_long h.long₂
  obtain ⟨l₁, hl₁, hnear₁⟩ := phase_near i hlong₁
  obtain ⟨l₂, hl₂, hnear₂⟩ := phase_near j hlong₂
  have hscale : 0 < l₂ * l₁ := mul_pos hl₂ hl₁
  have hsize : 0 < ‖sampleVec j‖ * ‖sampleVec i‖ := by positivity
  have hbudget : 2 * (3 / 50) + (3 / 50) ^ 2 = (309 / 2500 : ℝ) := by norm_num
  have hdelta := between hnear₁ hnear₂
  rw [← dir_sub, hbudget] at hdelta
  have hre := (Complex.abs_re_le_norm _).trans hdelta
  have him := (Complex.abs_im_le_norm _).trans hdelta
  rw [product_eq, Complex.sub_re, Complex.re_ofReal_mul] at hre
  rw [product_eq, Complex.sub_im, Complex.im_ofReal_mul] at him
  exact dibitNext_eq (same_sign hscale hsize (norm_product_le h.dot) hre)
    (same_sign hscale hsize (norm_product_le h.cross) him)

/-- The rule of the uplink detectors. -/
theorem quadrant_eq {v₁ v₂ : IqSample} (h : Clear v₁ v₂) :
    quadrant (v₁.dot v₂) (v₁.cross v₂) = diffDibit v₂ v₁ := by
  have hpos : 0 < v₁.normSq * v₂.normSq :=
    mul_pos (by linarith [h.long₁]) (by linarith [h.long₂])
  have hne : ∀ a : ℤ, v₁.normSq * v₂.normSq ≤ 64 * a ^ 2 → a ≠ 0 := by
    rintro a ha rfl
    linarith
  have hdot := hne _ h.dot
  have hcross := hne _ h.cross
  have hsigns : diffDibit v₂ v₁ =
      BitVec.ofBool (v₁.cross v₂ < 0) ++ BitVec.ofBool (v₁.dot v₂ < 0) := rfl
  rw [hsigns, quadrant]
  by_cases hc : 0 < v₁.cross v₂
  · rw [if_pos hc, decide_eq_false (not_lt.2 hc.le)]
    by_cases hd : 0 < v₁.dot v₂
    · rw [if_pos hd, decide_eq_false (not_lt.2 hd.le)]
      rfl
    · rw [if_neg hd, decide_eq_true (by omega)]
      rfl
  · rw [if_neg hc, decide_eq_true (by omega)]
    by_cases hd : 0 < v₁.dot v₂
    · rw [if_pos hd, decide_eq_false (not_lt.2 hd.le)]
      rfl
    · rw [if_neg hd, decide_eq_true (by omega)]
      rfl

end Pi4dqpskDemod
end TetraBs.Phy
