import Mathlib.Algebra.BigOperators.Intervals
import Mathlib.Algebra.Order.BigOperators.Group.Finset
import Mathlib.Algebra.Ring.GeomSum
import Mathlib.Data.List.GetD
import Mathlib.RingTheory.PowerSeries.Expand
import Mathlib.RingTheory.PowerSeries.Inverse

/-! Finite filters over sequences that start at 0, and filters of stuffed sequences. Nothing here
is about TETRA. -/
namespace TetraBs.Fir
open Finset
variable {R : Type*} [CommSemiring R]

/-- The `n`-th value of `x` filtered by the `N` taps of `h`; before its start `x` is zero. -/
def conv (h : ℕ → R) (N : ℕ) (x : ℕ → R) (n : ℕ) : R :=
  ∑ k ∈ range N, if k ≤ n then h k * x (n - k) else 0

/-- `x` with `L - 1` zeros behind each value. -/
def stuffed (L : ℕ) (x : ℕ → R) (m : ℕ) : R := if L ∣ m then x (m / L) else 0

theorem conv_congr {h : ℕ → R} {N n : ℕ} {x y : ℕ → R} (hxy : ∀ j ≤ n, x j = y j) :
    conv h N x n = conv h N y n := by
  refine sum_congr rfl fun k _ => ?_
  split
  · rw [hxy (n - k) (Nat.sub_le n k)]
  · rfl

/-- A phase of a filter of `L * K` taps on a stuffed sequence is a filter of `K` taps. -/
theorem conv_stuffed (h : ℕ → R) {L p : ℕ} (hp : p < L) (K : ℕ) (x : ℕ → R) (n : ℕ) :
    conv h (L * K) (stuffed L x) (L * n + p) = conv (fun k => h (p + L * k)) K x n := by
  unfold conv
  induction K with
  | zero => rfl
  | succ K ih =>
    rw [Nat.mul_succ, sum_range_add, ih, sum_range_succ]
    congr 1
    rw [sum_eq_single p]
    · have hle : L * K + p ≤ L * n + p ↔ K ≤ n := by
        rw [Nat.add_le_add_iff_right]
        exact Nat.mul_le_mul_left_iff (by omega)
      by_cases hK : K ≤ n
      · have hsub : L * n + p - (L * K + p) = L * (n - K) := by
          rw [Nat.mul_sub]
          omega
        rw [if_pos (hle.2 hK), if_pos hK, hsub, stuffed, if_pos (Nat.dvd_mul_right L _),
          Nat.mul_div_cancel_left _ (by omega), Nat.add_comm]
      · rw [if_neg fun h => hK (hle.1 h), if_neg hK]
    · intro r hr hne
      rw [mem_range] at hr
      split
      · rename_i hle
        have hnot : ¬L ∣ L * n + p - (L * K + r) := by
          rintro ⟨c, hc⟩
          have heq : L * n + p = L * (K + c) + r := by
            rw [Nat.mul_add]
            omega
          apply hne
          have hmod := congrArg (· % L) heq
          simp only [Nat.mul_add_mod] at hmod
          rw [Nat.mod_eq_of_lt hp, Nat.mod_eq_of_lt hr] at hmod
          exact hmod.symm
        rw [stuffed, if_neg hnot, mul_zero]
      · rfl
    · intro hnot
      exact absurd (mem_range.2 hp) hnot

/-- Taps beyond the last one do not matter. -/
theorem conv_extend {h : ℕ → R} {N M : ℕ} (hNM : N ≤ M) (hzero : ∀ k, N ≤ k → h k = 0)
    (x : ℕ → R) (n : ℕ) : conv h N x n = conv h M x n := by
  refine sum_subset (range_subset_range.2 hNM) fun k _ hk => ?_
  rw [mem_range, not_lt] at hk
  rw [hzero k hk, zero_mul, ite_self]

/-- A filter reads its sequence from the newest value back. -/
theorem conv_reverse (h : ℕ → R) (N : ℕ) (xs : List R) {n : ℕ} (hn : n < xs.length) :
    conv h N (fun k => xs.getD k 0) n =
      ∑ k ∈ range N, h k * ((xs.take (n + 1)).reverse).getD k 0 := by
  refine sum_congr rfl fun k _ => ?_
  have hlen : (xs.take (n + 1)).length = n + 1 := by
    rw [List.length_take]
    omega
  split
  · rename_i hk
    have hget : (xs.take (n + 1)).reverse.getD k 0 = xs.getD (n - k) 0 := by
      rw [List.getD_eq_getElem _ _ (by rw [List.length_reverse]; omega),
        List.getD_eq_getElem _ _ (by omega), List.getElem_reverse, List.getElem_take]
      congr 1
      omega
    rw [hget]
  · rename_i hk
    have hget : (xs.take (n + 1)).reverse.getD k 0 = 0 :=
      List.getD_eq_default _ _ (by rw [List.length_reverse]; omega)
    rw [hget, mul_zero]

end TetraBs.Fir

/-! Cascades of integrators and combs. A sequence is a power series, one step of delay a factor `X`:
an integrator divides by `1 - X`, a comb of length `L` multiplies by `1 - X ^ L`, and a pair of them
adds up the last `L` values. In a ring where sums wrap around this is as true as elsewhere. Nothing
here is about TETRA. -/
namespace TetraBs.Cic
open Finset PowerSeries
variable {R : Type*} [CommRing R]

/-- The stage in front of stage `k`. -/
def stageBefore {n : ℕ} (k : Fin (n + 1)) : Fin (n + 1) := Fin.ofNat (n + 1) (k - 1)

theorem stageBefore_val {n : ℕ} (k : Fin (n + 1)) : (stageBefore k).val = k.val - 1 :=
  Nat.mod_eq_of_lt (by omega)

/-- The sum of the last `L` values. -/
noncomputable def boxcar (L : ℕ) : R⟦X⟧ := ∑ i ∈ range L, X ^ i

/-- Every `L`-th value, from the first on. -/
noncomputable def decimate (L : ℕ) (f : R⟦X⟧) : R⟦X⟧ := mk fun n => coeff (L * n) f

theorem boxcar_mul (L : ℕ) : (boxcar L : R⟦X⟧) * (1 - X) = 1 - X ^ L := geom_sum_mul_neg X L

/-- A comb behind the decimation is a long one in front of it. -/
theorem decimate_comb {L : ℕ} (hL : 0 < L) (f : R⟦X⟧) :
    decimate L ((1 - X ^ L) * f) = (1 - X) * decimate L f := by
  ext n
  rw [sub_mul, sub_mul, one_mul, one_mul, decimate, coeff_mk, map_sub, map_sub,
    coeff_X_pow_mul']
  cases n with
  | zero =>
    rw [if_neg (by omega), coeff_zero_X_mul, decimate, coeff_mk]
  | succ n =>
    have hsub : L * (n + 1) - L = L * n := by rw [Nat.mul_succ, Nat.add_sub_cancel]
    rw [if_pos (Nat.le_mul_of_pos_right L n.succ_pos), coeff_succ_X_mul, decimate, coeff_mk,
      coeff_mk, hsub]

theorem decimate_combs {L : ℕ} (hL : 0 < L) (k : ℕ) (f : R⟦X⟧) :
    decimate L ((1 - X ^ L) ^ k * f) = (1 - X) ^ k * decimate L f := by
  induction k generalizing f with
  | zero => rw [pow_zero, pow_zero, one_mul, one_mul]
  | succ k ih => rw [pow_succ', mul_assoc, decimate_comb hL, ih, pow_succ', mul_assoc]

/-- A comb in front of the stuffing is a long one behind it. -/
theorem expand_combs {L : ℕ} (hL : L ≠ 0) (k : ℕ) (f : R⟦X⟧) :
    expand L hL ((1 - X) ^ k * f) = (1 - X ^ L) ^ k * expand L hL f := by
  rw [map_mul, map_pow, map_sub, map_one, expand_X]

/-- Integrators in a row, each reading the one before it a step late. -/
theorem integrators {I : ℕ → R⟦X⟧} (hI : ∀ k, (1 - X) * I (k + 1) = X * I k) (k : ℕ) :
    (1 - X) ^ k * I k = X ^ k * I 0 := by
  induction k with
  | zero => rw [pow_zero, pow_zero]
  | succ k ih =>
    rw [pow_succ, mul_assoc, hI, mul_left_comm, ih, ← mul_assoc, ← pow_succ']

/-- Integrators and as many long combs: the values of `k` boxcars, `k` steps late. -/
theorem combed_integrators {I : ℕ → R⟦X⟧} (hI : ∀ k, (1 - X) * I (k + 1) = X * I k)
    (L k : ℕ) : (1 - X ^ L) ^ k * I k = boxcar L ^ k * X ^ k * I 0 := by
  rw [← boxcar_mul, mul_pow, mul_assoc, integrators hI, ← mul_assoc]

/-- What is in a row of integrators after `n` values. -/
def integrals (x : ℕ → R) : ℕ → ℕ → R
  | 0, _ => 0
  | n + 1, 0 => integrals x n 0 + x n
  | n + 1, k + 1 => integrals x n (k + 1) + integrals x n k

/-- The integrators as series, with the values in front of them. -/
noncomputable def integralSeries (x : ℕ → R) : ℕ → R⟦X⟧
  | 0 => mk x
  | k + 1 => mk fun n => integrals x n k

theorem coeff_integralSeries (x : ℕ → R) (n k : ℕ) :
    coeff n (integralSeries x (k + 1)) = integrals x n k := by
  rw [integralSeries, coeff_mk]

theorem integrals_succ (x : ℕ → R) (n k : ℕ) :
    integrals x (n + 1) k = integrals x n k + coeff n (integralSeries x k) := by
  cases k with
  | zero => rw [integrals, integralSeries, coeff_mk]
  | succ k => rw [integrals, coeff_integralSeries]

theorem integralSeries_step (x : ℕ → R) (k : ℕ) :
    (1 - X) * integralSeries x (k + 1) = X * integralSeries x k := by
  ext n
  rw [sub_mul, one_mul, map_sub, coeff_integralSeries]
  cases n with
  | zero => rw [coeff_zero_X_mul, coeff_zero_X_mul, integrals, sub_zero]
  | succ n =>
    rw [coeff_succ_X_mul, coeff_succ_X_mul, coeff_integralSeries, integrals_succ,
      add_sub_cancel_left]

theorem isUnit_one_sub_X : IsUnit (1 - X : R⟦X⟧) := by
  rw [isUnit_iff_constantCoeff, map_sub, map_one, constantCoeff_X, sub_zero]
  exact isUnit_one

/-- Long combs in front of integrators: what is left of both. -/
theorem integrated_combs {I : ℕ → R⟦X⟧} (hI : ∀ k, (1 - X) * I (k + 1) = X * I k) {L n : ℕ}
    {f : R⟦X⟧} (h0 : I 0 = (1 - X ^ L) ^ n * f) {k : ℕ} (hk : k ≤ n) :
    I k = X ^ k * (boxcar L ^ k * ((1 - X ^ L) ^ (n - k) * f)) := by
  have hsplit : ((1 : R⟦X⟧) - X ^ L) ^ n =
      (1 - X) ^ k * (boxcar L ^ k * (1 - X ^ L) ^ (n - k)) := by
    rw [← mul_assoc, ← mul_pow, mul_comm (1 - X), boxcar_mul, ← pow_add, Nat.add_sub_of_le hk]
  apply ((isUnit_one_sub_X (R := R)).pow k).mul_left_cancel
  rw [integrators hI, h0, hsplit]
  ring

/-! Integer values. -/

theorem coeff_boxcar_mul (L n : ℕ) (f : R⟦X⟧) :
    coeff n (boxcar L * f) = ∑ i ∈ range L, if i ≤ n then coeff (n - i) f else 0 := by
  rw [boxcar, sum_mul, map_sum]
  exact sum_congr rfl fun i _ => coeff_X_pow_mul' f i n

/-- A series that ends in the constant `c` ends, after boxcars, in their gain times `c`. -/
theorem coeff_boxcars_mul_eq {f : R⟦X⟧} {c : R} {d : ℕ} (h : ∀ n, d ≤ n → coeff n f = c)
    {L k n : ℕ} (hn : d + k * L ≤ n) : coeff n (boxcar L ^ k * f) = L ^ k * c := by
  induction k generalizing n with
  | zero => simpa using h n (by simpa using hn)
  | succ k ih =>
    rw [pow_succ', mul_assoc, coeff_boxcar_mul, pow_succ', mul_assoc]
    have hterm : ∀ i ∈ range L, (if i ≤ n then coeff (n - i) (boxcar L ^ k * f) else 0) =
        (L : R) ^ k * c := by
      intro i hi
      rw [mem_range] at hi
      rw [Nat.succ_mul] at hn
      rw [if_pos (by omega), ih (by omega)]
    rw [sum_congr rfl hterm, sum_const, card_range, nsmul_eq_mul]

/-- Holding every value for `L` steps is a boxcar behind the stuffing. -/
theorem coeff_boxcar_expand_const {L : ℕ} (hL : L ≠ 0) (c : R) (n : ℕ) :
    coeff n (boxcar L * expand L hL (mk fun _ => c)) = c := by
  have hone : (1 - X) * (mk fun _ => c : R⟦X⟧) = C c := by
    ext n
    rw [sub_mul, one_mul, map_sub, coeff_mk, coeff_C]
    cases n with
    | zero => rw [coeff_zero_X_mul, sub_zero, if_pos rfl]
    | succ n => rw [coeff_succ_X_mul, coeff_mk, sub_self, if_neg n.succ_ne_zero]
  have hheld : boxcar L * expand L hL (mk fun _ => c) = (mk fun _ => c : R⟦X⟧) := by
    apply (isUnit_one_sub_X (R := R)).mul_left_cancel
    have hcomb := expand_combs hL 1 (mk fun _ => c : R⟦X⟧)
    rw [pow_one, pow_one, hone, expand_C] at hcomb
    rw [hone, hcomb, ← boxcar_mul]
    ring
  rw [hheld, coeff_mk]

/-- The coefficients of `f` lie between `lo` and `hi`. -/
def Between (lo hi : ℤ) (f : ℤ⟦X⟧) : Prop := ∀ n, lo ≤ coeff n f ∧ coeff n f ≤ hi

theorem Between.boxcar {lo hi : ℤ} {f : ℤ⟦X⟧} (h : Between lo hi f) (hlo : lo ≤ 0) (hhi : 0 ≤ hi)
    (L : ℕ) : Between (L * lo) (L * hi) (Cic.boxcar L * f) := by
  intro n
  rw [coeff_boxcar_mul]
  have hterm : ∀ i ∈ range L, lo ≤ (if i ≤ n then coeff (n - i) f else 0) ∧
      (if i ≤ n then coeff (n - i) f else 0) ≤ hi := by
    intro i _
    split
    · exact h (n - i)
    · exact ⟨hlo, hhi⟩
  have hlow := card_nsmul_le_sum (range L) _ lo fun i hi => (hterm i hi).1
  have hhigh := sum_le_card_nsmul (range L) _ hi fun i hi => (hterm i hi).2
  rw [card_range, nsmul_eq_mul] at hlow hhigh
  exact ⟨hlow, hhigh⟩

theorem Between.boxcars {lo hi : ℤ} {f : ℤ⟦X⟧} (h : Between lo hi f) (hlo : lo ≤ 0) (hhi : 0 ≤ hi)
    (L k : ℕ) : Between (L ^ k * lo) (L ^ k * hi) (Cic.boxcar L ^ k * f) := by
  induction k with
  | zero => simpa using h
  | succ k ih =>
    have hpos : (0 : ℤ) ≤ (L : ℤ) ^ k := by positivity
    rw [pow_succ', mul_assoc, pow_succ', mul_assoc, mul_assoc]
    exact ih.boxcar (mul_nonpos_of_nonneg_of_nonpos hpos hlo) (mul_nonneg hpos hhi) L

theorem Between.delay {lo hi : ℤ} {f : ℤ⟦X⟧} (h : Between lo hi f) (hlo : lo ≤ 0) (hhi : 0 ≤ hi)
    (k : ℕ) : Between lo hi (X ^ k * f) := by
  intro n
  rw [coeff_X_pow_mul']
  split
  · exact h (n - k)
  · exact ⟨hlo, hhi⟩

theorem Between.combs {b : ℤ} {f : ℤ⟦X⟧} (h : Between (-b) b f) (hb : 0 ≤ b) (L k : ℕ) :
    Between (-(2 ^ k * b)) (2 ^ k * b) ((1 - X ^ L) ^ k * f) := by
  induction k with
  | zero => simpa using h
  | succ k ih =>
    have hpos : (0 : ℤ) ≤ 2 ^ k * b := by positivity
    intro n
    have hf := ih n
    have hd := ih.delay (by omega) hpos L n
    have hstep : (1 - X ^ L) ^ (k + 1) * f =
        (1 - X ^ L) ^ k * f - X ^ L * ((1 - X ^ L) ^ k * f) := by ring
    rw [hstep, map_sub, pow_succ', mul_assoc]
    omega

theorem Between.expand {lo hi : ℤ} {f : ℤ⟦X⟧} (h : Between lo hi f) (hlo : lo ≤ 0) (hhi : 0 ≤ hi)
    {L : ℕ} (hL : L ≠ 0) : Between lo hi (PowerSeries.expand L hL f) := by
  intro n
  rw [coeff_expand]
  split
  · exact h (n / L)
  · exact ⟨hlo, hhi⟩

end TetraBs.Cic
