import TetraBs.Lib.Cic
import TetraBs.Lib.Signed

/-! The CIC interpolator of `tetra_tx_frontend`, one of I and Q: five combs, each a register behind
the one before it, and five integrators that take the last comb with 63 zeros behind it. -/
namespace TetraBs.Phy
open PowerSeries TetraBs.Cic TetraBs.Signed

/-- The numbered registers of the source are functions of the stage; the last `cy` is
`comb_out`. -/
structure TxChannel where
  combIn : BitVec 48 := 0
  cd : Fin 5 → BitVec 48 := fun _ => 0
  cy : Fin 5 → BitVec 48 := fun _ => 0
  intg : Fin 5 → BitVec 48 := fun _ => 0
  txLvds : BitVec 16 := 0

namespace TxChannel

/-- What comb stage `k` reads. -/
def combSrc (c : TxChannel) (k : Fin 5) : BitVec 48 :=
  if k.val = 0 then c.combIn else c.cy (stageBefore k)

/-- What integrator `k` adds; the first one gets the combs once a period. -/
def intgIn (c : TxChannel) (first : Bool) (k : Fin 5) : BitVec 48 :=
  if k.val = 0 then if first then c.cy (Fin.last 4) else 0 else c.intg (stageBefore k)

def sat (acc : BitVec 48) : BitVec 16 := saturate 16 (acc.sshiftRight 24)

/-- `combLoad`, `intgEn`, `first` and `intgEnD1` are what the counter says, `x` is the half of the
FIFO's output. -/
def step (c : TxChannel) (combLoad intgEn first intgEnD1 : Bool) (x : BitVec 16) : TxChannel where
  combIn := if combLoad then x.signExtend 48 else c.combIn
  cd k := if combLoad then c.combSrc k else c.cd k
  cy k := if combLoad then c.combSrc k - c.cd k else c.cy k
  intg k := if intgEn then c.intg k + c.intgIn first k else c.intg k
  txLvds := if intgEnD1 then sat (c.intg (Fin.last 4)) else c.txLvds

/-- No subtraction of the combs and no sum that is taken over wraps. -/
structure Exact (c : TxChannel) (intgEn first : Bool) : Prop where
  comb (k : Fin 5) : (c.combSrc k - c.cd k).toInt = (c.combSrc k).toInt - (c.cd k).toInt
  intg (k : Fin 5) : intgEn = true →
    (c.intg k + c.intgIn first k).toInt = (c.intg k).toInt + (c.intgIn first k).toInt

end TxChannel

/-! The registers as series. -/

/-- What comb stage `k` reads, by the number of loads. -/
noncomputable def combSeries (u : ℕ → ℤ) (k : ℕ) : ℤ⟦X⟧ := X ^ (k + 1) * ((1 - X) ^ k * mk u)

/-- What the first integrator adds, by the number of its steps. -/
noncomputable def combStuffed (u : ℕ → ℤ) (n : ℕ) : ℤ :=
  coeff n (expand 64 (by decide) (combSeries u 5))

/-- `u` through five combs, 63 zeros behind each value, and five integrators. -/
noncomputable def interpolated (u : ℕ → ℤ) : ℤ⟦X⟧ :=
  boxcar 64 ^ 5 * expand 64 (by decide) (mk u)

theorem interpolated_spec (u : ℕ → ℤ) :
    (1 - X) ^ 5 * interpolated u = expand 64 (by decide) ((1 - X) ^ 5 * mk u) := by
  rw [interpolated, expand_combs, ← boxcar_mul, mul_pow]
  ring

theorem combSeries_succ (u : ℕ → ℤ) (k m : ℕ) :
    coeff (m + 1) (combSeries u (k + 1)) =
      coeff m (combSeries u k) - coeff m (X * combSeries u k) := by
  have hstage : combSeries u (k + 1) = X * ((1 - X) * combSeries u k) := by
    rw [combSeries, combSeries]
    ring
  rw [hstage, coeff_succ_X_mul, sub_mul, one_mul, map_sub]

theorem combSeries_zero (u : ℕ → ℤ) (k : ℕ) : coeff 0 (combSeries u k) = 0 := by
  rw [combSeries, pow_succ', mul_assoc, coeff_zero_X_mul]

theorem combSeries_first (u : ℕ → ℤ) (m : ℕ) : coeff (m + 1) (combSeries u 0) = u m := by
  rw [combSeries, zero_add, pow_one, pow_zero, one_mul, coeff_succ_X_mul, coeff_mk]

/-- The integrators' series: boxcars for the combs taken up, long combs for the others. -/
theorem integralSeries_eq (u : ℕ → ℤ) {k : ℕ} (hk : k ≤ 5) :
    integralSeries (combStuffed u) k = X ^ k * (boxcar 64 ^ k *
      ((1 - X ^ 64) ^ (5 - k) * (X ^ 384 * expand 64 (by decide) (mk u)))) := by
  refine integrated_combs (integralSeries_step _) ?_ hk
  have hmk : integralSeries (combStuffed u) 0 = expand 64 (by decide) (combSeries u 5) := by
    ext n
    rw [integralSeries, coeff_mk, combStuffed]
  rw [hmk, combSeries, map_mul, map_pow, expand_X, expand_combs]
  ring

/-- The last integrator holds the interpolation, 389 steps late. -/
theorem integrals_interpolated (u : ℕ → ℤ) (n : ℕ) :
    integrals (combStuffed u) n 4 = coeff n (X ^ 389 * interpolated u) := by
  have hdelay : X ^ 5 * (boxcar 64 ^ 5 * ((1 - X ^ 64) ^ (5 - 5) *
      (X ^ 384 * expand 64 (by decide) (mk u)))) = X ^ 389 * interpolated u := by
    rw [interpolated, Nat.sub_self, pow_zero, one_mul]
    ring
  rw [← coeff_integralSeries, integralSeries_eq u (le_refl 5), hdelay]

section
variable {u : ℕ → ℤ} (hu : ∀ n, Signed.Fits 16 (u n))
include hu

theorem samples_between : Between (-2 ^ 15) (2 ^ 15) (mk u) := by
  intro n
  rw [coeff_mk]
  obtain ⟨hlo, hhi⟩ := hu n
  norm_num at hlo hhi ⊢
  omega

theorem combSeries_fits {k : ℕ} (hk : k ≤ 5) (m : ℕ) :
    Signed.Fits 48 (coeff m (combSeries u k)) := by
  have hcombs := (samples_between hu).combs (by norm_num) 1 k
  rw [pow_one] at hcombs
  obtain ⟨hlo, hhi⟩ := hcombs.delay (by simp) (by positivity) (k + 1) m
  have hpow : (2 : ℤ) ^ k ≤ 2 ^ 5 := pow_le_pow_right₀ (by norm_num) hk
  rw [← combSeries] at hlo hhi
  norm_num at hlo hhi hpow
  constructor
  · norm_num
    linarith
  · norm_num
    linarith

theorem integralSeries_fits {k : ℕ} (hk : k ≤ 5) (n : ℕ) :
    Signed.Fits 48 (coeff n (integralSeries (combStuffed u) k)) := by
  have hstuffed := ((samples_between hu).expand (by norm_num) (by norm_num)
    (by decide : 64 ≠ 0)).delay (by norm_num) (by norm_num) 384
  have hboxcars := (hstuffed.combs (by norm_num) 64 (5 - k)).boxcars
    (by simp) (by positivity) 64 k
  obtain ⟨hlo, hhi⟩ := hboxcars.delay (by simp) (by positivity) k n
  rw [← integralSeries_eq u hk] at hlo hhi
  interval_cases k <;> norm_num at hlo hhi <;> exact ⟨by norm_num; omega, by norm_num; omega⟩

theorem integrals_fits {k : ℕ} (hk : k < 5) (n : ℕ) :
    Signed.Fits 48 (integrals (combStuffed u) n k) := by
  rw [← coeff_integralSeries]
  exact integralSeries_fits hu hk n

end

/-! The registers in a run. -/

namespace TxChannel

/-- After `m` loads and `n` steps of the integrators. -/
structure Holds (u : ℕ → ℤ) (m n : ℕ) (c : TxChannel) : Prop where
  combIn : c.combIn.toInt = coeff m (combSeries u 0)
  cd (k : Fin 5) : (c.cd k).toInt = coeff m (X * combSeries u k)
  cy (k : Fin 5) : (c.cy k).toInt = coeff m (combSeries u (k + 1))
  intg (k : Fin 5) : (c.intg k).toInt = integrals (combStuffed u) n k

variable {u : ℕ → ℤ} {m n : ℕ} {c : TxChannel} {first : Bool}

theorem holds_reset (u : ℕ → ℤ) : Holds u 0 0 {} where
  combIn := by rw [combSeries_zero]; rfl
  cd k := by rw [coeff_zero_X_mul]; rfl
  cy k := by rw [combSeries_zero]; rfl
  intg k := by rw [integrals]; rfl

theorem Holds.combSrc (h : Holds u m n c) (k : Fin 5) :
    (c.combSrc k).toInt = coeff m (combSeries u k) := by
  rw [TxChannel.combSrc]
  by_cases hk : k.val = 0
  · rw [if_pos hk, h.combIn, hk]
  · rw [if_neg hk, h.cy, stageBefore_val, Nat.sub_add_cancel (Nat.pos_of_ne_zero hk)]

theorem Holds.difference (h : Holds u m n c) (hu : ∀ n, Signed.Fits 16 (u n)) (k : Fin 5) :
    Signed.Fits 48 ((c.combSrc k).toInt - (c.cd k).toInt) := by
  rw [h.combSrc, h.cd, ← combSeries_succ]
  exact combSeries_fits hu (by omega) (m + 1)

/-- The last comb comes in at the start of a period, and zeros otherwise. -/
def InPeriod (first : Bool) (m n : ℕ) : Prop := if first then n = 64 * m else ¬64 ∣ n

theorem Holds.intgIn (h : Holds u m n c) (hn : InPeriod first m n) (k : Fin 5) :
    (c.intgIn first k).toInt = coeff n (integralSeries (combStuffed u) k) := by
  rw [TxChannel.intgIn]
  by_cases hk : k.val = 0
  · rw [if_pos hk, hk, integralSeries, coeff_mk, combStuffed]
    cases first with
    | false => rw [coeff_expand_of_not_dvd _ _ _ hn]; rfl
    | true =>
      have hstart : n = 64 * m := hn
      rw [hstart, coeff_expand_mul, if_pos rfl]
      exact h.cy (Fin.last 4)
  · obtain ⟨j, hj⟩ : ∃ j, k.val = j + 1 := ⟨k.val - 1, by omega⟩
    rw [if_neg hk, h.intg, stageBefore_val, hj, coeff_integralSeries, Nat.add_sub_cancel]

theorem Holds.sum (h : Holds u m n c) (hn : InPeriod first m n) (k : Fin 5) :
    (c.intg k).toInt + (c.intgIn first k).toInt = integrals (combStuffed u) (n + 1) k := by
  rw [h.intg, h.intgIn hn, integrals_succ]

theorem Holds.exact (h : Holds u m n c) (hu : ∀ n, Signed.Fits 16 (u n)) {intgEn : Bool}
    (hn : intgEn = true → InPeriod first m n) : c.Exact intgEn first where
  comb k := toInt_sub (h.difference hu k)
  intg k hen := by
    apply toInt_add
    rw [h.sum (hn hen)]
    exact integrals_fits hu k.isLt (n + 1)

theorem Holds.step (h : Holds u m n c) (hu : ∀ n, Signed.Fits 16 (u n)) {combLoad intgEn : Bool}
    {x : BitVec 16} (hx : combLoad = true → x.toInt = u m)
    (hn : intgEn = true → InPeriod first m n) (intgEnD1 : Bool) :
    Holds u (m + combLoad.toNat) (n + intgEn.toNat) (c.step combLoad intgEn first intgEnD1 x) := by
  have hexact := h.exact hu hn
  refine ⟨?_, fun k => ?_, fun k => ?_, fun k => ?_⟩
  · show (if combLoad then x.signExtend 48 else c.combIn).toInt = _
    cases combLoad with
    | false => exact h.combIn
    | true => rw [if_pos rfl, toInt_signExtend _ (by decide), hx rfl, Bool.toNat_true,
        combSeries_first]
  · show (if combLoad then c.combSrc k else c.cd k).toInt = _
    cases combLoad with
    | false => exact h.cd k
    | true => rw [if_pos rfl, h.combSrc, Bool.toNat_true, coeff_succ_X_mul]
  · show (if combLoad then c.combSrc k - c.cd k else c.cy k).toInt = _
    cases combLoad with
    | false => exact h.cy k
    | true => rw [if_pos rfl, hexact.comb, h.combSrc, h.cd, Bool.toNat_true, combSeries_succ]
  · show (if intgEn then c.intg k + c.intgIn first k else c.intg k).toInt = _
    cases intgEn with
    | false => exact h.intg k
    | true => rw [if_pos rfl, hexact.intg k rfl, h.sum (hn rfl), Bool.toNat_true]

/-- What is put out after `n` steps of the integrators. -/
noncomputable def output (u : ℕ → ℤ) (n : ℕ) : BitVec 16 :=
  BitVec.ofInt 16 (clamp 16 (coeff n (X ^ 389 * interpolated u) / 2 ^ 24))

theorem Holds.sat (h : Holds u m n c) : sat (c.intg (Fin.last 4)) = output u n := by
  apply BitVec.eq_of_toInt_eq
  rw [TxChannel.sat, toInt_saturate _ (by decide) (by decide), toInt_sshiftRight, output,
    toInt_ofInt (fits_clamp (by decide) _), h.intg, ← integrals_interpolated]
  rfl

end TxChannel

end TetraBs.Phy
