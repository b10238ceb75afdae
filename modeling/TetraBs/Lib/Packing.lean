import TetraBs.Lib.BitReader
import Mathlib.Data.List.GetD

/-! Vectors packed from the top: fields or-ed in one behind the other, zeros behind the last.
Nothing here is about TETRA. -/
namespace TetraBs.Packing
open TetraBs.Bits TetraBs.BitReader
variable {n : Nat}

/-- The bits of `x`, highest first, are `bs` and then zeros. -/
structure Packed (x : BitVec n) (bs : List Bool) : Prop where
  fits : bs.length ≤ n
  bits : ∀ j < n, x.getLsbD (n - 1 - j) = bs.getD j false

theorem packed_zero : Packed (0 : BitVec n) [] where
  fits := Nat.zero_le n
  bits j _ := by simp

theorem Packed.msbBits_eq {x : BitVec n} {bs : List Bool} (h : Packed x bs) :
    msbBits x n = bs ++ List.replicate (n - bs.length) false := by
  have hfits := h.fits
  refine List.ext_getElem (by simp; omega) fun j hj hj' => ?_
  rw [msbBits_length] at hj
  have hbit := h.bits j hj
  rw [List.getElem_append]
  split
  · rename_i hlt
    rw [List.getD_eq_getElem _ _ hlt] at hbit
    simpa [msbBits] using hbit
  · rename_i hge
    rw [List.getD_eq_default _ _ (Nat.le_of_not_lt hge)] at hbit
    simpa [msbBits] using hbit

theorem getD_msbBits {w m : Nat} (v : BitVec w) {j : Nat} (hj : j < m) :
    (msbBits v m).getD j false = v.getLsbD (m - 1 - j) := by
  rw [List.getD_eq_getElem _ _ (by rw [msbBits_length]; exact hj)]
  simp [msbBits]

/-- A field of `m` bits whose value fits, or-ed in behind what is there. -/
theorem Packed.or {x : BitVec n} {bs : List Bool} (h : Packed x bs) {v : BitVec n} {m k : Nat}
    (hv : v.toNat < 2 ^ m) (hk : bs.length + m + k = n) :
    Packed (x ||| v <<< k) (bs ++ msbBits v m) where
  fits := by
    rw [List.length_append, msbBits_length]
    omega
  bits j hj := by
    have htop : ∀ l, m ≤ l → v.getLsbD l = false := by
      intro l hl
      exact Nat.testBit_lt_two_pow
        (Nat.lt_of_lt_of_le hv (Nat.pow_le_pow_right (by decide) hl))
    rw [BitVec.getLsbD_or, h.bits j hj, BitVec.getLsbD_shiftLeft, decide_eq_true (by omega),
      Bool.true_and]
    by_cases hfront : j < bs.length
    · rw [List.getD_append _ _ _ _ hfront, htop _ (by omega), Bool.and_false, Bool.or_false]
    · have hzero : bs.getD j false = false := List.getD_eq_default _ _ (Nat.le_of_not_lt hfront)
      rw [hzero, Bool.false_or, List.getD_append_right _ _ _ _ (Nat.le_of_not_lt hfront)]
      by_cases hfield : j - bs.length < m
      · rw [getD_msbBits v hfield, decide_eq_false (by omega), Bool.not_false, Bool.true_and,
          (by omega : n - 1 - j - k = m - 1 - (j - bs.length))]
      · rw [List.getD_eq_default _ _ (by rw [msbBits_length]; omega), decide_eq_true (by omega)]
        rfl

/-- A vector moved down behind what is there. -/
theorem Packed.orShift {x y : BitVec n} {bs cs : List Bool} (h : Packed x bs) (hy : Packed y cs)
    {k : Nat} (hbs : bs.length ≤ k) (hcs : k + cs.length ≤ n) :
    Packed (x ||| y >>> k) (bs ++ List.replicate (k - bs.length) false ++ cs) where
  fits := by
    rw [List.length_append, List.length_append, List.length_replicate]
    omega
  bits j hj := by
    have hlen : (bs ++ List.replicate (k - bs.length) false).length = k := by
      rw [List.length_append, List.length_replicate]
      omega
    rw [BitVec.getLsbD_or, h.bits j hj, BitVec.getLsbD_ushiftRight]
    by_cases hfront : j < k
    · have hnone : y.getLsbD (k + (n - 1 - j)) = false := BitVec.getLsbD_of_ge _ _ (by omega)
      rw [hnone, Bool.or_false, List.getD_append _ _ _ _ (by rw [hlen]; exact hfront)]
      by_cases hj' : j < bs.length
      · rw [List.getD_append _ _ _ _ hj']
      · rw [List.getD_append_right _ _ _ _ (Nat.le_of_not_lt hj'),
          List.getD_eq_default _ _ (Nat.le_of_not_lt hj')]
        simp
    · have hzero : bs.getD j false = false := List.getD_eq_default _ _ (by omega)
      rw [hzero, Bool.false_or, List.getD_append_right _ _ _ _ (by rw [hlen]; omega), hlen,
        ← hy.bits (j - k) (by omega)]
      congr 1
      omega

/-- One bit behind what is there, and zeros before it. -/
theorem Packed.orBit {x : BitVec n} {bs : List Bool} (h : Packed x bs) {k : Nat}
    (hbs : bs.length ≤ k) (hk : k < n) :
    Packed (x ||| BitVec.twoPow n (n - 1 - k))
      (bs ++ List.replicate (k - bs.length) false ++ [true]) := by
  have hone : Packed (BitVec.twoPow n (n - 1)) [true] := by
    refine ⟨by rw [List.length_singleton]; omega, fun j hj => ?_⟩
    rw [BitVec.getLsbD_twoPow]
    cases j with
    | zero => simp; omega
    | succ j => simp; omega
  have hshift : BitVec.twoPow n (n - 1) >>> k = BitVec.twoPow n (n - 1 - k) := by
    refine BitVec.eq_of_getLsbD_eq fun j hj => ?_
    rw [BitVec.getLsbD_ushiftRight, BitVec.getLsbD_twoPow, BitVec.getLsbD_twoPow]
    have hiff : n - 1 = k + j ↔ n - 1 - k = j := by omega
    rw [decide_eq_true (by omega : n - 1 < n), decide_eq_true (by omega : n - 1 - k < n),
      decide_eq_decide.2 hiff]
  have hor := h.orShift hone hbs (by rw [List.length_singleton]; omega)
  rwa [hshift] at hor

/-- The zeros behind belong to what is there as well. -/
theorem Packed.pad {x : BitVec n} {bs : List Bool} (h : Packed x bs) {k : Nat}
    (hk : bs.length + k ≤ n) : Packed x (bs ++ List.replicate k false) where
  fits := by
    rw [List.length_append, List.length_replicate]
    exact hk
  bits j hj := by
    rw [h.bits j hj]
    by_cases hfront : j < bs.length
    · rw [List.getD_append _ _ _ _ hfront]
    · rw [List.getD_append_right _ _ _ _ (Nat.le_of_not_lt hfront),
        List.getD_eq_default _ _ (Nat.le_of_not_lt hfront)]
      simp

/-! The bits of a vector put together of others. -/

theorem msbBits_append {m l : Nat} (x : BitVec m) (y : BitVec l) :
    msbBits (x ++ y) (m + l) = msbBits x m ++ msbBits y l := by
  refine List.ext_getElem (by simp) fun j hj hj' => ?_
  rw [msbBits_length] at hj
  rw [List.getElem_append]
  by_cases hjm : j < m
  · rw [dif_pos (by rw [msbBits_length]; exact hjm)]
    simp only [msbBits, List.getElem_map, List.getElem_range, BitVec.getLsbD_append]
    rw [if_neg (by omega)]
    congr 1
    omega
  · rw [dif_neg (by rw [msbBits_length]; exact hjm)]
    simp only [msbBits, List.getElem_map, List.getElem_range, BitVec.getLsbD_append,
      List.length_map, List.length_range]
    rw [if_pos (by omega)]
    congr 1
    omega

theorem msbBits_widen {w l m : Nat} (v : BitVec w) (hm : m ≤ l) :
    msbBits (v.setWidth l) m = msbBits v m := by
  refine List.map_congr_left fun k hk => ?_
  have hk' := List.mem_range.1 hk
  rw [BitVec.getLsbD_setWidth, decide_eq_true (by omega), Bool.true_and]

/-- The top `l` bits of a vector, moved down. -/
theorem topBits {w : Nat} (v : BitVec w) (hw : w ≤ n) {l : Nat} (hl : l ≤ w) :
    ((v.setWidth n) >>> (w - l)).toNat < 2 ^ l ∧
      msbBits ((v.setWidth n) >>> (w - l)) l = (msbBits v w).take l := by
  constructor
  · rw [BitVec.toNat_ushiftRight, BitVec.toNat_setWidth_of_le hw, Nat.shiftRight_eq_div_pow]
    refine Nat.div_lt_of_lt_mul ?_
    rw [← Nat.pow_add, Nat.sub_add_cancel hl]
    exact v.isLt
  · refine List.ext_getElem (by simp; omega) fun j hj hj' => ?_
    rw [msbBits_length] at hj
    simp only [msbBits, List.getElem_map, List.getElem_range, List.getElem_take,
      BitVec.getLsbD_ushiftRight, BitVec.getLsbD_setWidth]
    rw [decide_eq_true (by omega), Bool.true_and]
    congr 1
    omega

end TetraBs.Packing
