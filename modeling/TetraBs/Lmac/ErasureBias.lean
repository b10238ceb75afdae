import TetraBs.Lmac.DepunctureR23
import TetraBs.Lmac.UlViterbiR14
import TetraBs.Lmac.ViterbiDecoder

/-! Erasures in front of the two Viterbi decoders. Half of an even number of levels is not a level:
the erasure is one step nearer to a 1 than to a 0. -/
namespace TetraBs.Lmac
open TetraBs.Run TetraBs.Serial TetraBs.Viterbi SoftMetric

/-- A decision does not see the erased positions: it is least among the paths of the block when
they contribute nothing, and a 0 in an erased position costs what a 1 does. -/
def SoftMetric.Neutral {w : Nat} (erasure : BitVec w) (next : BitVec 4 → Bool → BitVec 4)
    (output : Nat → BitVec 4 → Bool → Bool) (ends : (Nat → Bool) → Prop) (n : Nat)
    (erased : Nat → Nat → Bool) (soft : Nat → Nat → BitVec w) (x : Nat → Bool) : Prop :=
  (∀ y, ends y → neutralMetric next output erased soft x n ≤
    neutralMetric next output erased soft y n) ∧
  ∀ t < n, ∀ g < 4, erased t g = true → softCost erasure false = softCost erasure true

namespace ErasureBias

/-- A decision that is least by its own metric does not see the erased positions exactly if there
are none, where an erasure tells 0 from 1. -/
theorem neutral_iff {w : Nat} {erasure : BitVec w}
    (hbias : softCost erasure false ≠ softCost erasure true)
    (next : BitVec 4 → Bool → BitVec 4) (output : Nat → BitVec 4 → Bool → Bool)
    {ends : (Nat → Bool) → Prop} {n : Nat} {erased : Nat → Nat → Bool}
    {soft : Nat → Nat → BitVec w} {x : Nat → Bool}
    (hleast : ∀ y, ends y → pathMetric next output (erase erasure erased soft) x n ≤
      pathMetric next output (erase erasure erased soft) y n) :
    Neutral erasure next output ends n erased soft x ↔ ∀ t < n, ∀ g < 4, erased t g = false := by
  constructor
  · intro h t ht g hg
    cases herased : erased t g with
    | false => rfl
    | true => exact absurd (h.2 t ht g hg herased) hbias
  · intro hnone
    refine ⟨fun y hy => ?_, fun t ht g hg herased => ?_⟩
    · rw [neutralMetric_none erasure next output soft hnone x (Nat.le_refl n),
        neutralMetric_none erasure next output soft hnone y (Nat.le_refl n)]
      exact hleast y hy
    · rw [hnone t ht g hg] at herased
      exact absurd herased Bool.false_ne_true

/-- The erasure of the depuncturer costs 4 as a 0 and 3 as a 1. -/
theorem depuncture_bias : softCost (DepunctureR23.ERASURE : BitVec 3) false = 4 ∧
    softCost (DepunctureR23.ERASURE : BitVec 3) true = 3 := by decide

/-- The erasure of the SCH/HU decoder costs 16 as a 0 and 15 as a 1. -/
theorem vitCenter_bias : softCost HuDecoder.VIT_CENTER false = 16 ∧
    softCost HuDecoder.VIT_CENTER true = 15 := by decide

/-- In every block of either decoder, whatever came before it, the decision does not see the
erasures if and only if no position is erased. -/
theorem erasures_neutral_iff {n : Nat} (h5 : 5 ≤ n) (hn : n ≤ 511) (erased : Nat → Nat → Bool)
    {v u : ViterbiState} (hv : ViterbiDecoder.code.Between v) (hu : (UlViterbiR14.code 5).Between u)
    {soft : Nat → Nat → BitVec 3} {cs rest : List (Option (Nat → BitVec 3))}
    (hcs : ViterbiCode.Feeds n (erase DepunctureR23.ERASURE erased soft) cs)
    (hrest : rest.length = 1 + n + (n - ViterbiCode.TAIL))
    {soft' : Nat → Nat → BitVec 5} {cs' rest' : List (Option (Nat → BitVec 5))}
    (hcs' : ViterbiCode.Feeds n (erase HuDecoder.VIT_CENTER erased soft') cs')
    (hrest' : rest'.length = 1 + n + (n - ViterbiCode.TAIL)) :
    ((ViterbiDecoder.code.reader n).outputs v (cs ++ rest) =
        (List.range (n - ViterbiCode.TAIL)).map
          (ViterbiDecoder.decodedBits n (erase DepunctureR23.ERASURE erased soft)) ∧
      (Neutral DepunctureR23.ERASURE ViterbiDecoder.next ViterbiDecoder.output (fun _ => True) n
          erased soft (ViterbiDecoder.decodedBits n (erase DepunctureR23.ERASURE erased soft)) ↔
        ∀ t < n, ∀ g < 4, erased t g = false)) ∧
    (((UlViterbiR14.code 5).reader n).outputs u (cs' ++ rest') =
        (List.range (n - ViterbiCode.TAIL)).map
          (UlViterbiR14.decodedBits n (erase HuDecoder.VIT_CENTER erased soft')) ∧
      (Neutral HuDecoder.VIT_CENTER UlViterbiR14.next UlViterbiR14.output
          (fun y => UlViterbiR14.stateAfter y n = 0) n erased soft'
          (UlViterbiR14.decodedBits n (erase HuDecoder.VIT_CENTER erased soft')) ↔
        ∀ t < n, ∀ g < 4, erased t g = false)) := by
  constructor
  · have hbias : softCost (DepunctureR23.ERASURE : BitVec 3) false ≠
        softCost (DepunctureR23.ERASURE : BitVec 3) true := by
      rw [depuncture_bias.1, depuncture_bias.2]
      decide
    obtain ⟨hout, -, -⟩ := hv.ready.block h5 hn hcs hrest
    refine ⟨?_, neutral_iff hbias _ _ fun y _ => ViterbiDecoder.decodedBits_le _ hn y⟩
    rw [hout]
    exact List.map_congr_left fun t _ => ViterbiDecoder.decoded_eq n _ t
  · have hbias : softCost HuDecoder.VIT_CENTER false ≠ softCost HuDecoder.VIT_CENTER true := by
      rw [vitCenter_bias.1, vitCenter_bias.2]
      decide
    have hmax : SOFT_MAX 5 = 31 := by decide
    have hfit : (n + 4) * (2 * SOFT_MAX 5) < UlViterbi.PM_MAX := by
      have hcap : UlViterbi.PM_MAX = 65535 := rfl
      rw [hmax, hcap]
      omega
    obtain ⟨hout, -, -⟩ := hu.ready.block h5 hn hcs' hrest'
    obtain ⟨-, hleast⟩ := UlViterbiR14.decodedBits_least
      (erase HuDecoder.VIT_CENTER erased soft') (by omega) hfit
    refine ⟨?_, neutral_iff hbias _ _ hleast⟩
    rw [hout]
    exact List.map_congr_left fun t _ => UlViterbiR14.decoded_eq n _ t

/-! A block in which the erasures change the decision. -/

/-- All positions but the first. -/
def allButFirst (t g : Nat) : Bool := t ≠ 0 || g ≠ 0

/-- The first position says 0, if weakly. -/
def weakZero (w : Nat) (t g : Nat) : BitVec w :=
  BitVec.ofNat w (if t = 0 ∧ g = 0 then 2 ^ (w - 1) - 1 else 0)

def five (a b c d e : Bool) (t : Nat) : Bool := [a, b, c, d, e].getD t false

theorem eq_five (x : Nat → Bool) {i : Nat} (hi : i < 5) :
    x i = five (x 0) (x 1) (x 2) (x 3) (x 4) i := by
  match i, hi with
  | 0, _ => rfl
  | 1, _ => rfl
  | 2, _ => rfl
  | 3, _ => rfl
  | 4, _ => rfl

/-- The block for `tetra_viterbi_decoder`, and the one for `tetra_ul_viterbi_r14`. -/
def dlSoft : Nat → Nat → BitVec 3 := erase DepunctureR23.ERASURE allButFirst (weakZero 3)
def ulSoft : Nat → Nat → BitVec 5 := erase HuDecoder.VIT_CENTER allButFirst (weakZero 5)

theorem dl_changed : ∀ a b c d e : Bool,
    pathMetric ViterbiDecoder.next ViterbiDecoder.output
        dlSoft (five a b c d e) 5 ≤
      pathMetric ViterbiDecoder.next ViterbiDecoder.output
        dlSoft (five true false false false false) 5 →
    neutralMetric ViterbiDecoder.next ViterbiDecoder.output allButFirst (weakZero 3)
        (five false false false false false) 5 <
      neutralMetric ViterbiDecoder.next ViterbiDecoder.output allButFirst (weakZero 3)
        (five a b c d e) 5 := by
  decide +kernel

theorem ul_changed : ∀ a b c d e : Bool,
    UlViterbiR14.stateAfter (five a b c d e) 5 = 0 →
    pathMetric UlViterbiR14.next UlViterbiR14.output
        ulSoft (five a b c d e) 5 ≤
      pathMetric UlViterbiR14.next UlViterbiR14.output
        ulSoft (five true false false false false) 5 →
    neutralMetric UlViterbiR14.next UlViterbiR14.output allButFirst (weakZero 5)
        (five false false false false false) 5 <
      neutralMetric UlViterbiR14.next UlViterbiR14.output allButFirst (weakZero 5)
        (five a b c d e) 5 := by
  decide +kernel

theorem erasures_neutral_iff_five :
    ((ViterbiDecoder.code.reader 5).outputs UlViterbi.reset
          (UlViterbiR14.backToBack 5 dlSoft ++ List.replicate 7 none) =
        (List.range (5 - ViterbiCode.TAIL)).map (ViterbiDecoder.decodedBits 5 dlSoft) ∧
      (Neutral DepunctureR23.ERASURE ViterbiDecoder.next ViterbiDecoder.output (fun _ => True) 5
          allButFirst (weakZero 3) (ViterbiDecoder.decodedBits 5 dlSoft) ↔
        ∀ t < 5, ∀ g < 4, allButFirst t g = false)) ∧
    (((UlViterbiR14.code 5).reader 5).outputs UlViterbi.reset
          (UlViterbiR14.backToBack 5 ulSoft ++ List.replicate 7 none) =
        (List.range (5 - ViterbiCode.TAIL)).map (UlViterbiR14.decodedBits 5 ulSoft) ∧
      (Neutral HuDecoder.VIT_CENTER UlViterbiR14.next UlViterbiR14.output
          (fun y => UlViterbiR14.stateAfter y 5 = 0) 5 allButFirst (weakZero 5)
          (UlViterbiR14.decodedBits 5 ulSoft) ↔
        ∀ t < 5, ∀ g < 4, allButFirst t g = false)) :=
  erasures_neutral_iff (by decide) (by decide) allButFirst .reset .reset
    (UlViterbiR14.feeds_backToBack (by decide) _) rfl
    (UlViterbiR14.feeds_backToBack (by decide) _) rfl

/-- Both decoders take the weak 0 for a 1: the ones that the other path has in erased positions
are cheaper than its zeros. -/
theorem erasures_change_decision :
    neutralMetric ViterbiDecoder.next ViterbiDecoder.output allButFirst (weakZero 3)
        (five false false false false false) 5 <
      neutralMetric ViterbiDecoder.next ViterbiDecoder.output allButFirst (weakZero 3)
        (ViterbiDecoder.decodedBits 5 dlSoft) 5 ∧
    UlViterbiR14.stateAfter (five false false false false false) 5 = 0 ∧
    neutralMetric UlViterbiR14.next UlViterbiR14.output allButFirst (weakZero 5)
        (five false false false false false) 5 <
      neutralMetric UlViterbiR14.next UlViterbiR14.output allButFirst (weakZero 5)
        (UlViterbiR14.decodedBits 5 ulSoft) 5 := by
  have hfit : (5 + 4) * (2 * SOFT_MAX 5) < UlViterbi.PM_MAX := by decide
  have hdl := ViterbiDecoder.decodedBits_le dlSoft (n := 5) (by decide)
    (five true false false false false)
  obtain ⟨hend, hleast⟩ := UlViterbiR14.decodedBits_least ulSoft (by decide) hfit
  have hul := hleast (five true false false false false) (by decide)
  have hsame : ∀ x : Nat → Bool, ∀ i < 5, x i = five (x 0) (x 1) (x 2) (x 3) (x 4) i :=
    fun x i hi => eq_five x hi
  refine ⟨?_, by decide, ?_⟩
  · generalize ViterbiDecoder.decodedBits 5 dlSoft = x at hdl ⊢
    rw [pathMetric, bitsCost_congr _ _ 0 (hsame x)] at hdl
    rw [neutralMetric, neutralMetric, bitsCost_congr _ _ 0 (hsame x)]
    exact dl_changed _ _ _ _ _ hdl
  · generalize UlViterbiR14.decodedBits 5 ulSoft = x at hend hul ⊢
    rw [UlViterbiR14.stateAfter, states_congr _ 0 (hsame x)] at hend
    rw [pathMetric, bitsCost_congr _ _ 0 (hsame x)] at hul
    rw [neutralMetric, neutralMetric, bitsCost_congr _ _ 0 (hsame x)]
    exact ul_changed _ _ _ _ _ hend hul

end ErasureBias
end TetraBs.Lmac
