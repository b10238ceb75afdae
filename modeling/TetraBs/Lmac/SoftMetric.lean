import Mathlib.Algebra.Group.Nat.Defs
import TetraBs.Lib.ViterbiOptimal

/-! Soft values against coded bits: what a stage of four values costs, and the branch metrics that
the Viterbi decoders compute from it. -/
namespace TetraBs.Lmac.SoftMetric
open TetraBs.Viterbi
variable {w : Nat}

def SOFT_MAX (w : Nat) : Nat := 2 ^ w - 1
def BM_MAX (w : Nat) : Nat := 4 * SOFT_MAX w

def softCost (soft : BitVec w) (g : Bool) : Nat :=
  if g then SOFT_MAX w - soft.toNat else soft.toNat

/-- How far the soft values of a stage are from four coded bits. -/
def stageCost (soft : Nat → BitVec w) (coded : Nat → Bool) : Nat :=
  softCost (soft 0) (coded 0) + softCost (soft 1) (coded 1) + softCost (soft 2) (coded 2) +
    softCost (soft 3) (coded 3)

/-- `bm0_w` and `bm1_w`, by the bit shifted out: it is in all four coded bits. -/
def butterfly (soft : Nat → BitVec w) (p0 : Nat → Bool) (b : Bool) : Nat :=
  if b then BM_MAX w - stageCost soft p0 else stageCost soft p0

/-- The metric that the first `t` bits accumulate, from state 0 on. -/
def pathMetric (next : BitVec 4 → Bool → BitVec 4) (output : Nat → BitVec 4 → Bool → Bool)
    (soft : Nat → Nat → BitVec w) (x : Nat → Bool) (t : Nat) : Nat :=
  bitsCost next (fun t s b => stageCost (soft t) fun g => output g s b) 0 x t

theorem toNat_le (soft : BitVec w) : soft.toNat ≤ SOFT_MAX w := Nat.le_sub_one_of_lt soft.isLt

theorem softCost_le (soft : BitVec w) (g : Bool) : softCost soft g ≤ SOFT_MAX w := by
  rw [softCost]
  split
  · exact Nat.sub_le _ _
  · exact toNat_le soft

theorem softCost_not (soft : BitVec w) (g : Bool) :
    softCost soft (g ^^ true) = SOFT_MAX w - softCost soft g := by
  have hle := toNat_le soft
  cases g with
  | false => rfl
  | true => exact (Nat.sub_sub_self hle).symm

theorem stageCost_le (soft : Nat → BitVec w) (coded : Nat → Bool) :
    stageCost soft coded ≤ BM_MAX w := by
  have h0 := softCost_le (soft 0) (coded 0)
  have h1 := softCost_le (soft 1) (coded 1)
  have h2 := softCost_le (soft 2) (coded 2)
  have h3 := softCost_le (soft 3) (coded 3)
  rw [stageCost, BM_MAX]
  omega

theorem stageCost_not (soft : Nat → BitVec w) (coded : Nat → Bool) :
    stageCost soft (fun g => coded g ^^ true) = BM_MAX w - stageCost soft coded := by
  have h0 := softCost_le (soft 0) (coded 0)
  have h1 := softCost_le (soft 1) (coded 1)
  have h2 := softCost_le (soft 2) (coded 2)
  have h3 := softCost_le (soft 3) (coded 3)
  rw [stageCost, softCost_not, softCost_not, softCost_not, softCost_not, stageCost, BM_MAX]
  omega

/-- Both predecessors of a state together cost the same at every stage. -/
theorem butterfly_pair (soft : Nat → BitVec w) (p0 : Nat → Bool) :
    butterfly soft p0 false + butterfly soft p0 true = BM_MAX w :=
  Nat.add_sub_cancel' (stageCost_le soft p0)

/-- With the bit shifted out in all four coded bits, the branch metric is the cost of the edge. -/
theorem butterfly_eq (soft : Nat → BitVec w) (coded : Nat → Bool) (b : Bool) :
    butterfly soft (fun g => coded g ^^ b) b = stageCost soft coded := by
  have hle := stageCost_le soft coded
  cases b with
  | false =>
    simp only [Bool.xor_false]
    rfl
  | true =>
    rw [butterfly, if_pos rfl, stageCost_not]
    exact Nat.sub_sub_self hle

/-! Erased positions. -/

/-- The values with some of them replaced by an erasure. -/
def erase (erasure : BitVec w) (erased : Nat → Nat → Bool) (soft : Nat → Nat → BitVec w)
    (t g : Nat) : BitVec w :=
  if erased t g then erasure else soft t g

/-- A position that contributes nothing if it is erased. -/
def neutralCost (erased : Bool) (soft : BitVec w) (g : Bool) : Nat :=
  if erased then 0 else softCost soft g

def neutralStage (erased : Nat → Bool) (soft : Nat → BitVec w) (coded : Nat → Bool) : Nat :=
  neutralCost (erased 0) (soft 0) (coded 0) + neutralCost (erased 1) (soft 1) (coded 1) +
    neutralCost (erased 2) (soft 2) (coded 2) + neutralCost (erased 3) (soft 3) (coded 3)

/-- The metric of a path when the erased positions contribute nothing. -/
def neutralMetric (next : BitVec 4 → Bool → BitVec 4) (output : Nat → BitVec 4 → Bool → Bool)
    (erased : Nat → Nat → Bool) (soft : Nat → Nat → BitVec w) (x : Nat → Bool) (t : Nat) : Nat :=
  bitsCost next (fun t s b => neutralStage (erased t) (soft t) fun g => output g s b) 0 x t

theorem neutralStage_none {erased : Nat → Nat → Bool} (erasure : BitVec w)
    (soft : Nat → Nat → BitVec w) {t : Nat} (h : ∀ g < 4, erased t g = false)
    (coded : Nat → Bool) :
    neutralStage (erased t) (soft t) coded = stageCost (erase erasure erased soft t) coded := by
  have hcost : ∀ g < 4, neutralCost (erased t g) (soft t g) (coded g) =
      softCost (erase erasure erased soft t g) (coded g) := by
    intro g hg
    have herase : erase erasure erased soft t g = soft t g := by
      rw [erase, h g hg, if_neg Bool.false_ne_true]
    rw [neutralCost, h g hg, herase, if_neg Bool.false_ne_true]
  rw [neutralStage, stageCost, hcost 0 (by omega), hcost 1 (by omega), hcost 2 (by omega),
    hcost 3 (by omega)]

/-- Without erasures both metrics are the same. -/
theorem neutralMetric_none {erased : Nat → Nat → Bool} (erasure : BitVec w)
    (next : BitVec 4 → Bool → BitVec 4) (output : Nat → BitVec 4 → Bool → Bool)
    (soft : Nat → Nat → BitVec w) {n : Nat} (h : ∀ t < n, ∀ g < 4, erased t g = false)
    (x : Nat → Bool) {t : Nat} (ht : t ≤ n) :
    neutralMetric next output erased soft x t =
      pathMetric next output (erase erasure erased soft) x t := by
  induction t with
  | zero => rfl
  | succ t ih =>
    rw [neutralMetric, pathMetric, bitsCost, bitsCost]
    have hbefore := ih (by omega)
    rw [neutralMetric, pathMetric] at hbefore
    rw [hbefore, neutralStage_none erasure soft (h t ht)]

end TetraBs.Lmac.SoftMetric
