import TetraBs.Lmac.SoftMetric
import TetraBs.Lmac.ViterbiMachine

/-! `tetra_viterbi_decoder`: the newest bit stands at the high end of the state, the metrics are
kept relative to the least one, and the trace back starts from the best state. -/
namespace TetraBs.Lmac
open TetraBs.Run TetraBs.Serial TetraBs.Viterbi SoftMetric

namespace ViterbiDecoder

/-- The generators in the bits of the new state, when the bit shifted out was 0. -/
def gP0 (g : Nat) (s : BitVec 4) : Bool :=
  match g with
  | 0 => s.getLsbD 3 ^^ s.getLsbD 0
  | 1 => s.getLsbD 3 ^^ s.getLsbD 2 ^^ s.getLsbD 1
  | 2 => s.getLsbD 3 ^^ s.getLsbD 1 ^^ s.getLsbD 0
  | _ => s.getLsbD 3 ^^ s.getLsbD 2 ^^ s.getLsbD 0

/-- `bm0_w` and `bm1_w`, by the bit shifted out. -/
def bm (soft : Nat → BitVec 3) (s : BitVec 4) (b : Bool) : Nat :=
  butterfly soft (fun g => gP0 g s) b

/-- `{tb_state[2:0], surv}`. -/
def prevState (s : BitVec 4) (b : Bool) : BitVec 4 := s.extractLsb' 0 3 ++ BitVec.ofBool b

/-- The left one of equals. -/
def better (m : BitVec 4 → Nat) (a b : BitVec 4) : BitVec 4 := if m a ≤ m b then a else b

/-- The comparator tree over the `2 ^ d` states from `base` on. -/
def tree (m : BitVec 4 → Nat) : Nat → Nat → BitVec 4
  | 0, base => BitVec.ofNat 4 base
  | d + 1, base => better m (tree m d base) (tree m d (base + 2 ^ d))

/-- `best_state_w`. -/
def bestState (m : BitVec 4 → Nat) : BitVec 4 := tree m 4 0

/-- `raw_w`. -/
def rawOf (pm : BitVec 4 → Nat) (soft : Nat → BitVec 3) (s : BitVec 4) : Nat :=
  raw prevState pm (bm soft) s

/-- `pm_raw_min_w`. -/
def rawMin (pm : BitVec 4 → Nat) (soft : Nat → BitVec 3) : Nat :=
  rawOf pm soft (bestState (rawOf pm soft))

/-- `nm_w`. -/
def normalised (pm : BitVec 4 → Nat) (soft : Nat → BitVec 3) (s : BitVec 4) : Nat :=
  min UlViterbi.PM_MAX (rawOf pm soft s - rawMin pm soft)

def code : ViterbiCode 3 where
  prevState := prevState
  bm := bm
  newPm := normalised
  tbStart := bestState
  inputBit s := s.getLsbD 3

/-! The code as the header of the encoder gives it: a bit comes in at the high end of the state. -/

/-- `{data_in, sr[3:1]}`. -/
def next (s : BitVec 4) (b : Bool) : BitVec 4 := BitVec.ofBool b ++ s.extractLsb' 1 3

/-- The four generators over the shift register and the bit that comes in. -/
def output (g : Nat) (sr : BitVec 4) (b : Bool) : Bool :=
  match g with
  | 0 => b ^^ sr.getLsbD 1 ^^ sr.getLsbD 0
  | 1 => b ^^ sr.getLsbD 3 ^^ sr.getLsbD 2 ^^ sr.getLsbD 0
  | 2 => b ^^ sr.getLsbD 2 ^^ sr.getLsbD 1 ^^ sr.getLsbD 0
  | _ => b ^^ sr.getLsbD 3 ^^ sr.getLsbD 1 ^^ sr.getLsbD 0

def branch (soft : Nat → BitVec 3) (s : BitVec 4) (b : Bool) : Nat :=
  stageCost soft fun g => output g s b

/-- The state after the first `t` bits. -/
def stateAfter (x : Nat → Bool) (t : Nat) : BitVec 4 := states next 0 x t

theorem shifts : Shifts prevState next (fun s => s.getLsbD 3) (fun s => s.getLsbD 0) where
  next_prev := by decide
  prev_next := by decide
  input_next := by decide
  lost_prev := by decide

theorem gP0_next (g : Nat) (s : BitVec 4) (b : Bool) :
    gP0 g (next s b) = (output g s b ^^ s.getLsbD 0) := by
  match g with
  | 0 =>
    have h : ∀ s b, gP0 0 (next s b) = (output 0 s b ^^ s.getLsbD 0) := by decide
    exact h s b
  | 1 =>
    have h : ∀ s b, gP0 1 (next s b) = (output 1 s b ^^ s.getLsbD 0) := by decide
    exact h s b
  | 2 =>
    have h : ∀ s b, gP0 2 (next s b) = (output 2 s b ^^ s.getLsbD 0) := by decide
    exact h s b
  | g + 3 =>
    have h : ∀ s b, gP0 3 (next s b) = (output 3 s b ^^ s.getLsbD 0) := by decide
    exact h s b

/-- The branch metrics are those of the code. -/
theorem bm_next (soft : Nat → BitVec 3) (s : BitVec 4) (b : Bool) :
    bm soft (next s b) (s.getLsbD 0) = branch soft s b := by
  have hp0 : (fun g => gP0 g (next s b)) = fun g => output g s b ^^ s.getLsbD 0 :=
    funext fun g => gP0_next g s b
  rw [bm, hp0, butterfly_eq]
  rfl

/-! The comparators. -/

theorem better_le_left (m : BitVec 4 → Nat) (a b : BitVec 4) : m (better m a b) ≤ m a := by
  rw [better]
  split
  · exact Nat.le_refl _
  · rename_i h
    exact Nat.le_of_not_le h

theorem better_le_right (m : BitVec 4 → Nat) (a b : BitVec 4) : m (better m a b) ≤ m b := by
  rw [better]
  split
  · rename_i h
    exact h
  · exact Nat.le_refl _

theorem tree_le (m : BitVec 4 → Nat) (d base : Nat) {i : Nat} (hi : i < 2 ^ d) :
    m (tree m d base) ≤ m (BitVec.ofNat 4 (base + i)) := by
  induction d generalizing base i with
  | zero =>
    have hzero : i = 0 := by
      rw [Nat.pow_zero] at hi
      omega
    rw [hzero]
    exact Nat.le_refl _
  | succ d ih =>
    rw [tree]
    by_cases hlow : i < 2 ^ d
    · exact (better_le_left m _ _).trans (ih base hlow)
    · have hpow : 2 ^ (d + 1) = 2 ^ d + 2 ^ d := by rw [Nat.pow_succ, Nat.mul_two]
      have hhigh := ih (base + 2 ^ d) (i := i - 2 ^ d) (by omega)
      have hsum : base + 2 ^ d + (i - 2 ^ d) = base + i := by omega
      rw [hsum] at hhigh
      exact (better_le_right m _ _).trans hhigh

/-- No state is better than the one that the tree finds. -/
theorem bestState_le (m : BitVec 4 → Nat) (s : BitVec 4) : m (bestState m) ≤ m s := by
  have h := tree_le m 4 0 s.isLt
  rwa [Nat.zero_add, BitVec.ofNat_toNat, BitVec.setWidth_eq] at h

/-! The decoded path. -/

theorem pmInit_startsAt : StartsAt 0 UlViterbi.PM_MAX UlViterbi.pmInit :=
  ⟨rfl, fun _ hs => if_neg hs⟩

theorem keeps (soft : Nat → Nat → BitVec 3) (n : Nat) :
    Keeps prevState UlViterbi.PM_MAX (code.pmOf soft) (fun t => bm (soft t))
      (fun t => rawMin (code.pmOf soft t) (soft t)) n where
  le t _ s := bestState_le (rawOf (code.pmOf soft t) (soft t)) s
  step _ _ _ := rfl

/-- The bits of the path traced back from the best state. -/
def decodedBits (n : Nat) (soft : Nat → Nat → BitVec 3) : Nat → Bool :=
  (traced prevState (code.survOf soft) n (bestState (code.pmOf soft n))).bits
    fun s => s.getLsbD 3

theorem decoded_eq (n : Nat) (soft : Nat → Nat → BitVec 3) (t : Nat) :
    code.decoded n soft t = decodedBits n soft t := by
  have hstage : n - (t + 1) = n - 1 - t := by omega
  have hbits : decodedBits n soft t = (trace prevState (code.survOf soft) n
      (bestState (code.pmOf soft n)) (n - (t + 1))).getLsbD 3 := rfl
  rw [hbits, hstage]
  rfl

/-- No path of the block costs as much as a register can hold. -/
theorem pathMetric_lt (soft : Nat → Nat → BitVec 3) (x : Nat → Bool) {n : Nat} (hn : n ≤ 511) :
    pathMetric next output soft x n < UlViterbi.PM_MAX := by
  have hle : pathMetric next output soft x n ≤ n * BM_MAX 3 :=
    bitsCost_le (fun t s b => stageCost_le (soft t) fun g => output g s b) x n
  have hmax : BM_MAX 3 = 28 := by decide
  have hcap : UlViterbi.PM_MAX = 65535 := rfl
  rw [hmax] at hle
  omega

/-- The decoded path has the least metric of all paths from state 0, wherever they end. -/
theorem decodedBits_le (soft : Nat → Nat → BitVec 3) {n : Nat} (hn : n ≤ 511) (y : Nat → Bool) :
    pathMetric next output soft (decodedBits n soft) n ≤ pathMetric next output soft y n := by
  obtain ⟨-, hleast⟩ := shifts.traced_bits (fun t s b => bm_next (soft t) s b) (keeps soft n)
    pmInit_startsAt y (pathMetric_lt soft y hn) (bestState_le (code.pmOf soft n) _)
  exact hleast y (bestState_le (code.pmOf soft n) _)

end ViterbiDecoder
end TetraBs.Lmac
