import TetraBs.Lmac.SoftMetric
import TetraBs.Lmac.ViterbiMachine

/-! `tetra_ul_viterbi_r14` for any soft width, and that it decodes to a path of least metric. -/
namespace TetraBs.Lmac
open TetraBs.Run TetraBs.Serial TetraBs.Viterbi SoftMetric

namespace UlViterbiR14
variable {w : Nat}

/-- `bm0_w` and `bm1_w`, by the bit shifted out. -/
def bm (soft : Nat → BitVec w) (s : BitVec 4) (b : Bool) : Nat :=
  butterfly soft (fun g => UlViterbi.gP0 g s) b

/-- The metrics saturate, and the trace back starts from the state that the tail leads to. -/
def code (w : Nat) : ViterbiCode w where
  prevState := UlViterbi.prevState
  bm := bm
  newPm pm soft := select UlViterbi.prevState UlViterbi.PM_MAX pm (bm soft)
  tbStart _ := 0
  inputBit s := s.getLsbD 0

/-- The instance of the SCH/HU decoder. -/
theorem step_eq (v : UlViterbi) (soft : Nat → BitVec 5) (valid : Bool) :
    v.step soft valid = (code 5).step UlViterbi.NUM_STAGES v soft valid := rfl

/-! The code as its header gives it: a bit comes in at the low end of the state. -/

/-- `((old_state << 1) | input) & 0xF`. -/
def next (s : BitVec 4) (b : Bool) : BitVec 4 := s.extractLsb' 0 3 ++ BitVec.ofBool b

/-- The four generators over the state and the input bit. -/
def output (g : Nat) (old : BitVec 4) (b : Bool) : Bool :=
  match g with
  | 0 => b ^^ old.getLsbD 0 ^^ old.getLsbD 3
  | 1 => b ^^ old.getLsbD 1 ^^ old.getLsbD 2 ^^ old.getLsbD 3
  | 2 => b ^^ old.getLsbD 0 ^^ old.getLsbD 1 ^^ old.getLsbD 3
  | _ => b ^^ old.getLsbD 0 ^^ old.getLsbD 2 ^^ old.getLsbD 3

def branch (soft : Nat → BitVec w) (s : BitVec 4) (b : Bool) : Nat :=
  stageCost soft fun g => output g s b

/-- The state after the first `t` bits. -/
def stateAfter (x : Nat → Bool) (t : Nat) : BitVec 4 := states next 0 x t

theorem shifts : Shifts UlViterbi.prevState next (fun s => s.getLsbD 0) (fun s => s.getLsbD 3) where
  next_prev := by decide
  prev_next := by decide
  input_next := by decide
  lost_prev := by decide

theorem gP0_next (g : Nat) (s : BitVec 4) (b : Bool) :
    UlViterbi.gP0 g (next s b) = (output g s b ^^ s.getLsbD 3) := by
  match g with
  | 0 =>
    have h : ∀ s b, UlViterbi.gP0 0 (next s b) = (output 0 s b ^^ s.getLsbD 3) := by decide
    exact h s b
  | 1 =>
    have h : ∀ s b, UlViterbi.gP0 1 (next s b) = (output 1 s b ^^ s.getLsbD 3) := by decide
    exact h s b
  | 2 =>
    have h : ∀ s b, UlViterbi.gP0 2 (next s b) = (output 2 s b ^^ s.getLsbD 3) := by decide
    exact h s b
  | g + 3 =>
    have h : ∀ s b, UlViterbi.gP0 3 (next s b) = (output 3 s b ^^ s.getLsbD 3) := by decide
    exact h s b

/-- The branch metrics are those of the code. -/
theorem bm_next (soft : Nat → BitVec w) (s : BitVec 4) (b : Bool) :
    bm soft (next s b) (s.getLsbD 3) = branch soft s b := by
  have hp0 : (fun g => UlViterbi.gP0 g (next s b)) = fun g => output g s b ^^ s.getLsbD 3 :=
    funext fun g => gP0_next g s b
  rw [bm, hp0, butterfly_eq]
  rfl

/-- Four bits lead to any state. -/
theorem four_bits : ∀ s : BitVec 4, stateAfter (fun i => s.getLsbD (3 - i)) 4 = s := by
  decide

theorem pmInit_startsAt : StartsAt 0 UlViterbi.PM_MAX UlViterbi.pmInit :=
  ⟨rfl, fun _ hs => if_neg hs⟩

theorem stateAfter_zeros (t : Nat) : stateAfter (fun _ => false) t = 0 := by
  induction t with
  | zero => rfl
  | succ t ih =>
    have hstep : next 0 false = 0 := by decide
    have hunfold : stateAfter (fun _ => false) (t + 1) =
        next (stateAfter (fun _ => false) t) false := rfl
    rw [hunfold, ih, hstep]

/-- Before the metrics can grow out of their registers, every state that is reached at all is
reached by a path below the largest metric. -/
theorem exists_cheap (soft : Nat → Nat → BitVec w) {n : Nat}
    (hfit : (n + 4) * (2 * SOFT_MAX w) < UlViterbi.PM_MAX) {t : Nat} (ht : t ≤ n) (h4 : 4 ≤ n)
    (x : Nat → Bool) :
    ∃ y, stateAfter y t = stateAfter x t ∧ pathMetric next output soft y t < UlViterbi.PM_MAX := by
  have hbound : ∀ y t, pathMetric next output soft y t ≤ t * BM_MAX w := fun y t =>
    bitsCost_le (fun t s b => stageCost_le (soft t) fun g => output g s b) y t
  have hgrow : (n + 4) * (2 * SOFT_MAX w) = 4 * BM_MAX w + (n - 4) * (2 * SOFT_MAX w) := by
    have hsplit : n + 4 = 8 + (n - 4) := by omega
    rw [hsplit, Nat.add_mul, BM_MAX]
    omega
  by_cases hfew : t ≤ 4
  · refine ⟨x, rfl, ?_⟩
    have hle := hbound x t
    have hmono := Nat.mul_le_mul_right (BM_MAX w) hfew
    omega
  · have hpair : ∀ t s, bm (soft t) s false + bm (soft t) s true ≤ 2 * (2 * SOFT_MAX w) := by
      intro t s
      rw [bm, bm, butterfly_pair, BM_MAX]
      omega
    have hall : ∀ s, ∃ y, states next 0 y 4 = s ∧
        pathMetric next output soft y 4 ≤ 4 * BM_MAX w :=
      fun s => ⟨_, four_bits s, hbound _ 4⟩
    obtain ⟨y, hy, hle⟩ := shifts.cheap_bits (fun t s b => bm_next (soft t) s b) hpair hall (t - 4)
      (stateAfter x t)
    have hback : 4 + (t - 4) = t := by omega
    rw [hback] at hy hle
    have hmono := Nat.mul_le_mul_right (2 * SOFT_MAX w) (Nat.sub_le_sub_right ht 4)
    exact ⟨y, hy, lt_of_le_of_lt hle (by omega)⟩

theorem pmOf_eq (soft : Nat → Nat → BitVec w) (t : Nat) :
    (code w).pmOf soft t =
      metrics UlViterbi.prevState UlViterbi.PM_MAX UlViterbi.pmInit (fun t => bm (soft t)) t := by
  induction t with
  | zero => rfl
  | succ t ih =>
    rw [ViterbiCode.pmOf, ih]
    rfl

theorem keeps (soft : Nat → Nat → BitVec w) (n : Nat) :
    Keeps UlViterbi.prevState UlViterbi.PM_MAX ((code w).pmOf soft) (fun t => bm (soft t))
      (fun _ => 0) n := by
  have hpm : (code w).pmOf soft =
      metrics UlViterbi.prevState UlViterbi.PM_MAX UlViterbi.pmInit (fun t => bm (soft t)) :=
    funext (pmOf_eq soft)
  rw [hpm]
  exact keeps_metrics _ _ n

theorem total_zero (t : Nat) : total (fun _ => 0) t = 0 := by
  induction t with
  | zero => rfl
  | succ t ih => exact ih

/-- The bits of the path traced back. -/
def decodedBits (n : Nat) (soft : Nat → Nat → BitVec w) : Nat → Bool :=
  (traced UlViterbi.prevState ((code w).survOf soft) n 0).bits fun s => s.getLsbD 0

theorem decoded_eq (n : Nat) (soft : Nat → Nat → BitVec w) (t : Nat) :
    (code w).decoded n soft t = decodedBits n soft t := by
  have hstage : n - (t + 1) = n - 1 - t := by omega
  have hbits : decodedBits n soft t =
      (trace UlViterbi.prevState ((code w).survOf soft) n 0 (n - (t + 1))).getLsbD 0 := rfl
  rw [hbits, hstage]
  rfl

/-- What the metric registers hold after `k` stages: for every state that can be reached, the
least metric of all paths to it, below the largest value of a register. -/
def Exact (soft : Nat → Nat → BitVec w) (k : Nat) (pm : BitVec 4 → Nat) : Prop :=
  ∀ x, pm (stateAfter x k) < UlViterbi.PM_MAX ∧
    (∃ y, stateAfter y k = stateAfter x k ∧ pathMetric next output soft y k = pm (stateAfter x k)) ∧
    ∀ y, stateAfter y k = stateAfter x k → pm (stateAfter x k) ≤ pathMetric next output soft y k

theorem exact_pmOf (soft : Nat → Nat → BitVec w) {n : Nat}
    (hfit : (n + 4) * (2 * SOFT_MAX w) < UlViterbi.PM_MAX) {k : Nat} (hk : k ≤ n) (h4 : 4 ≤ n) :
    Exact soft k ((code w).pmOf soft k) := by
  intro x
  obtain ⟨y, hy, hcheap⟩ := exists_cheap soft hfit hk h4 x
  obtain ⟨⟨z, hz, hmetric⟩, hleast⟩ := shifts.metric_spec (fun t s b => bm_next (soft t) s b)
    (keeps soft k) pmInit_startsAt y hcheap
  rw [total_zero, Nat.add_zero] at hmetric
  simp only [total_zero, Nat.add_zero] at hleast
  have hsame : states next 0 y k = stateAfter x k := hy
  rw [hsame] at hz hmetric hleast
  exact ⟨lt_of_le_of_lt (hleast y hy) hcheap, ⟨z, hz, hmetric⟩, hleast⟩

/-- The decoded path ends in state 0 and has the least metric of all that do. -/
theorem decodedBits_least (soft : Nat → Nat → BitVec w) {n : Nat} (h4 : 4 ≤ n)
    (hfit : (n + 4) * (2 * SOFT_MAX w) < UlViterbi.PM_MAX) :
    stateAfter (decodedBits n soft) n = 0 ∧
      ∀ y, stateAfter y n = 0 →
        pathMetric next output soft (decodedBits n soft) n ≤ pathMetric next output soft y n := by
  obtain ⟨x, hx, hcheap⟩ := exists_cheap soft hfit (Nat.le_refl n) h4 fun _ => false
  rw [stateAfter_zeros] at hx
  have hend : states next 0 x n = 0 := hx
  obtain ⟨hends, hleast⟩ := shifts.traced_bits (s := 0) (fun t s b => bm_next (soft t) s b)
    (keeps soft n) pmInit_startsAt x hcheap (by rw [hend])
  refine ⟨hends, fun y hy => ?_⟩
  have hlast : states next 0 y n = 0 := hy
  exact hleast y (by rw [hlast])

/-- In any block, whatever came before it and however its stages are spaced, the bits that come out
are those of a path of least metric from state 0 to state 0, and no metric leaves its register,
as long as the soft values are not too wide for the length of the block. -/
theorem decodes_least {n : Nat} (h5 : 5 ≤ n) (hn : n ≤ 511)
    (hfit : (n + 4) * (2 * SOFT_MAX w) < UlViterbi.PM_MAX) {v : ViterbiState}
    (hv : (code w).Between v) {soft : Nat → Nat → BitVec w}
    {cs rest : List (Option (Nat → BitVec w))} (hcs : ViterbiCode.Feeds n soft cs)
    (hrest : rest.length = 1 + n + (n - ViterbiCode.TAIL)) :
    ∃ x : Nat → Bool,
      ((code w).reader n).outputs v (cs ++ rest) = (List.range (n - ViterbiCode.TAIL)).map x ∧
      stateAfter x n = 0 ∧
      (∀ y, stateAfter y n = 0 → pathMetric next output soft x n ≤ pathMetric next output soft y n) ∧
      (∀ xs, xs <+: cs →
        Exact soft (xs.filterMap id).length (((code w).reader n).after v xs).pm) ∧
      (code w).Between (((code w).reader n).after v (cs ++ rest)) := by
  obtain ⟨hout, -, -⟩ := hv.ready.block h5 hn hcs hrest
  obtain ⟨hends, hleast⟩ := decodedBits_least soft (by omega) hfit
  refine ⟨decodedBits n soft, ?_, hends, hleast, ?_, .block v n soft cs rest hv h5 hn hcs hrest⟩
  · rw [hout]
    exact List.map_congr_left fun t _ => decoded_eq n soft t
  · intro xs hxs
    obtain ⟨hle, hpm⟩ := hv.ready.pm_of_prefix (c := code w) (by omega) hn hcs hxs
    rw [hpm]
    exact exact_pmOf soft hfit hle (by omega)

/-- Stages one a cycle. -/
def backToBack (n : Nat) (soft : Nat → Nat → BitVec w) : List (Option (Nat → BitVec w)) :=
  (List.range n).map fun t => some (soft t)

theorem feeds_backToBack {n : Nat} (hn : 0 < n) (soft : Nat → Nat → BitVec w) :
    ViterbiCode.Feeds n soft (backToBack n soft) := by
  obtain ⟨m, rfl⟩ : ∃ m, n = m + 1 := ⟨n - 1, by omega⟩
  refine ⟨(List.range m).map fun t => some (soft t), ?_, ?_⟩
  · rw [backToBack, List.range_succ, List.map_append]
    rfl
  · rw [List.filterMap_map]
    exact congrFun List.filterMap_eq_map _

/-- One information bit in three-bit soft values. -/
theorem decodes_least_short :
    ∃ x : Nat → Bool,
      ((code 3).reader 5).outputs UlViterbi.reset
          (backToBack 5 (fun t _ => BitVec.ofNat 3 t) ++ List.replicate 7 none) =
        (List.range (5 - ViterbiCode.TAIL)).map x ∧
      stateAfter x 5 = 0 ∧
      (∀ y, stateAfter y 5 = 0 → pathMetric next output (fun t _ => BitVec.ofNat 3 t) x 5 ≤
        pathMetric next output (fun t _ => BitVec.ofNat 3 t) y 5) ∧
      (∀ xs, xs <+: backToBack 5 (fun t _ => BitVec.ofNat 3 t) →
        Exact (fun t _ => BitVec.ofNat 3 t) (xs.filterMap id).length
          (((code 3).reader 5).after UlViterbi.reset xs).pm) ∧
      (code 3).Between (((code 3).reader 5).after UlViterbi.reset
        (backToBack 5 (fun t _ => BitVec.ofNat 3 t) ++ List.replicate 7 none)) :=
  decodes_least (by decide) (by decide) (by decide) .reset (feeds_backToBack (by decide) _) rfl

/-! Soft values of eight bits: the metrics reach the largest value of their registers. -/

section wide
variable (k : Nat)

/-- `k + 4` stages that say almost nothing, one that says 0, and one that says almost nothing. -/
def wideSoft (t g : Nat) : BitVec 8 :=
  if t < k + 4 then if g < 2 then 128 else 127
  else if t = k + 4 then 0
  else if g < 3 then 128 else 127

def faint (g : Nat) : BitVec 8 := if g < 2 then 128 else 127
def clear : Nat → BitVec 8 := fun _ => 0
def misleading (g : Nat) : BitVec 8 := if g < 3 then 128 else 127

theorem le_faint_bm : ∀ s b, 508 ≤ bm faint s b := by decide

theorem le_faint_branch : ∀ s b, 508 ≤ branch faint s b := by decide

variable {k}

theorem wideSoft_faint {t : Nat} (ht : t < k + 4) : wideSoft k t = faint :=
  funext fun _ => if_pos ht

theorem wideSoft_clear : wideSoft k (k + 4) = clear :=
  funext fun _ => (if_neg (Nat.lt_irrefl _)).trans (if_pos rfl)

theorem wideSoft_misleading : wideSoft k (k + 5) = misleading :=
  funext fun _ => (if_neg (by omega)).trans (if_neg (by omega))

theorem le_wide_pm {t : Nat} (ht : t ≤ k + 4) (s : BitVec 4) :
    min UlViterbi.PM_MAX (t * 508) ≤ (code 8).pmOf (wideSoft k) t s := by
  induction t generalizing s with
  | zero =>
    rw [Nat.zero_mul, Nat.min_zero]
    exact Nat.zero_le _
  | succ t ih =>
    have hsum : min UlViterbi.PM_MAX ((t + 1) * 508) ≤ min UlViterbi.PM_MAX (t * 508) + 508 := by
      rw [Nat.succ_mul]
      omega
    refine le_select (Nat.min_le_left _ _) fun b => hsum.trans ?_
    have hprev := ih (by omega) (UlViterbi.prevState s b)
    have hcost := le_faint_bm s b
    rw [wideSoft_faint (by omega)]
    exact Nat.add_le_add hprev hcost

variable (hk : UlViterbi.PM_MAX ≤ (k + 4) * 508)
include hk

theorem wide_pm_full (s : BitVec 4) : (code 8).pmOf (wideSoft k) (k + 4) s = UlViterbi.PM_MAX := by
  have hle := le_wide_pm (Nat.le_refl (k + 4)) s
  rw [Nat.min_eq_left hk] at hle
  exact Nat.le_antisymm (Nat.min_le_left _ _) hle

theorem wide_pm_stays (s : BitVec 4) :
    (code 8).pmOf (wideSoft k) (k + 5) s = UlViterbi.PM_MAX := by
  refine Nat.le_antisymm (Nat.min_le_left _ _) (le_select (Nat.le_refl _) fun b => ?_)
  rw [wide_pm_full hk]
  exact Nat.le_add_right _ _

/-- With equal metrics the last stage decides by itself. -/
theorem wide_last_survivor : (code 8).survOf (wideSoft k) (k + 5) 0 = true := by
  have hcost : bm misleading 0 true < bm misleading 0 false := by decide
  refine decide_eq_true ?_
  rw [wide_pm_stays hk, wide_pm_stays hk, ViterbiCode.costs, wideSoft_misleading]
  exact Nat.add_lt_add_left hcost _

/-- So the path comes from state 8, and before that from state 4 or 12. -/
theorem wide_states :
    decodedBits (k + 6) (wideSoft k) (k + 4) = false ∧
    decodedBits (k + 6) (wideSoft k) (k + 5) = false ∧
    stateAfter (decodedBits (k + 6) (wideSoft k)) (k + 5) = 8 ∧
    (stateAfter (decodedBits (k + 6) (wideSoft k)) (k + 4) = 4 ∨
      stateAfter (decodedBits (k + 6) (wideSoft k)) (k + 4) = 12) := by
  have hshift : ∀ (s : BitVec 4) (b : Bool), (UlViterbi.prevState s b).getLsbD 0 = s.getLsbD 1 ∧
      (UlViterbi.prevState s b).getLsbD 1 = s.getLsbD 2 ∧
      (UlViterbi.prevState s b).getLsbD 2 = s.getLsbD 3 := by decide
  have height : UlViterbi.prevState 0 true = 8 := by decide
  -- the bit of stage `t` is read in the state `j` stages before the end
  have hbit : ∀ j t, k + 6 - (t + 1) = j → decodedBits (k + 6) (wideSoft k) t =
      (trace UlViterbi.prevState ((code 8).survOf (wideSoft k)) (k + 6) 0 j).getLsbD 0 := by
    intro j t hj
    rw [← hj]
    rfl
  have hone : trace UlViterbi.prevState ((code 8).survOf (wideSoft k)) (k + 6) 0 1 = 8 := by
    rw [trace, trace]
    show UlViterbi.prevState 0 ((code 8).survOf (wideSoft k) (k + 5) 0) = 8
    rw [wide_last_survivor hk, height]
  have h5 : decodedBits (k + 6) (wideSoft k) (k + 5) = false := by
    rw [hbit 0 _ (by omega), trace]
    rfl
  have h4 : decodedBits (k + 6) (wideSoft k) (k + 4) = false := by
    rw [hbit 1 _ (by omega), hone]
    rfl
  have h3 : decodedBits (k + 6) (wideSoft k) (k + 3) = false := by
    rw [hbit 2 _ (by omega), trace, (hshift _ _).1, hone]
    rfl
  have h2 : decodedBits (k + 6) (wideSoft k) (k + 2) = false := by
    rw [hbit 3 _ (by omega), trace, (hshift _ _).1, trace, (hshift _ _).2.1, hone]
    rfl
  have h1 : decodedBits (k + 6) (wideSoft k) (k + 1) = true := by
    rw [hbit 4 _ (by omega), trace, (hshift _ _).1, trace, (hshift _ _).2.1, trace,
      (hshift _ _).2.2, hone]
    rfl
  have hfour : ∀ (s : BitVec 4) (b : Bool),
      next (next (next (next s b) true) false) false = 4 ∨
        next (next (next (next s b) true) false) false = 12 := by decide
  have hthree : ∀ s : BitVec 4, next (next (next (next s true) false) false) false = 8 := by decide
  refine ⟨h4, h5, ?_, ?_⟩
  · rw [stateAfter, states, states, states, states, h1, h2, h3, h4]
    exact hthree _
  · rw [stateAfter, states, states, states, states, h1, h2, h3]
    exact hfour _ _

omit hk

theorem wide_metric {x : Nat → Bool} {t : Nat} (ht : t ≤ k + 4) :
    t * 508 ≤ pathMetric next output (wideSoft k) x t := by
  induction t with
  | zero =>
    rw [Nat.zero_mul]
    exact Nat.zero_le _
  | succ t ih =>
    have hbranch := le_faint_branch (stateAfter x t) (x t)
    have hbefore := ih (by omega)
    have hunfold : pathMetric next output (wideSoft k) x (t + 1) =
        pathMetric next output (wideSoft k) x t + branch (wideSoft k t) (stateAfter x t) (x t) := rfl
    rw [hunfold, wideSoft_faint (by omega), Nat.succ_mul]
    exact Nat.add_le_add hbefore hbranch

theorem wide_zeros {t : Nat} (ht : t ≤ k + 4) :
    pathMetric next output (wideSoft k) (fun _ => false) t = t * 510 := by
  induction t with
  | zero =>
    rw [Nat.zero_mul]
    rfl
  | succ t ih =>
    have hbranch : branch faint 0 false = 510 := by decide
    have hunfold : pathMetric next output (wideSoft k) (fun _ => false) (t + 1) =
        pathMetric next output (wideSoft k) (fun _ => false) t +
          branch (wideSoft k t) (stateAfter (fun _ => false) t) false := rfl
    rw [hunfold, ih (by omega), stateAfter_zeros, wideSoft_faint (by omega), hbranch,
      Nat.succ_mul]

/-- The decoded path ends in state 0, and costs more than the one of zeros if the block is not too
long. -/
theorem wide_decoded (hk : UlViterbi.PM_MAX ≤ (k + 4) * 508) (hshort : k < 250) :
    stateAfter (decodedBits (k + 6) (wideSoft k)) (k + 6) = 0 ∧
      pathMetric next output (wideSoft k) (fun _ => false) (k + 6) <
        pathMetric next output (wideSoft k) (decodedBits (k + 6) (wideSoft k)) (k + 6) := by
  obtain ⟨h4, h5, height, hstate⟩ := wide_states hk
  have hlast : ∀ x : Nat → Bool, pathMetric next output (wideSoft k) x (k + 6) =
      pathMetric next output (wideSoft k) x (k + 4) +
      branch (wideSoft k (k + 4)) (stateAfter x (k + 4)) (x (k + 4)) +
      branch (wideSoft k (k + 5)) (stateAfter x (k + 5)) (x (k + 5)) := fun _ => rfl
  have hend : stateAfter (decodedBits (k + 6) (wideSoft k)) (k + 6) =
      next (stateAfter (decodedBits (k + 6) (wideSoft k)) (k + 5))
        (decodedBits (k + 6) (wideSoft k) (k + 5)) := rfl
  have hzeros : branch clear 0 false + branch misleading 0 false = 511 := by decide
  have hfour : branch clear 4 false + branch misleading 8 false = 1019 := by decide
  have htwelve : branch clear 12 false + branch misleading 8 false = 1019 := by decide
  have hbefore := wide_metric (x := decodedBits (k + 6) (wideSoft k)) (Nat.le_refl (k + 4))
  constructor
  · rw [hend, height, h5]
    decide
  · rw [hlast, hlast, stateAfter_zeros, stateAfter_zeros, wide_zeros (Nat.le_refl (k + 4)), height,
      h4, h5, wideSoft_clear, wideSoft_misleading]
    rcases hstate with h | h
    · rw [h]
      omega
    · rw [h]
      omega

end wide

/-- In 140 stages of eight-bit values the metrics saturate, and the decoder puts out the bits of a
path that costs more than the one of zeros. -/
theorem wide_not_least :
    ((code 8).reader 140).outputs UlViterbi.reset
        (backToBack 140 (wideSoft 134) ++ List.replicate 277 none) =
      (List.range (140 - ViterbiCode.TAIL)).map (decodedBits 140 (wideSoft 134)) ∧
    (stateAfter (decodedBits 140 (wideSoft 134)) 140 = 0 ∧
      pathMetric next output (wideSoft 134) (fun _ => false) 140 <
        pathMetric next output (wideSoft 134) (decodedBits 140 (wideSoft 134)) 140) ∧
    stateAfter (fun _ => false) 140 = 0 ∧
    ∀ x, (code 8).pmOf (wideSoft 134) 138 (stateAfter x 138) <
      pathMetric next output (wideSoft 134) x 138 := by
  have hfeeds : ViterbiCode.Feeds 140 (wideSoft 134) (backToBack 140 (wideSoft 134)) :=
    feeds_backToBack (by decide) _
  have hlen : (List.replicate 277 (none : Option (Nat → BitVec 8))).length =
      1 + 140 + (140 - ViterbiCode.TAIL) := List.length_replicate
  obtain ⟨hout, -, -⟩ := (ViterbiCode.ready_reset).block (c := code 8) (by decide) (by decide)
    hfeeds hlen
  have hfull : UlViterbi.PM_MAX ≤ (134 + 4) * 508 := by decide
  refine ⟨?_, wide_decoded hfull (by decide), stateAfter_zeros 140, fun x => ?_⟩
  · rw [hout]
    exact List.map_congr_left fun t _ => decoded_eq 140 _ t
  · have hpm := wide_pm_full hfull (stateAfter x 138)
    have hmetric := wide_metric (k := 134) (x := x) (Nat.le_refl 138)
    have hbig : UlViterbi.PM_MAX < 138 * 508 := by decide
    exact lt_of_eq_of_lt hpm (lt_of_lt_of_le hbig hmetric)

end UlViterbiR14
end TetraBs.Lmac
