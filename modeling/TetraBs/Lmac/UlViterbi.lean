import TetraBs.Lib.Viterbi
import TetraBs.Lmac.SchHuDecoder

/-! `tetra_ul_viterbi_r14` as the SCH/HU decoder instantiates it: five-bit soft values and 112
stages. One step is one rising clock edge. -/
namespace TetraBs.Lmac
open TetraBs.Viterbi

inductive VitPhase where
  | idle | acs | tbInit | traceback | output
deriving DecidableEq

/-- `pm` and `surv` hold one entry for each state of the trellis; a row of `surv` is a stage. -/
structure UlViterbi where
  state : VitPhase
  stageCnt : Nat
  pm : BitVec 4 → Nat
  surv : Nat → BitVec 4 → Bool
  tbState : BitVec 4
  outBuf : Nat → Bool
  decodedBit : Bool
  decodedValid : Bool
  blockDone : Bool

namespace UlViterbi

def TAIL : Nat := 4
def NUM_STAGES : Nat := 112
def SOFT_MAX : Nat := 31
def BM_MAX : Nat := 4 * SOFT_MAX
def PM_MAX : Nat := 0xFFFF

/-- Only the zero state is possible before the first stage. -/
def pmInit (s : BitVec 4) : Nat := if s = 0 then 0 else PM_MAX

def reset : UlViterbi := ⟨.idle, 0, pmInit, fun _ _ => false, 0, fun _ => false, false, false, false⟩

/-- The generators in the bits of the new state, when the bit shifted out was 0. -/
def gP0 (g : Nat) (s : BitVec 4) : Bool :=
  match g with
  | 0 => s.getLsbD 0 ^^ s.getLsbD 1
  | 1 => s.getLsbD 0 ^^ s.getLsbD 2 ^^ s.getLsbD 3
  | 2 => s.getLsbD 0 ^^ s.getLsbD 1 ^^ s.getLsbD 2
  | _ => s.getLsbD 0 ^^ s.getLsbD 1 ^^ s.getLsbD 3

def softCost (soft : BitVec 5) (g : Bool) : Nat := if g then SOFT_MAX - soft.toNat else soft.toNat

def bm0 (soft : Nat → BitVec 5) (s : BitVec 4) : Nat :=
  softCost (soft 0) (gP0 0 s) + softCost (soft 1) (gP0 1 s) + softCost (soft 2) (gP0 2 s) +
    softCost (soft 3) (gP0 3 s)

/-- `bm0_w` and `bm1_w`, by the bit shifted out. -/
def bm (soft : Nat → BitVec 5) (s : BitVec 4) (b : Bool) : Nat :=
  if b then BM_MAX - bm0 soft s else bm0 soft s

/-- `{surv, tb_state[3:1]}`. -/
def prevState (s : BitVec 4) (b : Bool) : BitVec 4 := BitVec.ofBool b ++ s.extractLsb' 1 3

def acsDone (v : UlViterbi) (inputValid : Bool) : Bool :=
  v.state = .acs && inputValid && v.stageCnt = NUM_STAGES - 1

def tbDone (v : UlViterbi) : Bool := v.state = .traceback && v.stageCnt = NUM_STAGES - 1

def outDone (v : UlViterbi) : Bool := v.state = .output && v.stageCnt = NUM_STAGES - TAIL - 1

def takes (v : UlViterbi) (inputValid : Bool) : Bool :=
  (v.state = .idle || v.state = .acs) && inputValid

def tbStage (v : UlViterbi) : Nat := (NUM_STAGES - 1 + 512 - v.stageCnt) % 512

def step (v : UlViterbi) (soft : Nat → BitVec 5) (inputValid : Bool) : UlViterbi where
  state :=
    match v.state with
    | .idle => if inputValid then .acs else .idle
    | .acs => if acsDone v inputValid then .tbInit else .acs
    | .tbInit => .traceback
    | .traceback => if tbDone v then .output else .traceback
    | .output => if outDone v then .idle else .output
  stageCnt :=
    match v.state with
    | .idle => if inputValid then 1 else v.stageCnt
    | .acs =>
      if inputValid then if acsDone v inputValid then 0 else (v.stageCnt + 1) % 512
      else v.stageCnt
    | .tbInit => 0
    | .traceback => if tbDone v then 0 else (v.stageCnt + 1) % 512
    | .output => if outDone v then 0 else (v.stageCnt + 1) % 512
  pm :=
    if outDone v then pmInit
    else if takes v inputValid then select prevState PM_MAX v.pm (bm soft)
    else v.pm
  surv :=
    if takes v inputValid then
      HuDecoder.store v.surv v.stageCnt (survivor prevState v.pm (bm soft))
    else v.surv
  tbState :=
    match v.state with
    | .tbInit => 0
    | .traceback => prevState v.tbState (v.surv (tbStage v) v.tbState)
    | _ => v.tbState
  outBuf :=
    if v.state = .traceback then HuDecoder.store v.outBuf (tbStage v) (v.tbState.getLsbD 0)
    else v.outBuf
  decodedBit := if v.state = .output then v.outBuf v.stageCnt else v.decodedBit
  decodedValid := v.state = .output
  blockDone := outDone v

/-! The block that a sequence of soft values decodes to. -/

/-- The costs of stage `t`. -/
def costs (soft : Nat → Nat → BitVec 5) (t : Nat) : BitVec 4 → Bool → Nat := bm (soft t)

def survOf (soft : Nat → Nat → BitVec 5) : Nat → BitVec 4 → Bool :=
  survivors prevState PM_MAX pmInit (costs soft)

/-- The state `k` stages before the end. -/
def traceOf (soft : Nat → Nat → BitVec 5) : Nat → BitVec 4 :=
  trace prevState (survOf soft) NUM_STAGES 0

def decoded (soft : Nat → Nat → BitVec 5) (t : Nat) : Bool :=
  (traceOf soft (NUM_STAGES - 1 - t)).getLsbD 0

/-! The phases of a block. -/

variable {v : UlViterbi} {soft : Nat → Nat → BitVec 5} {k : Nat}

/-- `k` stages have come. -/
structure Taking (soft : Nat → Nat → BitVec 5) (k : Nat) (v : UlViterbi) : Prop where
  state : v.state = if k = 0 then .idle else .acs
  stageCnt : v.stageCnt = k
  pm : v.pm = metrics prevState PM_MAX pmInit (costs soft) k
  surv : ∀ t < k, v.surv t = survOf soft t
  decodedValid : v.decodedValid = false
  blockDone : v.blockDone = false

/-- All stages have come. -/
structure Full (soft : Nat → Nat → BitVec 5) (v : UlViterbi) : Prop where
  state : v.state = .tbInit
  surv : ∀ t < NUM_STAGES, v.surv t = survOf soft t
  decodedValid : v.decodedValid = false
  blockDone : v.blockDone = false

structure Tracing (soft : Nat → Nat → BitVec 5) (k : Nat) (v : UlViterbi) : Prop where
  state : v.state = .traceback
  stageCnt : v.stageCnt = k
  surv : ∀ t < NUM_STAGES, v.surv t = survOf soft t
  tbState : v.tbState = traceOf soft k
  outBuf : ∀ t, NUM_STAGES - k ≤ t → t < NUM_STAGES → v.outBuf t = decoded soft t
  decodedValid : v.decodedValid = false
  blockDone : v.blockDone = false

/-- `k` bits are out. -/
structure Sending (soft : Nat → Nat → BitVec 5) (k : Nat) (v : UlViterbi) : Prop where
  state : v.state = .output
  stageCnt : v.stageCnt = k
  outBuf : ∀ t < NUM_STAGES, v.outBuf t = decoded soft t
  decodedValid : v.decodedValid = decide (0 < k)
  decodedBit : 0 < k → v.decodedBit = decoded soft (k - 1)
  blockDone : v.blockDone = false

/-- The last bit is out. -/
structure Finished (soft : Nat → Nat → BitVec 5) (v : UlViterbi) : Prop where
  state : v.state = .idle
  stageCnt : v.stageCnt = 0
  pm : v.pm = pmInit
  decodedValid : v.decodedValid = true
  decodedBit : v.decodedBit = decoded soft (NUM_STAGES - TAIL - 1)
  blockDone : v.blockDone = true

/-- A stage reads four values. -/
theorem step_congr (v : UlViterbi) {x y : Nat → BitVec 5} (h : ∀ g < 4, x g = y g)
    (valid : Bool) : v.step x valid = v.step y valid := by
  have hbm : bm x = bm y := by
    funext s b
    rw [bm, bm, bm0, bm0, h 0 (by decide), h 1 (by decide), h 2 (by decide), h 3 (by decide)]
  rw [step, step, hbm]

theorem taking_reset (soft : Nat → Nat → BitVec 5) : Taking soft 0 reset :=
  ⟨rfl, rfl, rfl, fun t ht => absurd ht (Nat.not_lt_zero t), rfl, rfl⟩

theorem Taking.idle_or_acs (h : Taking soft k v) :
    v.state = .idle ∧ k = 0 ∨ v.state = .acs ∧ k ≠ 0 := by
  have hstate := h.state
  by_cases hk : k = 0
  · rw [if_pos hk] at hstate
    exact .inl ⟨hstate, hk⟩
  · rw [if_neg hk] at hstate
    exact .inr ⟨hstate, hk⟩

theorem Taking.wait (h : Taking soft k v) (x : Nat → BitVec 5) : Taking soft k (v.step x false) := by
  rcases h.idle_or_acs with ⟨hstate, hk⟩ | ⟨hstate, hk⟩
  · refine ⟨?_, ?_, ?_, ?_, ?_, ?_⟩ <;>
      simp [step, hstate, outDone, takes, h.stageCnt, h.pm, hk]
  · refine ⟨?_, ?_, ?_, ?_, ?_, ?_⟩ <;>
      simp [step, hstate, acsDone, outDone, takes, h.stageCnt, h.pm, hk]
    exact h.surv

theorem Taking.takes (h : Taking soft k v) : takes v true = true := by
  rcases h.idle_or_acs with ⟨hstate, -⟩ | ⟨hstate, -⟩ <;> simp [UlViterbi.takes, hstate]

theorem Taking.not_outDone (h : Taking soft k v) : outDone v = false := by
  rcases h.idle_or_acs with ⟨hstate, -⟩ | ⟨hstate, -⟩ <;> simp [outDone, hstate]

theorem Taking.stored (h : Taking soft k v) : ∀ t < k + 1,
    (v.step (soft k) true).surv t = survOf soft t := by
  intro t ht
  have hsurv : (v.step (soft k) true).surv =
      HuDecoder.store v.surv v.stageCnt (survivor prevState v.pm (bm (soft k))) := if_pos h.takes
  rw [hsurv, HuDecoder.store, h.stageCnt]
  by_cases hlast : t = k
  · rw [if_pos hlast, hlast, h.pm]
    rfl
  · rw [if_neg hlast]
    exact h.surv t (by omega)

theorem Taking.feed (h : Taking soft k v) (hk : k + 1 < NUM_STAGES) :
    Taking soft (k + 1) (v.step (soft k) true) := by
  have hcnt := h.stageCnt
  have hlt : k + 1 < 112 := hk
  have hlast : acsDone v true = false := by
    simp [acsDone, hcnt, NUM_STAGES]
    omega
  refine ⟨?_, ?_, ?_, h.stored, ?_, h.not_outDone⟩
  · rcases h.idle_or_acs with ⟨hstate, -⟩ | ⟨hstate, -⟩ <;> simp [step, hstate, hlast]
  · rcases h.idle_or_acs with ⟨hstate, hk⟩ | ⟨hstate, -⟩
    · simp [step, hstate, hk]
    · simp [step, hstate, hlast, hcnt]
      omega
  · have hpm : (v.step (soft k) true).pm = if outDone v then pmInit
        else if UlViterbi.takes v true then select prevState PM_MAX v.pm (bm (soft k))
        else v.pm := rfl
    rw [hpm, h.not_outDone, h.takes, if_neg Bool.false_ne_true, if_pos rfl, h.pm]
    rfl
  · rcases h.idle_or_acs with ⟨hstate, -⟩ | ⟨hstate, -⟩ <;> simp [step, hstate]

theorem Taking.last (h : Taking soft (NUM_STAGES - 1) v) :
    Full soft (v.step (soft (NUM_STAGES - 1)) true) := by
  have hstate : v.state = .acs := h.state
  have hdone : acsDone v true = true := by simp [acsDone, hstate, h.stageCnt]
  refine ⟨?_, h.stored, ?_, h.not_outDone⟩
  · simp [step, hstate, hdone]
  · simp [step, hstate]

theorem Full.step (h : Full soft v) (x : Nat → BitVec 5) (valid : Bool) :
    Tracing soft 0 (v.step x valid) := by
  have hstate := h.state
  have htakes : takes v valid = false := by simp [takes, hstate]
  refine ⟨?_, ?_, ?_, ?_, fun t ht hlt => absurd hlt (by omega), ?_, ?_⟩
  · simp [UlViterbi.step, hstate]
  · simp [UlViterbi.step, hstate]
  · simpa [UlViterbi.step, htakes] using h.surv
  · simp [UlViterbi.step, hstate, traceOf, trace]
  · simp [UlViterbi.step, hstate]
  · simp [UlViterbi.step, outDone, hstate]

theorem Tracing.tbStage (h : Tracing soft k v) (hk : k < NUM_STAGES) :
    tbStage v = NUM_STAGES - 1 - k := by
  rw [UlViterbi.tbStage, h.stageCnt]
  simp only [NUM_STAGES] at *
  omega

theorem Tracing.stored (h : Tracing soft k v) (hk : k < NUM_STAGES) (x : Nat → BitVec 5)
    (valid : Bool) : ∀ t, NUM_STAGES - (k + 1) ≤ t → t < NUM_STAGES →
      (v.step x valid).outBuf t = decoded soft t := by
  intro t ht hlt
  have hout : (v.step x valid).outBuf =
      HuDecoder.store v.outBuf (UlViterbi.tbStage v) (v.tbState.getLsbD 0) := if_pos h.state
  rw [hout, HuDecoder.store, h.tbStage hk]
  by_cases hnow : t = NUM_STAGES - 1 - k
  · rw [if_pos hnow, h.tbState, decoded]
    congr 2
    omega
  · rw [if_neg hnow]
    exact h.outBuf t (by omega) hlt

theorem Tracing.step (h : Tracing soft k v) (hk : k + 1 < NUM_STAGES) (x : Nat → BitVec 5)
    (valid : Bool) : Tracing soft (k + 1) (v.step x valid) := by
  have hstate := h.state
  have hlt : k + 1 < 112 := hk
  have hlast : tbDone v = false := by
    simp [tbDone, h.stageCnt, NUM_STAGES]
    omega
  have htakes : takes v valid = false := by simp [takes, hstate]
  refine ⟨?_, ?_, ?_, ?_, h.stored (by omega) x valid, ?_, ?_⟩
  · simp [UlViterbi.step, hstate, hlast]
  · simp [UlViterbi.step, hstate, hlast, h.stageCnt]
    omega
  · simpa [UlViterbi.step, htakes] using h.surv
  · have htb : (v.step x valid).tbState =
        prevState v.tbState (v.surv (UlViterbi.tbStage v) v.tbState) := by
      simp only [UlViterbi.step, hstate]
    rw [htb, h.tbStage (by omega), h.tbState, h.surv _ (by omega)]
    rfl
  · simp [UlViterbi.step, hstate]
  · simp [UlViterbi.step, outDone, hstate]

theorem Tracing.last (h : Tracing soft (NUM_STAGES - 1) v) (x : Nat → BitVec 5) (valid : Bool) :
    Sending soft 0 (v.step x valid) := by
  have hstate := h.state
  have hdone : tbDone v = true := by simp [tbDone, hstate, h.stageCnt]
  refine ⟨?_, ?_, fun t ht => h.stored (by decide) x valid t (by simp [NUM_STAGES]) ht, ?_,
    fun h0 => absurd h0 (Nat.lt_irrefl 0), ?_⟩
  · simp [UlViterbi.step, hstate, hdone]
  · simp [UlViterbi.step, hstate, hdone]
  · simp [UlViterbi.step, hstate]
  · simp [UlViterbi.step, outDone, hstate]

theorem Sending.step (h : Sending soft k v) (hk : k + 1 < NUM_STAGES - TAIL) (x : Nat → BitVec 5)
    (valid : Bool) : Sending soft (k + 1) (v.step x valid) := by
  have hstate := h.state
  have hlt : k + 1 < 108 := hk
  have hlast : outDone v = false := by
    simp [outDone, h.stageCnt, NUM_STAGES, TAIL]
    omega
  refine ⟨?_, ?_, ?_, ?_, fun _ => ?_, hlast⟩
  · simp [UlViterbi.step, hstate, hlast]
  · simp [UlViterbi.step, hstate, hlast, h.stageCnt]
    omega
  · simpa [UlViterbi.step, hstate] using h.outBuf
  · simp [UlViterbi.step, hstate]
  · have hbit : (v.step x valid).decodedBit = v.outBuf v.stageCnt := if_pos hstate
    rw [hbit, h.stageCnt, h.outBuf k (by show k < 112; omega), Nat.add_sub_cancel]

theorem Sending.last (h : Sending soft (NUM_STAGES - TAIL - 1) v) (x : Nat → BitVec 5)
    (valid : Bool) : Finished soft (v.step x valid) := by
  have hstate := h.state
  have hdone : outDone v = true := by simp [outDone, hstate, h.stageCnt]
  refine ⟨?_, ?_, ?_, ?_, ?_, hdone⟩
  · simp [UlViterbi.step, hstate, hdone]
  · simp [UlViterbi.step, hstate, hdone]
  · simp [UlViterbi.step, hdone]
  · simp [UlViterbi.step, hstate]
  · have hbit : (v.step x valid).decodedBit = v.outBuf v.stageCnt := if_pos hstate
    rw [hbit, h.stageCnt, h.outBuf _ (by decide)]

theorem Finished.step (h : Finished soft v) (x : Nat → BitVec 5) (soft' : Nat → Nat → BitVec 5) :
    Taking soft' 0 (v.step x false) := by
  have hstate := h.state
  refine ⟨?_, ?_, ?_, fun t ht => absurd ht (Nat.not_lt_zero t), ?_, ?_⟩
  · simp [UlViterbi.step, hstate]
  · simp [UlViterbi.step, hstate, h.stageCnt]
  · simp [UlViterbi.step, outDone, takes, hstate, h.pm, metrics]
  · simp [UlViterbi.step, hstate]
  · simp [UlViterbi.step, outDone, hstate]

end UlViterbi
end TetraBs.Lmac
