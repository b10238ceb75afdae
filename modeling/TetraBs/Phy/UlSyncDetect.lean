import Mathlib.Data.List.GetD
import Mathlib.Logic.Function.Basic
import Mathlib.Tactic.Ring

/-! `tetra_ul_sync_detect_os4`: the detector of the uplink training sequence, one correlator for
each of the four sample phases. One step is one rising clock edge. -/
namespace TetraBs.Phy

structure IqSample where
  i : Int
  q : Int
deriving DecidableEq

structure UlIqInput where
  iq : IqSample
  valid : Bool
  resetPeak : Bool
  corrThreshold : BitVec 6

/-- The four numbered registers of the source are functions of the phase. -/
structure UlSyncDetect where
  phaseCnt : BitVec 2
  hist : BitVec 2 → IqSample
  sreg : BitVec 2 → BitVec 30
  holdoffCnt : BitVec 8
  syncFound : Bool
  bestPhase : BitVec 2
  corrPeak : BitVec 6

/-- The signs of `cur` times the conjugate of `prev`. -/
def diffDibit (cur prev : IqSample) : BitVec 2 :=
  let iProd := cur.i * prev.i + cur.q * prev.q
  let qProd := cur.q * prev.i - cur.i * prev.q
  BitVec.ofBool (qProd < 0) ++ BitVec.ofBool (iProd < 0)

namespace UlSyncDetect

def reset : UlSyncDetect := ⟨0, fun _ => ⟨0, 0⟩, fun _ => 0, 0, false, 0, 0⟩

/-- The extended training sequence, oldest dibit on top. -/
def ETS_REF : BitVec 30 := 0b10_01_11_01_00_00_11_10_10_01_11_01_00_00_11#30

/-- The number of dibits that match. -/
def corrCount (sreg : BitVec 30) : Nat :=
  (List.range 15).countP fun k => (sreg ^^^ ETS_REF).extractLsb' (2 * k) 2 = 0

def corr (s : UlSyncDetect) (p : BitVec 2) : Nat := corrCount (s.sreg p)

def corrMax (s : UlSyncDetect) : Nat :=
  max (max (corr s 0) (corr s 1)) (max (corr s 2) (corr s 3))

/-- The winning phase, the lowest of equals. -/
def bestPhaseW (s : UlSyncDetect) : BitVec 2 :=
  if corr s 1 ≤ corr s 0 ∧ corr s 2 ≤ corr s 0 ∧ corr s 3 ≤ corr s 0 then 0
  else if corr s 2 ≤ corr s 1 ∧ corr s 3 ≤ corr s 1 then 1
  else if corr s 3 ≤ corr s 2 then 2
  else 3

/-- A threshold above 15 is never met. -/
def threshHit (s : UlSyncDetect) (i : UlIqInput) : Bool :=
  i.corrThreshold.toNat ≤ 15 ∧ i.corrThreshold.toNat ≤ corrMax s

def syncFire (s : UlSyncDetect) (i : UlIqInput) : Bool :=
  i.valid && threshHit s i && s.holdoffCnt = 0

def step (HOLDOFF : BitVec 8) (s : UlSyncDetect) (i : UlIqInput) : UlSyncDetect where
  phaseCnt := if i.valid then s.phaseCnt + 1 else s.phaseCnt
  hist := if i.valid then Function.update s.hist s.phaseCnt i.iq else s.hist
  sreg :=
    if i.valid then
      Function.update s.sreg s.phaseCnt
        ((s.sreg s.phaseCnt).extractLsb' 0 28 ++ diffDibit i.iq (s.hist s.phaseCnt))
    else s.sreg
  holdoffCnt :=
    if syncFire s i then HOLDOFF
    else if i.valid && s.holdoffCnt ≠ 0 then s.holdoffCnt - 1
    else s.holdoffCnt
  syncFound := syncFire s i
  bestPhase := if syncFire s i then bestPhaseW s else s.bestPhase
  corrPeak :=
    if i.resetPeak then 0
    else if i.valid && s.corrPeak.toNat < corrMax s then BitVec.ofNat 6 (corrMax s)
    else s.corrPeak

end UlSyncDetect

/-! The windows of the correlators, in the numbers of the samples. -/

/-- A sample by its number; before the first one the registers hold zeros. -/
def sampleAt (xs : List IqSample) (k : Int) : IqSample :=
  if 0 ≤ k then xs.getD k.toNat ⟨0, 0⟩ else ⟨0, 0⟩

/-- The dibit from the sample one symbol before to the sample `k`. -/
def dibitAt (xs : List IqSample) (k : Int) : BitVec 2 :=
  diffDibit (sampleAt xs k) (sampleAt xs (k - 4))

/-- The number of the newest of `n` samples that has the phase `p`; negative when there is none. -/
def newest (n : Nat) (p : BitVec 2) : Int := n - 1 - (n - 1 - p.toNat : Int) % 4

theorem sampleAt_push (xs : List IqSample) (x : IqSample) {k : Int} (h : k < xs.length) :
    sampleAt (xs ++ [x]) k = sampleAt xs k := by
  unfold sampleAt
  split
  · rw [List.getD_append _ _ _ _ (by omega)]
  · rfl

theorem sampleAt_last (xs : List IqSample) (x : IqSample) :
    sampleAt (xs ++ [x]) xs.length = x := by
  simp [sampleAt]

theorem dibitAt_push (xs : List IqSample) (x : IqSample) {k : Int} (h : k < xs.length) :
    dibitAt (xs ++ [x]) k = dibitAt xs k := by
  rw [dibitAt, dibitAt, sampleAt_push xs x h, sampleAt_push xs x (by omega)]

theorem newest_lt (n : Nat) (p : BitVec 2) : newest n p < n := by
  unfold newest
  omega

theorem newest_own (n : Nat) : newest n (BitVec.ofNat 2 n) = n - 4 := by
  rw [newest, BitVec.toNat_ofNat]
  omega

theorem newest_push_own (n : Nat) : newest (n + 1) (BitVec.ofNat 2 n) = n := by
  rw [newest, BitVec.toNat_ofNat]
  omega

theorem newest_push_other {n : Nat} {p : BitVec 2} (h : p ≠ BitVec.ofNat 2 n) :
    newest (n + 1) p = newest n p := by
  have hne : p.toNat ≠ n % 4 := by
    intro heq
    exact h (BitVec.eq_of_toNat_eq (by rw [heq, BitVec.toNat_ofNat]))
  have hlt := p.isLt
  unfold newest
  omega

namespace UlSyncDetect

/-- The registers after the samples `xs`: each phase's window holds the fifteen dibits that end with
its newest sample. -/
structure Tracks (xs : List IqSample) (s : UlSyncDetect) : Prop where
  phaseCnt : s.phaseCnt = BitVec.ofNat 2 xs.length
  hist : ∀ p, s.hist p = sampleAt xs (newest xs.length p)
  sreg : ∀ p, ∀ j < 15, (s.sreg p).extractLsb' (2 * j) 2 = dibitAt xs (newest xs.length p - 4 * j)

theorem tracks_reset : Tracks [] reset where
  phaseCnt := rfl
  hist p := by
    have := newest_lt 0 p
    simp [reset, sampleAt]
  sreg p j _ := by
    have hzero : ∀ k, sampleAt [] k = ⟨0, 0⟩ := fun k => by simp [sampleAt]
    rw [dibitAt, hzero, hzero, reset]
    simp [diffDibit]

theorem shifted_newest (w : BitVec 30) (d : BitVec 2) :
    (w.extractLsb' 0 28 ++ d).extractLsb' 0 2 = d := by
  refine BitVec.eq_of_getLsbD_eq fun b hb => ?_
  rw [BitVec.getLsbD_extractLsb', decide_eq_true hb, Bool.true_and, Nat.zero_add,
    BitVec.getLsbD_append, if_pos hb]

theorem shifted_older (w : BitVec 30) (d : BitVec 2) {j : Nat} (hj : j < 14) :
    (w.extractLsb' 0 28 ++ d).extractLsb' (2 * (j + 1)) 2 = w.extractLsb' (2 * j) 2 := by
  refine BitVec.eq_of_getLsbD_eq fun b hb => ?_
  have hge : ¬ 2 * (j + 1) + b < 2 := by omega
  have hin : 2 * (j + 1) + b - 2 < 28 := by omega
  rw [BitVec.getLsbD_extractLsb', BitVec.getLsbD_extractLsb', BitVec.getLsbD_append, if_neg hge,
    BitVec.getLsbD_extractLsb', decide_eq_true hin, Bool.true_and, Nat.zero_add]
  congr 2
  omega

variable {xs : List IqSample} {s : UlSyncDetect} {i : UlIqInput}

theorem Tracks.push (h : Tracks xs s) (HOLDOFF : BitVec 8) (hv : i.valid = true) :
    Tracks (xs ++ [i.iq]) (step HOLDOFF s i) where
  phaseCnt := by
    simp [step, hv, h.phaseCnt, BitVec.ofNat_add]
  hist p := by
    rw [List.length_append, List.length_singleton]
    simp only [step, hv, if_true, h.phaseCnt]
    by_cases hp : p = BitVec.ofNat 2 xs.length
    · rw [hp, Function.update_self, newest_push_own, sampleAt_last]
    · rw [Function.update_of_ne hp, newest_push_other hp, sampleAt_push _ _ (newest_lt _ _), h.hist]
  sreg p j hj := by
    rw [List.length_append, List.length_singleton]
    simp only [step, hv, if_true, h.phaseCnt]
    by_cases hp : p = BitVec.ofNat 2 xs.length
    · rw [hp, Function.update_self, newest_push_own]
      cases j with
      | zero =>
        rw [Nat.mul_zero, shifted_newest, h.hist, newest_own, dibitAt]
        simp only [Nat.cast_zero, Int.mul_zero, Int.sub_zero]
        rw [sampleAt_last, sampleAt_push _ _ (by omega)]
      | succ j =>
        rw [shifted_older _ _ (by omega), h.sreg _ j (by omega), newest_own,
          dibitAt_push _ _ (by omega)]
        congr 1
        push_cast
        ring
    · have hlt := newest_lt xs.length p
      rw [Function.update_of_ne hp, newest_push_other hp, dibitAt_push _ _ (by omega), h.sreg p j hj]

theorem Tracks.idle (h : Tracks xs s) (HOLDOFF : BitVec 8) (hv : i.valid = false) :
    Tracks xs (step HOLDOFF s i) where
  phaseCnt := by simpa [step, hv] using h.phaseCnt
  hist := by simpa [step, hv] using h.hist
  sreg := by simpa [step, hv] using h.sreg

end UlSyncDetect
end TetraBs.Phy
