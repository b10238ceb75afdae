import TetraBs.Lib.Run
import TetraBs.Lib.Signed

/-! `tetra_timing_recovery`: a Gardner detector whose loop filter steers an NCO that picks the
samples to keep. One step is one rising clock edge. -/
namespace TetraBs.Phy
open TetraBs.Run TetraBs.Signed

structure TrInput where
  iIn : BitVec 16
  qIn : BitVec 16
  sampleValidIn : Bool
deriving DecidableEq

structure TimingRecovery where
  iS0 : BitVec 16 := 0
  qS0 : BitVec 16 := 0
  iS1 : BitVec 16 := 0
  qS1 : BitVec 16 := 0
  iS2 : BitVec 16 := 0
  qS2 : BitVec 16 := 0
  iS3 : BitVec 16 := 0
  qS3 : BitVec 16 := 0
  ncoAcc : BitVec 32 := 0
  ncoStep : BitVec 32 := 0x40000000
  loopInteg : BitVec 32 := 0
  tedOut : BitVec 16 := 0
  lockCnt : BitVec 8 := 0
  iOut : BitVec 16 := 0
  qOut : BitVec 16 := 0
  sampleValidOut : Bool := false
  timingLocked : Bool := false
deriving DecidableEq

namespace TimingRecovery

def reset : TimingRecovery := {}

def NCO_NOMINAL_S : BitVec 32 := 0x40000000
def LOCK_THRESH : Nat := 256
def LOCK_COUNT : BitVec 8 := 144
def LOCK_SAT : BitVec 8 := 255

def ncoSum (s : TimingRecovery) : BitVec 32 := s.ncoAcc + s.ncoStep

def ncoOvf (s : TimingRecovery) (i : TrInput) : Bool := i.sampleValidIn && s.ncoSum < s.ncoAcc

/-- The midpoint times the difference of the samples on both sides of it. -/
def tedProd (mid late early : BitVec 16) : BitVec 33 :=
  let diff := late.signExtend 17 - early.signExtend 17
  mid.signExtend 33 * diff.signExtend 33

def tedSum (s : TimingRecovery) (i : TrInput) : BitVec 34 :=
  (tedProd s.iS1 i.iIn s.iS3).signExtend 34 + (tedProd s.qS1 i.qIn s.qS3).signExtend 34

def tedScaled (s : TimingRecovery) (i : TrInput) : BitVec 16 := (s.tedSum i).extractLsb' 18 16

def tedExt (s : TimingRecovery) (i : TrInput) : BitVec 32 := (s.tedScaled i).signExtend 32

def kpTerm (s : TimingRecovery) (i : TrInput) : BitVec 32 := (s.tedExt i).sshiftRight 4

def kiDelta (s : TimingRecovery) (i : TrInput) : BitVec 32 := (s.tedExt i).sshiftRight 8

def integNew (s : TimingRecovery) (i : TrInput) : BitVec 32 := s.loopInteg + s.kiDelta i

def ncoStepNew (s : TimingRecovery) (i : TrInput) : BitVec 32 :=
  NCO_NOMINAL_S + s.kpTerm i + s.integNew i

def tedAbs (s : TimingRecovery) (i : TrInput) : BitVec 16 :=
  if (s.tedScaled i).msb then ~~~(s.tedScaled i) + 1 else s.tedScaled i

def lockGood (s : TimingRecovery) (i : TrInput) : Bool := (s.tedAbs i).toNat < LOCK_THRESH

def step (s : TimingRecovery) (i : TrInput) : TimingRecovery where
  iS0 := if i.sampleValidIn then i.iIn else s.iS0
  qS0 := if i.sampleValidIn then i.qIn else s.qS0
  iS1 := if i.sampleValidIn then s.iS0 else s.iS1
  qS1 := if i.sampleValidIn then s.qS0 else s.qS1
  iS2 := if i.sampleValidIn then s.iS1 else s.iS2
  qS2 := if i.sampleValidIn then s.qS1 else s.qS2
  iS3 := if i.sampleValidIn then s.iS2 else s.iS3
  qS3 := if i.sampleValidIn then s.qS2 else s.qS3
  ncoAcc := if i.sampleValidIn then s.ncoSum else s.ncoAcc
  ncoStep := if s.ncoOvf i then s.ncoStepNew i else s.ncoStep
  loopInteg := if s.ncoOvf i then s.integNew i else s.loopInteg
  tedOut := if s.ncoOvf i then s.tedScaled i else s.tedOut
  lockCnt :=
    if s.ncoOvf i then
      if s.lockGood i then if s.lockCnt = LOCK_SAT then s.lockCnt else s.lockCnt + 1 else 0
    else s.lockCnt
  iOut := if s.ncoOvf i then i.iIn else s.iOut
  qOut := if s.ncoOvf i then i.qIn else s.qOut
  sampleValidOut := s.ncoOvf i
  timingLocked :=
    if s.ncoOvf i then
      if s.lockGood i && LOCK_COUNT ≤ s.lockCnt then true
      else if s.lockGood i then s.timingLocked else false
    else s.timingLocked

theorem strobe_ncoStep {s : TimingRecovery} {i : TrInput} (h : s.ncoOvf i = true) :
    (s.step i).ncoStep = s.ncoStepNew i := if_pos h

theorem strobe_loopInteg {s : TimingRecovery} {i : TrInput} (h : s.ncoOvf i = true) :
    (s.step i).loopInteg = s.integNew i := if_pos h

theorem quiet_ncoStep {s : TimingRecovery} {i : TrInput} (h : ¬s.ncoOvf i = true) :
    (s.step i).ncoStep = s.ncoStep := if_neg h

theorem quiet_loopInteg {s : TimingRecovery} {i : TrInput} (h : ¬s.ncoOvf i = true) :
    (s.step i).loopInteg = s.loopInteg := if_neg h

/-! The loop in integers. -/

/-- The Gardner error of a sample that is kept, of the ones two and four before it. -/
def gardner (s : TimingRecovery) (i : TrInput) : ℤ :=
  (s.iS1.toInt * (i.iIn.toInt - s.iS3.toInt) + s.qS1.toInt * (i.qIn.toInt - s.qS3.toInt)) / 2 ^ 18

/-- The errors at the strobes of a run, as far as they enter the loop. -/
def strobeErrors : TimingRecovery → List TrInput → List ℤ
  | _, [] => []
  | s, i :: is =>
    if s.ncoOvf i then s.gardner i :: strobeErrors (s.step i) is else strobeErrors (s.step i) is

/-- At every strobe a sixteenth of its error and the sum, from `c` on, of the 256th parts of all
errors so far, each rounded down, stay between the nominal step and its negative. -/
def Bounded (c : ℤ) (es : List ℤ) : Prop :=
  ∀ pre e post, es = pre ++ e :: post →
    -2 ^ 30 < e / 16 + (c + (pre.map (· / 256)).sum + e / 256) ∧
      e / 16 + (c + (pre.map (· / 256)).sum + e / 256) < 2 ^ 30

def StepInRange (s : TimingRecovery) : Prop := 0 < s.ncoStep.toInt ∧ s.ncoStep.toInt < 2 ^ 31

/-- The step of every state of a run is in range, enough samples bring a strobe, and no two
samples in a row bring one each. -/
structure KeepsTime (is : List TrInput) : Prop where
  inRange : ∀ pre, pre <+: is → StepInRange (exec step reset pre)
  goesOn : ∀ pre more post, is = pre ++ more ++ post →
    2 ^ 32 ≤ (exec step reset pre).ncoStep.toNat * more.countP (·.sampleValidIn) →
      ∃ a i b, more = a ++ i :: b ∧ (exec step reset (pre ++ a ++ [i])).sampleValidOut = true
  spaced : ∀ pre i mid j post, is = pre ++ i :: mid ++ j :: post →
    (∀ k ∈ mid, k.sampleValidIn = false) → (exec step reset (pre ++ [i])).sampleValidOut = true →
      (exec step reset (pre ++ i :: mid ++ [j])).sampleValidOut = false

theorem abs_sub_toInt_le (x y : BitVec 16) : |x.toInt - y.toInt| ≤ 65535 := by
  obtain ⟨hlo, hhi⟩ := fits_toInt x
  obtain ⟨hlo', hhi'⟩ := fits_toInt y
  rw [abs_le]
  omega

theorem tedProd_toInt (mid late early : BitVec 16) :
    (tedProd mid late early).toInt = mid.toInt * (late.toInt - early.toInt) := by
  have hdiff : (late.signExtend 17 - early.signExtend 17).toInt = late.toInt - early.toInt := by
    have hle := abs_le.1 (abs_sub_toInt_le late early)
    rw [toInt_sub] <;> rw [toInt_signExtend _ (by decide), toInt_signExtend _ (by decide)]
    exact ⟨by omega, by omega⟩
  have hprod := abs_le.1 (abs_mul_le (abs_toInt_le mid) (abs_sub_toInt_le late early))
  unfold tedProd
  simp only
  rw [toInt_mul] <;> rw [toInt_signExtend _ (by decide), toInt_signExtend _ (by decide), hdiff]
  exact ⟨by omega, by omega⟩

theorem tedSum_toInt (s : TimingRecovery) (i : TrInput) : (s.tedSum i).toInt =
    s.iS1.toInt * (i.iIn.toInt - s.iS3.toInt) + s.qS1.toInt * (i.qIn.toInt - s.qS3.toInt) := by
  have hI := abs_le.1 (abs_mul_le (abs_toInt_le s.iS1) (abs_sub_toInt_le i.iIn s.iS3))
  have hQ := abs_le.1 (abs_mul_le (abs_toInt_le s.qS1) (abs_sub_toInt_le i.qIn s.qS3))
  unfold tedSum
  rw [toInt_add] <;> rw [toInt_signExtend _ (by decide), toInt_signExtend _ (by decide),
    tedProd_toInt, tedProd_toInt]
  exact ⟨by omega, by omega⟩

theorem tedScaled_toInt (s : TimingRecovery) (i : TrInput) :
    (s.tedScaled i).toInt = s.gardner i := by
  unfold tedScaled gardner
  rw [toInt_top (by decide) (by decide), tedSum_toInt]

/-- The error is at most half of what its register holds. -/
theorem gardner_bounds (s : TimingRecovery) (i : TrInput) :
    -16384 ≤ s.gardner i ∧ s.gardner i < 16384 := by
  have hI := abs_le.1 (abs_mul_le (abs_toInt_le s.iS1) (abs_sub_toInt_le i.iIn s.iS3))
  have hQ := abs_le.1 (abs_mul_le (abs_toInt_le s.qS1) (abs_sub_toInt_le i.qIn s.qS3))
  unfold gardner
  omega

theorem kpTerm_toInt (s : TimingRecovery) (i : TrInput) :
    (s.kpTerm i).toInt = s.gardner i / 16 := by
  unfold kpTerm tedExt
  rw [toInt_sshiftRight, toInt_signExtend _ (by decide), tedScaled_toInt]
  rfl

theorem kiDelta_toInt (s : TimingRecovery) (i : TrInput) :
    (s.kiDelta i).toInt = s.gardner i / 256 := by
  unfold kiDelta tedExt
  rw [toInt_sshiftRight, toInt_signExtend _ (by decide), tedScaled_toInt]
  rfl

/-- The integrator holds `c`, which has room for one more error. -/
structure Tracks (c : ℤ) (s : TimingRecovery) : Prop where
  integ : s.loopInteg.toInt = c
  low : -2 ^ 30 - 1024 ≤ c
  high : c ≤ 2 ^ 30 + 1024

theorem Tracks.integNew {c : ℤ} {s : TimingRecovery} (h : Tracks c s) (i : TrInput) :
    (s.integNew i).toInt = c + s.gardner i / 256 := by
  have hb := s.gardner_bounds i
  have hlow := h.low
  have hhigh := h.high
  unfold TimingRecovery.integNew
  rw [toInt_add] <;> rw [kiDelta_toInt, h.integ]
  exact ⟨by omega, by omega⟩

theorem nominal_kpTerm (s : TimingRecovery) (i : TrInput) :
    (NCO_NOMINAL_S + s.kpTerm i).toInt = 2 ^ 30 + s.gardner i / 16 := by
  have hb := s.gardner_bounds i
  have hnom : NCO_NOMINAL_S.toInt = 2 ^ 30 := by decide
  rw [toInt_add] <;> rw [kpTerm_toInt, hnom]
  exact ⟨by omega, by omega⟩

theorem Tracks.ncoStepNew {c : ℤ} {s : TimingRecovery} (h : Tracks c s) {i : TrInput}
    (hlt : s.gardner i / 16 + (c + s.gardner i / 256) < 2 ^ 30) :
    (s.ncoStepNew i).toInt = 2 ^ 30 + (s.gardner i / 16 + (c + s.gardner i / 256)) := by
  have hb := s.gardner_bounds i
  have hlow := h.low
  unfold TimingRecovery.ncoStepNew
  rw [toInt_add] <;> rw [nominal_kpTerm, h.integNew]
  · ring
  · exact ⟨by omega, by omega⟩

/-- A correction too large turns the step negative. -/
theorem Tracks.ncoStepNew_wraps {c : ℤ} {s : TimingRecovery} (h : Tracks c s) {i : TrInput}
    (hge : 2 ^ 30 ≤ s.gardner i / 16 + (c + s.gardner i / 256)) :
    (s.ncoStepNew i).toInt < 0 := by
  have hb := s.gardner_bounds i
  have hhigh := h.high
  have hmod := BitVec.toInt_add (NCO_NOMINAL_S + s.kpTerm i) (s.integNew i)
  rw [nominal_kpTerm, h.integNew, ← Int.sub_bmod_right, Fits.bmod] at hmod
  · unfold TimingRecovery.ncoStepNew
    rw [hmod]
    push_cast
    omega
  · push_cast
    exact ⟨by omega, by omega⟩

theorem Tracks.inRange_iff {c : ℤ} {s : TimingRecovery} (h : Tracks c s) (i : TrInput) :
    0 < (s.ncoStepNew i).toInt ↔ -2 ^ 30 < s.gardner i / 16 + (c + s.gardner i / 256) ∧
      s.gardner i / 16 + (c + s.gardner i / 256) < 2 ^ 30 := by
  by_cases hlt : s.gardner i / 16 + (c + s.gardner i / 256) < 2 ^ 30
  · rw [h.ncoStepNew hlt]
    omega
  · have hneg := h.ncoStepNew_wraps (not_lt.1 hlt)
    exact ⟨fun hpos => absurd hpos (by omega), fun hin => absurd hin.2 hlt⟩

theorem Tracks.strobe {c : ℤ} {s : TimingRecovery} (h : Tracks c s) {i : TrInput}
    (hovf : s.ncoOvf i = true) (hin : 0 < (s.ncoStepNew i).toInt) :
    Tracks (c + s.gardner i / 256) (s.step i) := by
  have hb := s.gardner_bounds i
  obtain ⟨hlo, hhi⟩ := (h.inRange_iff i).1 hin
  refine ⟨?_, by omega, by omega⟩
  rw [strobe_loopInteg hovf, h.integNew]

theorem bounded_cons {c e : ℤ} {es : List ℤ} : Bounded c (e :: es) ↔
    (-2 ^ 30 < e / 16 + (c + e / 256) ∧ e / 16 + (c + e / 256) < 2 ^ 30) ∧
      Bounded (c + e / 256) es := by
  unfold Bounded
  rw [forall_split_cons]
  simp only [List.map_nil, List.sum_nil, add_zero, List.map_cons, List.sum_cons, add_assoc]

theorem stepInRange_along {c : ℤ} {s : TimingRecovery} (h : Tracks c s) (hs : StepInRange s)
    (is : List TrInput) :
    Along step (fun s i => StepInRange (s.step i)) s is ↔ Bounded c (strobeErrors s is) := by
  induction is generalizing c s with
  | nil => exact ⟨fun _ pre e post heq => by simp [strobeErrors] at heq, fun _ => trivial⟩
  | cons i is ih =>
    rw [Along, strobeErrors]
    by_cases hovf : s.ncoOvf i = true
    · have hstep : StepInRange (s.step i) ↔ 0 < (s.ncoStepNew i).toInt := by
        have hlt := BitVec.toInt_lt (x := s.ncoStepNew i)
        rw [StepInRange, strobe_ncoStep hovf]
        exact ⟨And.left, fun hpos => ⟨hpos, hlt⟩⟩
      rw [if_pos hovf, bounded_cons, hstep, ← h.inRange_iff]
      refine and_congr_right fun hpos => ih (h.strobe hovf hpos) (hstep.2 hpos)
    · have hsame : StepInRange (s.step i) := by
        rw [StepInRange, quiet_ncoStep hovf]
        exact hs
      have htracks : Tracks c (s.step i) := by
        refine ⟨?_, h.low, h.high⟩
        rw [quiet_loopInteg hovf, h.integ]
      rw [if_neg hovf, ← ih htracks hsame]
      exact ⟨And.right, fun hrest => ⟨hsame, hrest⟩⟩

/-! The accumulator. -/

theorem ncoOvf_iff (s : TimingRecovery) (i : TrInput) : s.ncoOvf i = true ↔
    i.sampleValidIn = true ∧ 2 ^ 32 ≤ s.ncoAcc.toNat + s.ncoStep.toNat := by
  have hacc := s.ncoAcc.isLt
  have hstep := s.ncoStep.isLt
  unfold ncoOvf ncoSum
  rw [Bool.and_eq_true, decide_eq_true_eq, BitVec.lt_def, BitVec.toNat_add]
  refine and_congr_right fun _ => ?_
  omega

/-- As long as no strobe comes every sample takes the accumulator one step on. -/
theorem quiet_ncoAcc {s : TimingRecovery} {i : TrInput} (h : ¬s.ncoOvf i = true) :
    (s.step i).ncoAcc.toNat =
      s.ncoAcc.toNat + if i.sampleValidIn = true then s.ncoStep.toNat else 0 := by
  have hacc := s.ncoAcc.isLt
  rw [ncoOvf_iff] at h
  by_cases hv : i.sampleValidIn = true
  · have hlt : s.ncoAcc.toNat + s.ncoStep.toNat < 2 ^ 32 := by
      by_contra hge
      exact h ⟨hv, not_lt.1 hge⟩
    have hnext : (s.step i).ncoAcc = s.ncoSum := if_pos hv
    rw [hnext, if_pos hv, ncoSum, BitVec.toNat_add, Nat.mod_eq_of_lt hlt]
  · have hnext : (s.step i).ncoAcc = s.ncoAcc := if_neg hv
    rw [hnext, if_neg hv, Nat.add_zero]

theorem strobe_ncoAcc {s : TimingRecovery} {i : TrInput} (h : s.ncoOvf i = true) :
    (s.step i).ncoAcc.toNat + 2 ^ 32 = s.ncoAcc.toNat + s.ncoStep.toNat := by
  have hacc := s.ncoAcc.isLt
  have hstep := s.ncoStep.isLt
  obtain ⟨hv, hge⟩ := (ncoOvf_iff s i).1 h
  have hnext : (s.step i).ncoAcc = s.ncoSum := if_pos hv
  rw [hnext, ncoSum, BitVec.toNat_add]
  omega

theorem strobe_comes {s : TimingRecovery} {more : List TrInput}
    (h : 2 ^ 32 ≤ s.ncoAcc.toNat + s.ncoStep.toNat * more.countP (·.sampleValidIn)) :
    ∃ a i b, more = a ++ i :: b ∧ (exec step s a).ncoOvf i = true := by
  induction more generalizing s with
  | nil =>
    have hacc := s.ncoAcc.isLt
    rw [List.countP_nil] at h
    omega
  | cons i more ih =>
    by_cases hovf : s.ncoOvf i = true
    · exact ⟨[], i, more, rfl, hovf⟩
    · have hnext : 2 ^ 32 ≤ (s.step i).ncoAcc.toNat +
          (s.step i).ncoStep.toNat * more.countP (·.sampleValidIn) := by
        rw [quiet_ncoAcc hovf, quiet_ncoStep hovf]
        rw [List.countP_cons, Nat.mul_add] at h
        by_cases hv : i.sampleValidIn = true
        · rw [if_pos hv] at h ⊢
          omega
        · rw [if_neg hv] at h ⊢
          omega
      obtain ⟨a, j, b, rfl, hj⟩ := ih hnext
      exact ⟨i :: a, j, b, rfl, hj⟩

/-- The step of a state in range, as the accumulator adds it. -/
theorem StepInRange.toNat_lt {s : TimingRecovery} (h : StepInRange s) :
    s.ncoStep.toNat < 2 ^ 31 := by
  have hcond := BitVec.toInt_eq_toNat_cond s.ncoStep
  have hpos := h.1
  split at hcond <;> omega

theorem idle_exec (s : TimingRecovery) {mid : List TrInput}
    (h : ∀ k ∈ mid, k.sampleValidIn = false) :
    (exec step s mid).ncoAcc = s.ncoAcc ∧ (exec step s mid).ncoStep = s.ncoStep := by
  induction mid generalizing s with
  | nil => exact ⟨rfl, rfl⟩
  | cons k mid ih =>
    have hk := h k List.mem_cons_self
    have hovf : ¬s.ncoOvf k = true := by
      rw [ncoOvf, hk]
      exact Bool.false_ne_true
    obtain ⟨hacc, hstep⟩ := ih (s.step k) fun j hj => h j (List.mem_cons_of_mem k hj)
    have hkeep : (s.step k).ncoAcc = s.ncoAcc := if_neg (by rw [hk]; exact Bool.false_ne_true)
    exact ⟨hacc.trans hkeep, hstep.trans (quiet_ncoStep hovf)⟩

/-- After a strobe with steps below half of the range the next sample brings none. -/
theorem no_second_strobe {s : TimingRecovery} {i j : TrInput} {mid : List TrInput}
    (hs : StepInRange s) (hs' : StepInRange (s.step i)) (hovf : s.ncoOvf i = true)
    (hmid : ∀ k ∈ mid, k.sampleValidIn = false) :
    (exec step (s.step i) mid).ncoOvf j = false := by
  obtain ⟨hacc, hstep⟩ := idle_exec (s.step i) hmid
  have hlt := hs.toNat_lt
  have hlt' := hs'.toNat_lt
  have hafter := strobe_ncoAcc hovf
  have hbefore := s.ncoAcc.isLt
  rw [← Bool.not_eq_true, ncoOvf_iff, hacc, hstep]
  omega

theorem tracks_reset : Tracks 0 reset := by
  refine ⟨?_, by omega, by omega⟩
  decide

theorem stepInRange_reset : StepInRange reset := ⟨by decide, by decide⟩

theorem sum_bounds {es : List ℤ} (h : ∀ e ∈ es, -16384 ≤ e ∧ e < 16384) :
    -64 * (es.length : ℤ) ≤ (es.map (· / 256)).sum ∧
      (es.map (· / 256)).sum ≤ 64 * (es.length : ℤ) := by
  induction es with
  | nil => simp
  | cons e es ih =>
    have he := h e List.mem_cons_self
    have hes := ih fun f hf => h f (List.mem_cons_of_mem e hf)
    rw [List.map_cons, List.sum_cons, List.length_cons]
    push_cast
    omega

theorem strobeErrors_bounds (s : TimingRecovery) (is : List TrInput) :
    ∀ e ∈ strobeErrors s is, -16384 ≤ e ∧ e < 16384 := by
  induction is generalizing s with
  | nil => exact fun e he => absurd he List.not_mem_nil
  | cons i is ih =>
    rw [strobeErrors]
    split
    · intro e he
      rcases List.mem_cons.1 he with rfl | he
      · exact s.gardner_bounds i
      · exact ih _ e he
    · exact ih _

/-- It takes 2^24 - 16 symbols to get out of range. -/
theorem bounded_of_few_strobes {is : List TrInput}
    (h : (strobeErrors reset is).length < 2 ^ 24 - 16) : Bounded 0 (strobeErrors reset is) := by
  intro pre e post heq
  have hall := strobeErrors_bounds reset is
  rw [heq] at hall h
  rw [List.length_append, List.length_cons] at h
  have hpre := sum_bounds fun f hf => hall f (List.mem_append_left _ hf)
  have he := hall e (List.mem_append_right _ List.mem_cons_self)
  omega

/-! A stream that never changes between strobes and turns around at each of them: every error is
the lowest there is. -/

def adverseInput (s : TimingRecovery) : TrInput :=
  let b := if s.iS0 = 0 then 32767 else s.iS0
  if s.ncoSum < s.ncoAcc then ⟨-b, -b, true⟩ else ⟨b, b, true⟩

def adverse : ℕ → List TrInput
  | 0 => []
  | n + 1 => adverse n ++ [adverseInput (exec step reset (adverse n))]

/-- All samples since the last strobe, its own included, were `b`. The strobe left less than the
nominal step in the accumulator, which tells how many samples there are at least. -/
structure Held (b : BitVec 16) (s : TimingRecovery) : Prop where
  full : b = 32767 ∨ b = -32767
  s0 : s.iS0 = b ∧ s.qS0 = b
  s1 : 2 ^ 30 ≤ s.ncoAcc.toNat → s.iS1 = b ∧ s.qS1 = b
  s2 : 2 ^ 30 + s.ncoStep.toNat ≤ s.ncoAcc.toNat → s.iS2 = b ∧ s.qS2 = b
  s3 : 2 ^ 30 + 2 * s.ncoStep.toNat ≤ s.ncoAcc.toNat → s.iS3 = b ∧ s.qS3 = b

theorem Held.input {b : BitVec 16} {s : TimingRecovery} (h : Held b s) :
    adverseInput s = if s.ncoSum < s.ncoAcc then ⟨-b, -b, true⟩ else ⟨b, b, true⟩ := by
  have hb : s.iS0 ≠ 0 := by
    rw [h.s0.1]
    rcases h.full with rfl | rfl <;> decide
  unfold adverseInput
  rw [if_neg hb, h.s0.1]

theorem Held.input_valid {b : BitVec 16} {s : TimingRecovery} (h : Held b s) :
    (adverseInput s).sampleValidIn = true := by
  rw [h.input]
  split <;> rfl

/-- No strobe: one more sample of the same value. -/
theorem Held.quiet {b : BitVec 16} {s : TimingRecovery} (h : Held b s)
    (hovf : ¬s.ncoOvf (adverseInput s) = true) : Held b (s.step (adverseInput s)) := by
  have hlt : ¬s.ncoSum < s.ncoAcc := by
    intro hlt
    apply hovf
    rw [ncoOvf, h.input_valid, Bool.true_and, decide_eq_true_eq]
    exact hlt
  have hin : adverseInput s = ⟨b, b, true⟩ := by rw [h.input, if_neg hlt]
  have hacc := quiet_ncoAcc hovf
  rw [if_pos h.input_valid] at hacc
  refine ⟨h.full, ?_, ?_, ?_, ?_⟩
  · rw [hin]
    exact ⟨rfl, rfl⟩
  · intro _
    rw [hin]
    exact h.s0
  · rw [quiet_ncoStep hovf, hacc]
    intro hle
    rw [hin]
    exact h.s1 (by omega)
  · rw [quiet_ncoStep hovf, hacc]
    intro hle
    rw [hin]
    exact h.s2 (by omega)

theorem Held.error {b : BitVec 16} {s : TimingRecovery} (h : Held b s)
    (hstep : s.ncoStep.toNat ≤ 2 ^ 30) (hovf : s.ncoOvf (adverseInput s) = true) :
    adverseInput s = ⟨-b, -b, true⟩ ∧ s.gardner (adverseInput s) = -16384 := by
  obtain ⟨-, hge⟩ := (ncoOvf_iff _ _).1 hovf
  have hlt : s.ncoSum < s.ncoAcc := by
    rw [ncoOvf, Bool.and_eq_true, decide_eq_true_eq] at hovf
    exact hovf.2
  have hin : adverseInput s = ⟨-b, -b, true⟩ := by rw [h.input, if_pos hlt]
  obtain ⟨hi1, hq1⟩ := h.s1 (by omega)
  obtain ⟨hi3, hq3⟩ := h.s3 (by omega)
  refine ⟨hin, ?_⟩
  rw [gardner, hin, hi1, hq1, hi3, hq3]
  rcases h.full with rfl | rfl <;> decide

/-- The next strobe: the value turns around. -/
theorem Held.strobe {b : BitVec 16} {s : TimingRecovery} (h : Held b s)
    (hstep : s.ncoStep.toNat ≤ 2 ^ 30) (hovf : s.ncoOvf (adverseInput s) = true) :
    Held (-b) (s.step (adverseInput s)) := by
  have hacc := strobe_ncoAcc hovf
  have hbefore := s.ncoAcc.isLt
  have hfull : -b = 32767 ∨ -b = -32767 := by
    rcases h.full with rfl | rfl <;> decide
  have hin := (h.error hstep hovf).1
  refine ⟨hfull, ?_, fun hle => ?_, fun hle => ?_, fun hle => ?_⟩
  · rw [hin]
    exact ⟨rfl, rfl⟩
  all_goals omega

def adverseStep (s : TimingRecovery) : TimingRecovery := s.step (adverseInput s)

/-- A strobe of the stream takes the integrator 64 down. -/
theorem Held.symbol {b : BitVec 16} {c : ℤ} {s : TimingRecovery} (h : Held b s)
    (ht : Tracks c s) (hpos : 0 < s.ncoStep.toNat) (hstep : s.ncoStep.toNat ≤ 2 ^ 30)
    (hc : c < 2 ^ 30) :
    ∃ n, Held (-b) (adverseStep^[n] s) ∧ (adverseStep^[n] s).loopInteg.toInt = c - 64 ∧
      (adverseStep^[n] s).ncoStep.toInt = 2 ^ 30 - 1024 + (c - 64) := by
  generalize hd : 2 ^ 32 - s.ncoAcc.toNat = d
  induction d using Nat.strong_induction_on generalizing s with
  | _ d ih =>
    by_cases hovf : s.ncoOvf (adverseInput s) = true
    · have herr := (h.error hstep hovf).2
      refine ⟨1, h.strobe hstep hovf, ?_, ?_⟩
      · show (s.step (adverseInput s)).loopInteg.toInt = c - 64
        rw [strobe_loopInteg hovf, ht.integNew, herr]
        omega
      · show (s.step (adverseInput s)).ncoStep.toInt = 2 ^ 30 - 1024 + (c - 64)
        rw [strobe_ncoStep hovf, ht.ncoStepNew, herr]
        · omega
        · rw [herr]
          omega
    · have hacc := quiet_ncoAcc hovf
      rw [if_pos h.input_valid] at hacc
      have hbefore := s.ncoAcc.isLt
      have ht' : Tracks c (s.step (adverseInput s)) := by
        refine ⟨?_, ht.low, ht.high⟩
        rw [quiet_loopInteg hovf, ht.integ]
      obtain ⟨n, hn⟩ := ih _ (by omega) (h.quiet hovf) ht'
        (by rw [quiet_ncoStep hovf]; exact hpos) (by rw [quiet_ncoStep hovf]; exact hstep) rfl
      exact ⟨n + 1, hn⟩

theorem toNat_of_pos {x : BitVec 32} (h : 0 < x.toInt) : (x.toNat : ℤ) = x.toInt := by
  have hcond := BitVec.toInt_eq_toNat_cond x
  have hlt := x.isLt
  split at hcond <;> omega

/-- After the first symbol, which starts from the samples of the reset. -/
theorem adverse_start : Held (-32767) (adverseStep^[4] reset) ∧
    (adverseStep^[4] reset).loopInteg.toInt = -32 ∧
    (adverseStep^[4] reset).ncoStep.toNat = 2 ^ 30 - 544 := by
  refine ⟨⟨Or.inr rfl, by decide, ?_, ?_, ?_⟩, by decide, by decide⟩
  · intro h
    revert h
    decide
  · intro h
    revert h
    decide
  · intro h
    revert h
    decide

theorem adverse_symbols (k : ℕ) (hk : k < 2 ^ 24 - 16) :
    ∃ n b, Held b (adverseStep^[n] reset) ∧
      (adverseStep^[n] reset).loopInteg.toInt = -32 - 64 * (k + 1) ∧
      (adverseStep^[n] reset).ncoStep.toInt = 2 ^ 30 - 1056 - 64 * (k + 1) := by
  induction k with
  | zero =>
    obtain ⟨hheld, hinteg, hstep⟩ := adverse_start
    obtain ⟨n, hn, hinteg', hstep'⟩ := hheld.symbol ⟨hinteg, by norm_num, by norm_num⟩ (by omega)
      (by omega) (by norm_num)
    rw [← Function.iterate_add_apply] at hn hinteg' hstep'
    exact ⟨n + 4, _, hn, by rw [hinteg']; norm_num, by rw [hstep']; norm_num⟩
  | succ k ih =>
    obtain ⟨m, b, hheld, hinteg, hstep⟩ := ih (by omega)
    have hnat := toNat_of_pos (x := (adverseStep^[m] reset).ncoStep) (by omega)
    obtain ⟨n, hn, hinteg', hstep'⟩ := hheld.symbol ⟨hinteg, by omega, by omega⟩ (by omega)
      (by omega) (by omega)
    rw [← Function.iterate_add_apply] at hn hinteg' hstep'
    refine ⟨n + m, _, hn, ?_, ?_⟩
    · rw [hinteg']
      push_cast
      ring
    · rw [hstep']
      push_cast
      ring

theorem adverse_exec (n : ℕ) : exec step reset (adverse n) = adverseStep^[n] reset := by
  induction n with
  | zero => rfl
  | succ n ih =>
    rw [adverse, exec_snoc, ih, Function.iterate_succ_apply']
    rfl

end TimingRecovery
end TetraBs.Phy
