import TetraBs.Lib.Cordic
import TetraBs.Lib.Requests
import TetraBs.Lib.Signed
import TetraBs.Phy.UlSyncDetect

/-! `tetra_pi4dqpsk_demod`: the phase of each sample by 16 micro-rotations, one a cycle, and from
the difference of two phases a dibit. One step is one rising clock edge. -/
namespace TetraBs.Phy
open TetraBs.Cordic TetraBs.Pacing TetraBs.Requests TetraBs.Run TetraBs.Serial TetraBs.Signed

structure Pi4Input where
  iIn : BitVec 16
  qIn : BitVec 16
  sampleValid : Bool
deriving DecidableEq

inductive Pi4State where
  | idle | init | iter | decide
deriving DecidableEq

structure Pi4dqpskDemod where
  state : Pi4State := .idle
  iterCnt : BitVec 4 := 0
  cordicX : BitVec 18 := 0
  cordicY : BitVec 18 := 0
  cordicZ : BitVec 16 := 0
  phasePrev : BitVec 16 := 0
  phaseLocked : Bool := false
  dibitOut : BitVec 2 := 0
  dibitValid : Bool := false
  phaseErrorReg : BitVec 16 := 0
deriving DecidableEq

/-- `atan(2^-i)`, where 32768 is a half turn. -/
def atanTable : List (BitVec 16) :=
  [8192, 4836, 2556, 1297, 651, 326, 163, 81, 41, 20, 10, 5, 3, 1, 1]

def atanVal (i : ℕ) : BitVec 16 := atanTable.getD i 0

namespace Pi4Input

def iExt (i : Pi4Input) : BitVec 18 := i.iIn.signExtend 18
def qExt (i : Pi4Input) : BitVec 18 := i.qIn.signExtend 18

/-! The quadrant correction. -/

def xInit (i : Pi4Input) : BitVec 18 :=
  if i.iIn.msb then if i.qIn.msb then -i.qExt else i.qExt else i.iExt

def yInit (i : Pi4Input) : BitVec 18 :=
  if i.iIn.msb then if i.qIn.msb then i.iExt else -i.iExt else i.qExt

def zInit (i : Pi4Input) : BitVec 16 :=
  if i.iIn.msb then if i.qIn.msb then -16384 else 16384 else 0

end Pi4Input

namespace Pi4dqpskDemod

def reset : Pi4dqpskDemod := {}

def cordicD (s : Pi4dqpskDemod) : Bool := !s.cordicY.msb

def yShr (s : Pi4dqpskDemod) : BitVec 18 := s.cordicY.sshiftRight s.iterCnt.toNat
def xShr (s : Pi4dqpskDemod) : BitVec 18 := s.cordicX.sshiftRight s.iterCnt.toNat

def xNext (s : Pi4dqpskDemod) : BitVec 18 :=
  if s.cordicD then s.cordicX + s.yShr else s.cordicX - s.yShr

def yNext (s : Pi4dqpskDemod) : BitVec 18 :=
  if s.cordicD then s.cordicY - s.xShr else s.cordicY + s.xShr

def zNext (s : Pi4dqpskDemod) : BitVec 16 :=
  if s.cordicD then s.cordicZ + atanVal s.iterCnt.toNat else s.cordicZ - atanVal s.iterCnt.toNat

def deltaPhase (s : Pi4dqpskDemod) : BitVec 16 := s.cordicZ - s.phasePrev

/-- The dibit of a phase difference. -/
def dibitNext (delta : BitVec 16) : BitVec 2 :=
  if BitVec.sle 16384 delta then 1
  else if !delta.msb then 0
  else if delta.slt (-16384) then 3
  else 2

def idealDelta (d : BitVec 2) : BitVec 16 :=
  match d.toNat with
  | 0 => 8192
  | 1 => 24576
  | 2 => -8192
  | _ => -24576

def nextState (s : Pi4dqpskDemod) (i : Pi4Input) : Pi4State :=
  match s.state with
  | .idle => if i.sampleValid then .init else .idle
  | .init => .iter
  | .iter => if s.iterCnt = 15 then .decide else .iter
  | .decide => .idle

def step (s : Pi4dqpskDemod) (i : Pi4Input) : Pi4dqpskDemod where
  state := s.nextState i
  iterCnt := if s.state = .iter then s.iterCnt + 1 else 0
  cordicX := match s.state with | .init => i.xInit | .iter => s.xNext | _ => 0
  cordicY := match s.state with | .init => i.yInit | .iter => s.yNext | _ => 0
  cordicZ := match s.state with | .init => i.zInit | .iter => s.zNext | _ => 0
  phasePrev := if s.state = .decide then s.cordicZ else s.phasePrev
  phaseLocked := if s.state = .decide then true else s.phaseLocked
  dibitOut := if s.state = .decide then dibitNext s.deltaPhase else s.dibitOut
  dibitValid := s.state = .decide && s.phaseLocked
  phaseErrorReg :=
    if s.state = .decide then s.deltaPhase - idealDelta (dibitNext s.deltaPhase)
    else s.phaseErrorReg

/-- What `dibit_valid` presents after the edge. -/
def presented : Reader Pi4dqpskDemod Pi4Input (BitVec 2) :=
  ⟨step, fun s i => if (step s i).dibitValid then [(step s i).dibitOut] else []⟩

end Pi4dqpskDemod

/-! The registers as integers. -/

namespace Pi4Input

/-- The corrected sample. -/
def start (i : Pi4Input) : ℤ × ℤ := (i.xInit.toInt, i.yInit.toInt)

theorem ext_toInt (x : BitVec 16) : (x.signExtend 18).toInt = x.toInt :=
  toInt_signExtend x (by decide)

theorem neg_toInt (x : BitVec 16) : (-x.signExtend 18).toInt = -x.toInt := by
  have hle := abs_le.1 (abs_toInt_le x)
  rw [BitVec.toInt_neg, ext_toInt]
  norm_num at hle
  exact Int.bmod_eq_of_le_mul_two (by norm_num; omega) (by norm_num; omega)

/-- The sample, turned by a quarter where it has to be. -/
def quarterTurned (i : Pi4Input) : ℤ × ℤ :=
  if i.iIn.toInt < 0 then if i.qIn.toInt < 0 then (-i.qIn.toInt, i.iIn.toInt)
    else (i.qIn.toInt, -i.iIn.toInt)
  else (i.iIn.toInt, i.qIn.toInt)

theorem start_eq (i : Pi4Input) : i.start = i.quarterTurned := by
  rw [start, xInit, yInit, quarterTurned, BitVec.msb_eq_toInt, BitVec.msb_eq_toInt]
  by_cases hi : i.iIn.toInt < 0
  · by_cases hq : i.qIn.toInt < 0
    · simp only [hi, hq, decide_true, if_true, qExt, iExt, neg_toInt, ext_toInt]
    · simp only [hi, hq, decide_true, decide_false, if_true, if_false, qExt, iExt, neg_toInt,
        ext_toInt, Bool.false_eq_true]
  · simp only [hi, decide_false, if_false, qExt, iExt, ext_toInt, Bool.false_eq_true]

theorem start_nonneg (i : Pi4Input) : 0 ≤ i.start.1 := by
  rw [start_eq, quarterTurned]
  split
  · split
    · show 0 ≤ -i.qIn.toInt
      omega
    · show 0 ≤ i.qIn.toInt
      omega
  · show 0 ≤ i.iIn.toInt
    omega

theorem start_le (i : Pi4Input) : i.start.1 ≤ 32768 ∧ |i.start.2| ≤ 32768 := by
  have hi := abs_toInt_le i.iIn
  have hq := abs_toInt_le i.qIn
  have hi' := abs_le.1 hi
  have hq' := abs_le.1 hq
  norm_num at hi hq hi' hq'
  rw [start_eq, quarterTurned]
  split
  · split
    · exact ⟨by show -i.qIn.toInt ≤ 32768; omega, hi⟩
    · exact ⟨by show i.qIn.toInt ≤ 32768; omega, (abs_neg _).trans_le hi⟩
  · exact ⟨by show i.iIn.toInt ≤ 32768; omega, hq⟩

theorem reach_lt : ∀ n ≤ 16, reach 32768 n < 130000 := by decide

/-- The rotated sample stays within the registers. -/
theorem rotated_fits (i : Pi4Input) {n : ℕ} (hn : n ≤ 16) :
    Signed.Fits 18 (rotated i.start n).1 ∧ Signed.Fits 18 (rotated i.start n).2 := by
  have hx := i.start_nonneg
  have hle := i.start_le
  have hreach := rotated_le_reach hx hle.1 hle.2 n
  have hlow := le_rotated i.start n
  have hmax := reach_lt n hn
  have hy : |(rotated i.start n).2| ≤ 130020 := by
    cases n with
    | zero => exact hle.2.trans (by norm_num)
    | succ n =>
      have hres := abs_rotated_le i.start hx n
      have hdiv : (rotated i.start (n + 1)).1 / 2 ^ n ≤ (rotated i.start (n + 1)).1 :=
        Int.ediv_le_self _ (hx.trans hlow)
      omega
  have hy' := abs_le.1 hy
  exact ⟨⟨by norm_num; omega, by norm_num; omega⟩, ⟨by norm_num; omega, by norm_num; omega⟩⟩

/-- The phase that the 16 steps find. -/
def phase (i : Pi4Input) : BitVec 16 := i.zInit + turned atanVal i.start 16

end Pi4Input

namespace Pi4dqpskDemod

/-- `n` steps are done for the sample `i`. -/
structure Rotating (i : Pi4Input) (n : ℕ) (s : Pi4dqpskDemod) : Prop where
  xy : (s.cordicX.toInt, s.cordicY.toInt) = rotated i.start n
  z : s.cordicZ = i.zInit + turned atanVal i.start n

/-- The next step is exact in both registers. -/
def Exact (s : Pi4dqpskDemod) : Prop :=
  (s.xNext.toInt, s.yNext.toInt) =
    micro s.iterCnt.toNat (s.cordicX.toInt, s.cordicY.toInt)

theorem cordicD_eq (s : Pi4dqpskDemod) : s.cordicD = decide (0 ≤ s.cordicY.toInt) := by
  rw [cordicD, BitVec.msb_eq_toInt, ← decide_not, decide_eq_decide, not_lt]

theorem Rotating.exact {i : Pi4Input} {n : ℕ} {s : Pi4dqpskDemod} (h : Rotating i n s)
    (hn : n < 16) (hcnt : s.iterCnt.toNat = n) : Exact s := by
  obtain ⟨hx, hy⟩ := i.rotated_fits (Nat.succ_le_of_lt hn)
  rw [rotated, ← h.xy, micro] at hx hy
  rw [Exact, hcnt, micro, xNext, yNext, cordicD_eq, yShr, xShr, hcnt]
  rw [side] at hx hy ⊢
  by_cases hside : 0 ≤ s.cordicY.toInt
  · simp only [hside, if_true, one_mul] at hx hy
    simp only [hside, if_true, one_mul, decide_true]
    rw [toInt_add, toInt_sub, toInt_sshiftRight, toInt_sshiftRight]
    · rwa [toInt_sshiftRight]
    · rwa [toInt_sshiftRight]
  · simp only [hside, if_false, neg_mul, one_mul, sub_neg_eq_add, ← sub_eq_add_neg] at hx hy
    simp only [hside, if_false, neg_mul, one_mul, decide_false, Bool.false_eq_true,
      sub_neg_eq_add, ← sub_eq_add_neg]
    rw [toInt_add, toInt_sub, toInt_sshiftRight, toInt_sshiftRight]
    · rwa [toInt_sshiftRight]
    · rwa [toInt_sshiftRight]

theorem Rotating.next {i : Pi4Input} {n : ℕ} {s s' : Pi4dqpskDemod} (h : Rotating i n s)
    (hn : n < 16) (hcnt : s.iterCnt.toNat = n) (hx : s'.cordicX = s.xNext)
    (hy : s'.cordicY = s.yNext) (hz : s'.cordicZ = s.zNext) : Rotating i (n + 1) s' := by
  have hexact : Exact s := h.exact hn hcnt
  have hy0 : (rotated i.start n).2 = s.cordicY.toInt := (congrArg Prod.snd h.xy).symm
  refine ⟨?_, ?_⟩
  · rw [hx, hy, hexact, hcnt, h.xy, rotated]
  · rw [hz, zNext, cordicD_eq, hcnt, h.z, turned, hy0, side]
    by_cases hside : 0 ≤ s.cordicY.toInt
    · simp only [hside, decide_true, if_true, Int.cast_one, one_mul, add_assoc]
    · simp only [hside, decide_false, if_false, Bool.false_eq_true, Int.cast_neg, Int.cast_one,
        neg_mul, one_mul, sub_eq_add_neg, add_assoc]

/-- Wherever the steps are, they are those of some sample. -/
def Sound (s : Pi4dqpskDemod) : Prop :=
  s.state = .iter → ∃ i, Rotating i s.iterCnt.toNat s

theorem Sound.exact {s : Pi4dqpskDemod} (h : Sound s) (hs : s.state = .iter) : Exact s := by
  obtain ⟨i, hi⟩ := h hs
  exact hi.exact s.iterCnt.isLt rfl

theorem rotating_start {s : Pi4dqpskDemod} (hs : s.state = .init) (i : Pi4Input) :
    Rotating i 0 (s.step i) := by
  refine ⟨?_, ?_⟩
  · simp only [step, hs, rotated]
    rfl
  · simp only [step, hs, turned, add_zero]

theorem iterCnt_succ {s : Pi4dqpskDemod} (hs : s.state = .iter) (hlast : s.iterCnt ≠ 15)
    (i : Pi4Input) : (s.step i).iterCnt.toNat = s.iterCnt.toNat + 1 := by
  have hlt := s.iterCnt.isLt
  have hne : s.iterCnt.toNat ≠ 15 := fun h => hlast (BitVec.eq_of_toNat_eq h)
  simp only [step, hs, if_true]
  rw [BitVec.toNat_add]
  exact Nat.mod_eq_of_lt (by show s.iterCnt.toNat + 1 < 16; omega)

theorem Rotating.step {i j : Pi4Input} {s : Pi4dqpskDemod} {n : ℕ} (h : Rotating i n s)
    (hn : n < 16) (hcnt : s.iterCnt.toNat = n) (hs : s.state = .iter) :
    Rotating i (n + 1) (s.step j) :=
  h.next hn hcnt (by simp only [Pi4dqpskDemod.step, hs]) (by simp only [Pi4dqpskDemod.step, hs])
    (by simp only [Pi4dqpskDemod.step, hs])

theorem Sound.step {s : Pi4dqpskDemod} (h : Sound s) (j : Pi4Input) : Sound (s.step j) := by
  intro hnext
  have hstate : s.nextState j = .iter := hnext
  cases hs : s.state with
  | idle =>
    simp only [nextState, hs] at hstate
    split at hstate <;> cases hstate
  | init =>
    have hzero : (s.step j).iterCnt.toNat = 0 := by simp [Pi4dqpskDemod.step, hs]
    rw [hzero]
    exact ⟨j, rotating_start hs j⟩
  | iter =>
    simp only [nextState, hs] at hstate
    have hlast : s.iterCnt ≠ 15 := fun heq => by
      rw [if_pos heq] at hstate
      cases hstate
    obtain ⟨i, hi⟩ := h hs
    rw [iterCnt_succ hs hlast j]
    exact ⟨i, hi.step s.iterCnt.isLt rfl hs⟩
  | decide =>
    simp only [nextState, hs] at hstate
    cases hstate

theorem init_exact {s : Pi4dqpskDemod} (hs : s.state = .init) (i : Pi4Input) :
    ((s.step i).cordicX.toInt, (s.step i).cordicY.toInt) = i.quarterTurned :=
  (rotating_start hs i).xy.trans i.start_eq

/-- Whatever comes in, no step overflows. -/
theorem exact_run (is : List Pi4Input) (hs : (exec step reset is).state = .iter) :
    Exact (exec step reset is) := by
  have hsound : Sound (exec step reset is) :=
    exec_invariant Sound (fun s i h _ => h.step i) (fun h => nomatch h) (along_true step reset is)
  exact hsound.exact hs

/-! A sample. -/

/-- What the registers hold of the sample before. -/
def Remembers (prev : Option (BitVec 16)) (s : Pi4dqpskDemod) : Prop :=
  s.phaseLocked = prev.isSome ∧ ∀ p, prev = some p → s.phasePrev = p

theorem Remembers.step {prev : Option (BitVec 16)} {s : Pi4dqpskDemod} (h : Remembers prev s)
    (hs : s.state ≠ .decide) (j : Pi4Input) : Remembers prev (s.step j) := by
  have hlocked : (s.step j).phaseLocked = s.phaseLocked := if_neg hs
  have hprev : (s.step j).phasePrev = s.phasePrev := if_neg hs
  exact ⟨hlocked.trans h.1, fun p hp => hprev.trans (h.2 p hp)⟩

theorem silent {s : Pi4dqpskDemod} (hs : s.state ≠ .decide) (j : Pi4Input) :
    presented.out s j = [] := by
  have hvalid : (s.step j).dibitValid = false := by
    show (decide (s.state = .decide) && s.phaseLocked) = false
    rw [decide_eq_false hs, Bool.false_and]
  exact if_neg (Bool.eq_false_iff.1 hvalid)

structure Busy (prev : Option (BitVec 16)) (i : Pi4Input) (n : ℕ) (s : Pi4dqpskDemod) : Prop where
  state : s.state = .iter
  cnt : s.iterCnt.toNat = n
  rotating : Rotating i n s
  remembers : Remembers prev s

structure Deciding (prev : Option (BitVec 16)) (i : Pi4Input) (s : Pi4dqpskDemod) : Prop where
  state : s.state = .decide
  phase : s.cordicZ = i.phase
  remembers : Remembers prev s

structure Idle (prev : Option (BitVec 16)) (s : Pi4dqpskDemod) : Prop where
  state : s.state = .idle
  remembers : Remembers prev s

/-- The demodulator seen from its samples: a dibit for each that has one before it. -/
def differential : Reader (Option (BitVec 16)) Pi4Input (BitVec 2) :=
  ⟨fun _ i => some i.phase, fun prev i => prev.toList.map fun p => dibitNext (i.phase - p)⟩

theorem Busy.next {prev : Option (BitVec 16)} {i j : Pi4Input} {n : ℕ} {s : Pi4dqpskDemod}
    (h : Busy prev i n s) (hn : n < 15) : Busy prev i (n + 1) (s.step j) := by
  have hlast : s.iterCnt ≠ 15 := fun heq => by
    have hcnt := h.cnt
    rw [heq] at hcnt
    exact absurd hcnt (Nat.ne_of_gt hn)
  refine ⟨?_, (iterCnt_succ h.state hlast j).trans (by rw [h.cnt]),
    h.rotating.step (by omega) h.cnt h.state,
    h.remembers.step (by rw [h.state]; exact Pi4State.noConfusion) j⟩
  show s.nextState j = .iter
  simp only [nextState, h.state, if_neg hlast]

theorem Busy.last {prev : Option (BitVec 16)} {i j : Pi4Input} {s : Pi4dqpskDemod}
    (h : Busy prev i 15 s) : Deciding prev i (s.step j) := by
  have hlast : s.iterCnt = 15 := BitVec.eq_of_toNat_eq h.cnt
  refine ⟨?_, (h.rotating.step (by decide) h.cnt h.state).z,
    h.remembers.step (by rw [h.state]; exact Pi4State.noConfusion) j⟩
  show s.nextState j = .decide
  simp only [nextState, h.state, if_pos hlast]

theorem Deciding.done {prev : Option (BitVec 16)} {i j : Pi4Input} {s : Pi4dqpskDemod}
    (h : Deciding prev i s) :
    presented.out s j = differential.out prev i ∧ Idle (some i.phase) (s.step j) := by
  have hvalid : (s.step j).dibitValid = prev.isSome := by
    show (decide (s.state = .decide) && s.phaseLocked) = prev.isSome
    rw [decide_eq_true h.state, h.remembers.1, Bool.true_and]
  have hdibit : (s.step j).dibitOut = dibitNext (i.phase - s.phasePrev) := by
    show (if s.state = .decide then dibitNext (s.cordicZ - s.phasePrev) else s.dibitOut) = _
    rw [if_pos h.state, h.phase]
  have hlocked : (s.step j).phaseLocked = true := if_pos h.state
  have hphase : (s.step j).phasePrev = s.cordicZ := if_pos h.state
  refine ⟨?_, ⟨?_, hlocked, fun p hp => ?_⟩⟩
  · show (if (s.step j).dibitValid then [(s.step j).dibitOut] else []) = _
    rw [hvalid, hdibit]
    cases prev with
    | none => rfl
    | some p =>
      rw [h.remembers.2 p rfl]
      rfl
  · show s.nextState j = .idle
    simp only [nextState, h.state]
  · rw [hphase, h.phase]
    exact Option.some.inj hp

/-- The steps from `n` on, and the decision. -/
theorem Busy.pass {prev : Option (BitVec 16)} {i : Pi4Input} {n : ℕ} {s : Pi4dqpskDemod}
    (h : Busy prev i n s) {js : List Pi4Input} (hlen : n + js.length = 17) (hn : n ≤ 15) :
    presented.outputs s js = differential.out prev i ∧
      Idle (some i.phase) (presented.after s js) := by
  induction js generalizing s n with
  | nil =>
    rw [List.length_nil] at hlen
    omega
  | cons j js ih =>
    rw [List.length_cons] at hlen
    have hquiet : presented.out s j = [] :=
      silent (by rw [h.state]; exact Pi4State.noConfusion) j
    rw [Reader.outputs, Reader.after, hquiet, List.nil_append]
    by_cases hlast : n = 15
    · rw [hlast] at h
      obtain ⟨k, rfl⟩ : ∃ k, js = [k] := List.length_eq_one_iff.1 (by omega)
      obtain ⟨hout, hidle⟩ := (h.last (j := j)).done (j := k)
      rw [Reader.outputs, Reader.after, Reader.outputs, List.append_nil]
      exact ⟨hout, hidle⟩
    · exact ih (h.next (by omega)) (by omega) (by omega)

/-! The strobe comes a cycle before the sample is read. -/

/-- Each strobe with the sample of the cycle after it. -/
def lookahead : List Pi4Input → List Pi4Input
  | [] => []
  | [i] => [i]
  | i :: j :: is => ⟨j.iIn, j.qIn, i.sampleValid⟩ :: lookahead (j :: is)

/-- Every sample is there for a second cycle. -/
def Held : List Pi4Input → Prop
  | [] => True
  | [_] => True
  | i :: j :: is => (i.sampleValid = true → j.iIn = i.iIn ∧ j.qIn = i.qIn) ∧ Held (j :: is)

instance Held.decidable : (is : List Pi4Input) → Decidable (Held is)
  | [] => isTrue trivial
  | [_] => isTrue trivial
  | i :: j :: is =>
    have := Held.decidable (j :: is)
    inferInstanceAs (Decidable ((i.sampleValid = true → j.iIn = i.iIn ∧ j.qIn = i.qIn) ∧
      Held (j :: is)))

/-- The demodulator that is told a sample with its strobe. -/
def aligned : Reader (Pi4dqpskDemod × Pi4Input) Pi4Input (BitVec 2) where
  next s j := (s.1.step ⟨s.2.iIn, s.2.qIn, j.sampleValid⟩, j)
  out s j := presented.out s.1 ⟨s.2.iIn, s.2.qIn, j.sampleValid⟩

theorem outputs_eq_aligned (s : Pi4dqpskDemod) (i : Pi4Input) (is : List Pi4Input)
    {d : Pi4Input} (hd : d.iIn = i.iIn ∧ d.qIn = i.qIn) :
    presented.outputs s (i :: is) = aligned.outputs (s, d) (lookahead (i :: is)) := by
  induction is generalizing s i d with
  | nil =>
    show presented.out s i ++ [] = presented.out s ⟨d.iIn, d.qIn, i.sampleValid⟩ ++ []
    rw [hd.1, hd.2]
  | cons j is ih =>
    have hrest := ih (s.step i) j (d := ⟨j.iIn, j.qIn, i.sampleValid⟩) ⟨rfl, rfl⟩
    show presented.out s i ++ presented.outputs (s.step i) (j :: is) =
      presented.out s ⟨d.iIn, d.qIn, i.sampleValid⟩ ++
        aligned.outputs (s.step ⟨d.iIn, d.qIn, i.sampleValid⟩, ⟨j.iIn, j.qIn, i.sampleValid⟩)
          (lookahead (j :: is))
    rw [hd.1, hd.2, hrest]

/-- Its outputs are those of the demodulator on some inputs. -/
theorem exists_inputs (s : Pi4dqpskDemod) (d : Pi4Input) (js : List Pi4Input) :
    ∃ ks : List Pi4Input, ks.length = js.length ∧
      aligned.outputs (s, d) js = presented.outputs s ks ∧
        (aligned.after (s, d) js).1 = presented.after s ks := by
  induction js generalizing s d with
  | nil => exact ⟨[], rfl, rfl, rfl⟩
  | cons j js ih =>
    obtain ⟨ks, hlen, hout, hafter⟩ := ih (s.step ⟨d.iIn, d.qIn, j.sampleValid⟩) j
    refine ⟨⟨d.iIn, d.qIn, j.sampleValid⟩ :: ks, congrArg (· + 1) hlen, ?_, hafter⟩
    exact congrArg (presented.out s ⟨d.iIn, d.qIn, j.sampleValid⟩ ++ ·) hout

theorem lookahead_strobes (is : List Pi4Input) :
    (lookahead is).map Pi4Input.sampleValid = is.map Pi4Input.sampleValid := by
  induction is with
  | nil => rfl
  | cons i is ih =>
    cases is with
    | nil => rfl
    | cons j is => exact congrArg (List.cons i.sampleValid) ih

theorem lookahead_filter {is : List Pi4Input} (h : Held is) :
    (lookahead is).filter (·.sampleValid) = is.filter (·.sampleValid) := by
  induction is with
  | nil => rfl
  | cons i is ih =>
    cases is with
    | nil => rfl
    | cons j is =>
      rw [lookahead]
      cases hv : i.sampleValid with
      | false =>
        rw [List.filter_cons_of_neg Bool.false_ne_true,
          List.filter_cons_of_neg (Bool.eq_false_iff.1 hv)]
        exact ih h.2
      | true =>
        obtain ⟨hi, hq⟩ := h.1 hv
        have hsame : (⟨j.iIn, j.qIn, true⟩ : Pi4Input) = i := by rw [hi, hq, ← hv]
        rw [hsame, List.filter_cons_of_pos hv, List.filter_cons_of_pos hv, ih h.2]

/-- From the cycle that reads the sample on. -/
theorem init_pass {prev : Option (BitVec 16)} {s : Pi4dqpskDemod} (hs : s.state = .init)
    (hr : Remembers prev s) (i : Pi4Input) {js : List Pi4Input} (hlen : js.length = 18) :
    aligned.outputs (s, i) js = differential.out prev i ∧
      Idle (some i.phase) (aligned.after (s, i) js).1 := by
  obtain ⟨j, js, rfl⟩ : ∃ j js', js = j :: js' :=
    List.exists_cons_of_length_eq_add_one (hlen : js.length = 17 + 1)
  have hne : s.state ≠ .decide := by
    rw [hs]
    exact Pi4State.noConfusion
  have hbusy : Busy prev ⟨i.iIn, i.qIn, j.sampleValid⟩ 0
      (s.step ⟨i.iIn, i.qIn, j.sampleValid⟩) := by
    refine ⟨?_, ?_, rotating_start hs _, hr.step hne _⟩
    · show s.nextState _ = .iter
      simp only [nextState, hs]
    · simp [step, hs]
  obtain ⟨ks, hks, hout, hafter⟩ := exists_inputs (s.step ⟨i.iIn, i.qIn, j.sampleValid⟩) j js
  rw [List.length_cons] at hlen
  obtain ⟨hpass, hidle⟩ := hbusy.pass (by omega : 0 + ks.length = 17) (by decide)
  have hquiet : aligned.out (s, i) j = [] := silent hne _
  rw [Reader.outputs, hquiet, List.nil_append]
  refine ⟨hout.trans hpass, ?_⟩
  rw [← hafter] at hidle
  exact hidle

/-- A sample keeps the demodulator busy for 18 cycles. -/
theorem serves : Serves aligned (fun i : Pi4Input => i.sampleValid) 18 differential
    (fun prev s => Idle prev s.1) where
  idle {prev s j} h hj := by
    have hne : s.1.state ≠ .decide := by
      rw [h.state]
      exact Pi4State.noConfusion
    refine ⟨silent hne _, ⟨?_, h.remembers.step hne _⟩⟩
    show s.1.nextState _ = .idle
    simp only [nextState, h.state, hj]
    rfl
  busy {prev s j js} h hj hlen _ := by
    have hne : s.1.state ≠ .decide := by
      rw [h.state]
      exact Pi4State.noConfusion
    have hinit : (s.1.step ⟨s.2.iIn, s.2.qIn, j.sampleValid⟩).state = .init := by
      show s.1.nextState _ = .init
      simp only [nextState, h.state, hj]
      rfl
    have hquiet : aligned.out s j = [] := silent hne _
    rw [Reader.outputs, hquiet, List.nil_append]
    exact init_pass hinit (h.remembers.step hne _) j hlen

/-! Streams of samples. -/

/-- The dibit of two samples. -/
def decision (prev cur : Pi4Input) : BitVec 2 := dibitNext (cur.phase - prev.phase)

theorem differential_outputs (ws : List Pi4Input) :
    differential.outputs none ws = List.zipWith decision ws ws.tail := by
  have hsome : ∀ w ws, differential.outputs (some (Pi4Input.phase w)) ws =
      List.zipWith decision (w :: ws) ws := by
    intro w ws
    induction ws generalizing w with
    | nil => rfl
    | cons v ws ih => exact congrArg (List.cons (decision w v)) (ih v)
  cases ws with
  | nil => rfl
  | cons w ws => exact hsome w ws

/-- The strobes of a stream in two parts. -/
theorem lookahead_append (is js : List Pi4Input) : ∃ us vs, lookahead (is ++ js) = us ++ vs ∧
    us.map Pi4Input.sampleValid = is.map Pi4Input.sampleValid ∧
      vs.map Pi4Input.sampleValid = js.map Pi4Input.sampleValid := by
  have hmap := lookahead_strobes (is ++ js)
  have hlen : (lookahead (is ++ js)).length = is.length + js.length := by
    have hlens := congrArg List.length hmap
    rw [List.length_map, List.length_map, List.length_append] at hlens
    exact hlens
  refine ⟨(lookahead (is ++ js)).take is.length, (lookahead (is ++ js)).drop is.length,
    (List.take_append_drop _ _).symm, ?_, ?_⟩
  · rw [List.map_take, hmap, List.map_append, List.take_left' (List.length_map _)]
  · rw [List.map_drop, hmap, List.map_append, List.drop_left' (List.length_map _)]

/-- Every sample but the first gives the dibit of it and the one before it. -/
theorem outputs_eq {is quiet : List Pi4Input} (hheld : Held (is ++ quiet))
    (his : Apart (fun i : Pi4Input => i.sampleValid) 18 is)
    (hquiet : ∀ i ∈ quiet, i.sampleValid = false) (hlen : 18 ≤ quiet.length) :
    presented.outputs reset (is ++ quiet) =
      List.zipWith decision (is.filter (·.sampleValid)) (is.filter (·.sampleValid)).tail := by
  obtain ⟨i, rest, hcons⟩ : ∃ i rest, is ++ quiet = i :: rest :=
    List.exists_cons_of_length_pos (by rw [List.length_append]; omega)
  obtain ⟨us, vs, hsplit, hus, hvs⟩ := lookahead_append is quiet
  have hstrobes : Apart id 18 (is.map Pi4Input.sampleValid) := apart_map.2 his
  rw [← hus] at hstrobes
  have hapart : Apart (fun i : Pi4Input => id i.sampleValid) 18 us := apart_map.1 hstrobes
  have hvsQuiet : ∀ j ∈ vs, j.sampleValid = false := by
    intro j hj
    have hmem := List.mem_map_of_mem (f := Pi4Input.sampleValid) hj
    rw [hvs, List.mem_map] at hmem
    obtain ⟨k, hk, heq⟩ := hmem
    rw [← heq]
    exact hquiet k hk
  have hvsLen : vs.length = quiet.length := by
    have hlens := congrArg List.length hvs
    rwa [List.length_map, List.length_map] at hlens
  have hnone : ∀ ks : List Pi4Input, (∀ k ∈ ks, k.sampleValid = false) →
      ks.filter (·.sampleValid) = [] :=
    fun ks hks => List.filter_eq_nil_iff.2 fun k hk => Bool.eq_false_iff.1 (hks k hk)
  have hfilter : us.filter (·.sampleValid) = is.filter (·.sampleValid) := by
    have hall := lookahead_filter hheld
    rw [hsplit, List.filter_append, List.filter_append, hnone vs hvsQuiet, hnone quiet hquiet,
      List.append_nil, List.append_nil] at hall
    exact hall
  have hready : Idle none reset := ⟨rfl, rfl, fun p hp => nomatch hp⟩
  obtain ⟨hout, -⟩ := serves.outputs (a := (reset, i)) hready hapart hvsQuiet (by omega)
  rw [hfilter, differential_outputs, ← hsplit, hcons,
    ← outputs_eq_aligned reset i rest ⟨rfl, rfl⟩, ← hcons] at hout
  exact hout

theorem decision_at {ws : List Pi4Input} {k : ℕ} {v₁ v₂ : Pi4Input} (h₁ : ws[k]? = some v₁)
    (h₂ : ws[k + 1]? = some v₂) :
    (List.zipWith decision ws ws.tail)[k]? = some (decision v₁ v₂) := by
  rw [List.getElem?_zipWith, List.getElem?_tail, h₁, h₂]

end Pi4dqpskDemod
end TetraBs.Phy
