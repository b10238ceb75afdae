import TetraBs.Infra.ByteLink

/-! The unpacker `tetra_dma_frame_unpacker` (with its default `LEN_WIDTH = 16`): magic and length,
then the payload one byte at a time. One step is one rising clock edge. -/
namespace TetraBs.Infra.Unpacker
open TetraBs.Bits TetraBs.Run TetraBs.Stream TetraBs.Serial

inductive FsmState where
  | hdrM | hdrL | pay | drain | emit0 | emit1 | emit2 | emit3
deriving DecidableEq

structure State where
  state : FsmState
  curWord : Word
  curKeep : BitVec 4
  curIsLast : Bool
  curMagicSel : BitVec 2
  declaredTotalLen : BitVec 24
  runningByteCount : BitVec 24
  mByteData : Byte
  mByteValid : Bool
  mFrameStartPulse : Bool
  mMagicSel : BitVec 2
  mFrameEndPulse : Bool
  mFrameErrorPulse : Bool
  dropCount : BitVec 16

def reset : State := ⟨.hdrM, 0, 0, false, 0, 0, 0, 0, false, false, 0, false, false, 0⟩

def sAxisTready (s : State) : Bool :=
  match s.state with
  | .emit0 | .emit1 | .emit2 | .emit3 => false
  | _ => true

def decodeMagic (w : Word) : Option (BitVec 2) :=
  if w = MAGIC_TMAS then some 0
  else if w = MAGIC_TMAR then some 1
  else if w = MAGIC_TMDC then some 2
  else none

def State.clearPulses (s : State) : State :=
  { s with mFrameStartPulse := false, mFrameEndPulse := false, mFrameErrorPulse := false }

def State.fail (s : State) : State :=
  { s with dropCount := saturatingInc s.dropCount, mFrameErrorPulse := true }

/-- The end of a frame whose length is right or not. -/
def State.verify (s : State) (lengthOk : Bool) : State :=
  if lengthOk then { s with mFrameEndPulse := true } else s.fail

def State.drive (s : State) (b : Byte) : State := { s with mByteData := b, mByteValid := true }

def State.release (s : State) : State := { s with mByteValid := false }

def State.count (s : State) : State := { s with runningByteCount := s.runningByteCount + 1 }

/-- The first three lanes of a word: a lane is skipped if its `tkeep` bit is 0. -/
def State.emit (s : State) (ready : Bool) (lane : Nat) (next : FsmState) : State :=
  if s.curKeep.getLsbD lane then
    if ready then { (s.drive (laneByte s.curWord lane)).count with state := next }
    else s.drive (laneByte s.curWord lane)
  else { s.release with state := next }

/-- What follows the last lane of a word. -/
def State.wordDone (s : State) (lengthOk : Bool) : State :=
  if s.curIsLast then { s.verify lengthOk with state := .hdrM } else { s with state := .pay }

/-- The last lane. The sum in its comparison is 32 bits wide. -/
def State.emitLast (s : State) (ready : Bool) : State :=
  if s.curKeep.getLsbD 0 then
    if ready then
      (s.drive (laneByte s.curWord 0)).count.wordDone
        (s.runningByteCount.setWidth 32 + 1#32 = s.declaredTotalLen.setWidth 32)
    else s.drive (laneByte s.curWord 0)
  else s.release.wordDone (s.runningByteCount = s.declaredTotalLen)

def step (s : State) (i : SlaveInput) : State :=
  let fire := i.tvalid && sAxisTready s
  let s := s.clearPulses
  match s.state with
  | .hdrM =>
    if fire then
      match decodeMagic i.tdata with
      | some sel =>
        let s := { s.release with curMagicSel := sel, runningByteCount := 4 }
        if i.tlast then s.fail else { s with state := .hdrL }
      | none =>
        let s := s.release.fail
        if i.tlast then s else { s with state := .drain }
    else s.release
  | .hdrL =>
    if fire then
      let s := { s.release with
        declaredTotalLen := i.tdata.extractLsb' 0 24
        runningByteCount := s.runningByteCount + 4
        mFrameStartPulse := true
        mMagicSel := s.curMagicSel }
      if i.tlast then { s.verify (i.tdata.extractLsb' 0 24 = 8) with state := .hdrM }
      else { s with state := .pay }
    else s.release
  | .pay =>
    if fire then
      { s.release with
        curWord := i.tdata, curKeep := i.tkeep, curIsLast := i.tlast, state := .emit0 }
    else s.release
  | .emit0 => s.emit i.byteReady 3 .emit1
  | .emit1 => s.emit i.byteReady 2 .emit2
  | .emit2 => s.emit i.byteReady 1 .emit3
  | .emit3 => s.emitLast i.byteReady
  | .drain => if fire && i.tlast then { s.release with state := .hdrM } else s.release

/-! The unpacker as a serializer of bytes. -/

/-- The lane that the FSM state emits. -/
def lane? (s : State) : Option Nat :=
  match s.state with
  | .emit0 => some 3
  | .emit1 => some 2
  | .emit2 => some 1
  | .emit3 => some 0
  | _ => none

def queue (s : State) : List Byte :=
  match lane? s with
  | some l => if s.curKeep.getLsbD l then [laneByte s.curWord l] else []
  | none => []

def first (s : State) : Bool :=
  match lane? s with
  | some l => l = 3 || !s.curKeep.getLsbD (l + 1)
  | none => true

def pulses (s : State) : List (Signal Byte) :=
  (if s.mFrameEndPulse then [.done] else []) ++ (if s.mFrameErrorPulse then [.error] else [])

def serializer : Serializer State SlaveInput Beat Byte where
  step := step
  offered := fun s => if s.mByteValid then some s.mByteData else none
  ready := SlaveInput.byteReady
  queue := queue
  first := first
  refill := fun s i => if queue s = [] ∨ i.byteReady then queue (step s i) else []
  taken := fun s i => if i.tvalid && sAxisTready s then some i.beat else none
  pulses := pulses

/-- In front of the length word four bytes are accounted for, and no pulse is shown while a lane
is emitted. -/
def Inv (s : State) : Prop :=
  match s.state with
  | .hdrL => s.runningByteCount = 4
  | .emit0 | .emit1 | .emit2 | .emit3 => pulses s = []
  | _ => True

/-! What the parts of an edge do. -/

theorem wordDone_byte (s : State) (ok : Bool) :
    (s.wordDone ok).mByteValid = s.mByteValid ∧ (s.wordDone ok).mByteData = s.mByteData := by
  simp only [State.wordDone, State.verify, State.fail]
  split_ifs <;> simp

theorem wordDone_lane (s : State) (ok : Bool) : lane? (s.wordDone ok) = none := by
  simp only [State.wordDone, lane?]
  split_ifs <;> simp

theorem wordDone_inv (s : State) (ok : Bool) : Inv (s.wordDone ok) := by
  simp only [State.wordDone, Inv]
  split_ifs <;> simp

theorem inv_of_lane {s : State} {l : Nat} (h : lane? s = some l) : Inv s ↔ pulses s = [] := by
  cases hst : s.state <;> simp [lane?, hst] at h <;> simp [Inv, hst]

/-- The state that emits the lane. -/
def laneState : Nat → FsmState
  | 0 => .emit3
  | 1 => .emit2
  | 2 => .emit1
  | _ => .emit0

theorem lane_lt {s : State} {l : Nat} (h : lane? s = some l) : l < 4 := by
  simp only [lane?] at h
  split at h <;> simp_all
  all_goals omega

theorem lane_of_laneState {s : State} {l : Nat} (hl : l < 4) (h : s.state = laneState l) :
    lane? s = some l := by
  match l with
  | 0 | 1 | 2 | 3 => simp [lane?, h, laneState]

theorem step_emit {s : State} {l : Nat} (h : lane? s = some (l + 1)) (i : SlaveInput) :
    step s i = s.clearPulses.emit i.byteReady (l + 1) (laneState l) := by
  cases hst : s.state <;> simp only [lane?, hst, Option.some.injEq] at h <;> simp at h <;>
    subst h <;> simp [step, hst, State.clearPulses, laneState]

theorem step_emitLast {s : State} (h : lane? s = some 0) (i : SlaveInput) :
    step s i = s.clearPulses.emitLast i.byteReady := by
  cases hst : s.state <;> simp [lane?, hst] at h
  simp [step, hst, State.clearPulses]

theorem no_lane_valid {s : State} (h : lane? s = none) (i : SlaveInput) :
    (step s i).mByteValid = false := by
  cases hst : s.state with
  | emit0 | emit1 | emit2 | emit3 => simp [lane?, hst] at h
  | hdrM =>
    cases hd : decodeMagic i.tdata <;>
      simp only [step, hst, hd, State.clearPulses, State.release, State.fail] <;> split_ifs <;> rfl
  | hdrL =>
    simp only [step, hst, State.clearPulses, State.release, State.verify, State.fail]
    split_ifs <;> rfl
  | pay | drain =>
    simp only [step, hst, State.clearPulses, State.release]
    split_ifs <;> rfl

/-- A word of lanes starts with its first lane and without pulses. -/
theorem no_lane_next {s : State} (h : lane? s = none) {i : SlaveInput} {l : Nat}
    (hl : lane? (step s i) = some l) : l = 3 ∧ pulses (step s i) = [] := by
  cases hst : s.state with
  | emit0 | emit1 | emit2 | emit3 => simp [lane?, hst] at h
  | hdrM =>
    cases hd : decodeMagic i.tdata <;>
      simp only [step, hst, hd, State.clearPulses, State.release, State.fail] at hl <;>
      split_ifs at hl <;> simp [lane?] at hl
  | hdrL =>
    simp only [step, hst, State.clearPulses, State.release, State.verify, State.fail] at hl
    split_ifs at hl <;> simp [lane?] at hl
  | pay =>
    simp only [step, hst, State.clearPulses, State.release] at hl ⊢
    split_ifs at hl ⊢ <;> simp [lane?] at hl
    exact ⟨hl.symm, rfl⟩
  | drain =>
    simp only [step, hst, State.clearPulses, State.release] at hl
    split_ifs at hl <;> simp [lane?] at hl

/-- A skipped lane clears the register. -/
theorem skip_lane {s : State} {l : Nat} (h : lane? s = some (l + 1))
    (ha : s.curKeep.getLsbD (l + 1) = false) (i : SlaveInput) :
    step s i = { s.clearPulses.release with state := laneState l } := by
  have hact : s.clearPulses.curKeep.getLsbD (l + 1) = false := ha
  rw [step_emit h, State.emit, hact, if_neg Bool.false_ne_true]

theorem skip_last {s : State} (h : lane? s = some 0) (ha : s.curKeep.getLsbD 0 = false)
    (i : SlaveInput) : step s i =
      s.clearPulses.release.wordDone (s.runningByteCount = s.declaredTotalLen) := by
  have hact : s.clearPulses.curKeep.getLsbD 0 = false := ha
  rw [step_emitLast h, State.emitLast, hact, if_neg Bool.false_ne_true]
  rfl

/-- A lane is loaded and counted. -/
theorem load_lane {s : State} {l : Nat} (h : lane? s = some (l + 1))
    (ha : s.curKeep.getLsbD (l + 1) = true) {i : SlaveInput} (hr : i.byteReady = true) :
    step s i = { (s.clearPulses.drive (laneByte s.curWord (l + 1))).count with
      state := laneState l } := by
  have hact : s.clearPulses.curKeep.getLsbD (l + 1) = true := ha
  rw [step_emit h, State.emit, hact, hr, if_pos rfl, if_pos rfl]
  rfl

theorem load_last {s : State} (h : lane? s = some 0) (ha : s.curKeep.getLsbD 0 = true)
    {i : SlaveInput} (hr : i.byteReady = true) :
    step s i = (s.clearPulses.drive (laneByte s.curWord 0)).count.wordDone
      (s.runningByteCount.setWidth 32 + 1#32 = s.declaredTotalLen.setWidth 32) := by
  have hact : s.clearPulses.curKeep.getLsbD 0 = true := ha
  rw [step_emitLast h, State.emitLast, hact, hr, if_pos rfl, if_pos rfl]
  rfl

/-- A stalled lane is loaded and stays. -/
theorem wait_lane {s : State} {l : Nat} (h : lane? s = some l)
    (ha : s.curKeep.getLsbD l = true) {i : SlaveInput} (hr : i.byteReady = false) :
    step s i = s.clearPulses.drive (laneByte s.curWord l) := by
  have hact : s.clearPulses.curKeep.getLsbD l = true := ha
  cases l with
  | zero =>
    rw [step_emitLast h, State.emitLast, hact, hr, if_pos rfl, if_neg Bool.false_ne_true]
    rfl
  | succ l =>
    rw [step_emit h, State.emit, hact, hr, if_pos rfl, if_neg Bool.false_ne_true]
    rfl

theorem no_lane_inv {s : State} (h : lane? s = none) (hi : Inv s) {i : SlaveInput}
    (hl : (step s i).state = .hdrL) : (step s i).runningByteCount = 4 := by
  cases hst : s.state with
  | emit0 | emit1 | emit2 | emit3 => simp [lane?, hst] at h
  | hdrM =>
    cases hd : decodeMagic i.tdata <;>
      simp only [step, hst, hd, State.clearPulses, State.release, State.fail] at hl ⊢ <;>
      split_ifs at hl ⊢ <;> simp at hl
    rfl
  | hdrL =>
    simp only [Inv, hst] at hi
    simp only [step, hst, State.clearPulses, State.release, State.verify, State.fail] at hl ⊢
    split_ifs at hl ⊢
    simp [hi]
  | pay | drain =>
    simp only [step, hst, State.clearPulses, State.release] at hl
    split_ifs at hl

theorem inv_step (s : State) (i : SlaveInput) (hi : Inv s) : Inv (step s i) := by
  cases h : lane? s with
  | none =>
    cases h' : lane? (step s i) with
    | none =>
      cases hst : (step s i).state with
      | hdrL => simpa [Inv, hst] using no_lane_inv h hi hst
      | emit0 | emit1 | emit2 | emit3 => simp [lane?, hst] at h'
      | _ => simp [Inv, hst]
    | some l => exact (inv_of_lane h').2 (no_lane_next h h').2
  | some l =>
    cases ha : s.curKeep.getLsbD l with
    | false =>
      cases l with
      | zero =>
        rw [skip_last h ha]
        exact wordDone_inv _ _
      | succ l =>
        have hl := lane_lt h
        rw [skip_lane h ha]
        exact (inv_of_lane (lane_of_laneState (Nat.lt_of_succ_lt hl) rfl)).2 rfl
    | true =>
      cases hr : i.byteReady with
      | false =>
        rw [wait_lane h ha hr]
        exact (inv_of_lane (s := s.clearPulses.drive _) h).2 rfl
      | true =>
        cases l with
        | zero =>
          rw [load_last h ha hr]
          exact wordDone_inv _ _
        | succ l =>
          have hl := lane_lt h
          rw [load_lane h ha hr]
          exact (inv_of_lane (lane_of_laneState (Nat.lt_of_succ_lt hl) rfl)).2 rfl

def lanes : Lanes State := ⟨lane?, fun s l => s.curKeep.getLsbD l, State.curWord⟩

theorem first_below {s : State} {l : Nat} (h : lane? s = some l) (hl : l < 3) :
    first s = !s.curKeep.getLsbD (l + 1) := by
  have hne : l ≠ 3 := Nat.ne_of_lt hl
  rw [first, h]
  simp [hne]

/-- After a skipped lane the next byte is a first one. -/
theorem first_skipped {s : State} {l : Nat} (h : lane? s = some (l + 1))
    (ha : s.curKeep.getLsbD (l + 1) = false) (i : SlaveInput) :
    first (step s i) = true := by
  have hl := lane_lt h
  rw [skip_lane h ha]
  rw [first_below (lane_of_laneState (Nat.lt_of_succ_lt hl) rfl) (Nat.lt_of_succ_lt_succ hl)]
  exact congrArg not ha

theorem first_loaded {s : State} {l : Nat} (h : lane? s = some (l + 1))
    (ha : s.curKeep.getLsbD (l + 1) = true) {i : SlaveInput} (hr : i.byteReady = true) :
    first (step s i) = false := by
  have hl := lane_lt h
  rw [load_lane h ha hr]
  rw [first_below (lane_of_laneState (Nat.lt_of_succ_lt hl) rfl) (Nat.lt_of_succ_lt_succ hl)]
  exact congrArg not ha

theorem feeds : lanes.Feeds serializer Inv where
  ready_eq _ := rfl
  queue_eq _ := rfl
  refill_eq _ _ := rfl
  skip {s} i _ hq := by
    replace hq : lanes.queue s = [] := hq
    cases h : lane? s with
    | none =>
      refine ⟨by simp [serializer, no_lane_valid h i], fun _ => ?_⟩
      change first (step s i) = true
      cases h' : lane? (step s i) with
      | none => simp [first, h']
      | some l => simp [first, h', (no_lane_next h h').1]
    | some l =>
      have ha : s.curKeep.getLsbD l = false := lanes.skipped_of_queue h hq
      cases l with
      | zero =>
        rw [show serializer.step s i = _ from skip_last h ha i]
        refine ⟨by simp [serializer, wordDone_byte, State.release], fun hne => ?_⟩
        exact absurd (lanes.queue_no_lane (wordDone_lane _ _)) hne
      | succ l =>
        refine ⟨?_, fun _ => first_skipped h ha i⟩
        rw [show serializer.step s i = _ from skip_lane h ha i]
        rfl
  load {s l i} h ha hr := by
    cases l with
    | zero =>
      rw [show serializer.step s i = _ from load_last h ha hr]
      refine ⟨by simp [serializer, wordDone_byte, State.count, State.drive, lanes], fun hne => ?_⟩
      exact absurd (lanes.queue_no_lane (wordDone_lane _ _)) hne
    | succ l =>
      refine ⟨?_, fun _ => first_loaded h ha hr⟩
      rw [show serializer.step s i = _ from load_lane h ha hr]
      rfl
  wait {s l i} h ha hr := by
    rw [show serializer.step s i = _ from wait_lane h ha hr]
    exact ⟨rfl, rfl, rfl⟩
  quiet hi h := (inv_of_lane h).1 hi

end TetraBs.Infra.Unpacker
