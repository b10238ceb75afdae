import TetraBs.Infra.ByteLink

/-! The TMA-SAP transmit framer `tetra_tmasap_tx_framer`: nine header words, then the payload one
byte at a time. One step is one rising clock edge. -/
namespace TetraBs.Infra.TmasapTx
open TetraBs.Bits TetraBs.Run TetraBs.Stream TetraBs.Serial

inductive FsmState where
  | hdrW0 | hdrW1 | hdrW2 | hdrW3 | hdrW4 | hdrW5 | hdrW6 | hdrW7 | hdrW8
  | payLd | payE0 | payE1 | payE2 | payE3 | drain
deriving DecidableEq

structure State where
  state : FsmState
  frameLenQ : BitVec 16
  pduLenBitsQ : BitVec 16
  payBytesTotal : BitVec 10
  payBytesRemaining : BitVec 10
  curWord : Word
  curKeep : BitVec 4
  curIsLast : Bool
  bytesConsumed : BitVec 10
  mbPduLenBits : BitVec 11
  mbSsi : BitVec 24
  mbSsiType : BitVec 3
  mbFlags : BitVec 8
  mbChanAlloc : BitVec 12
  mbEndpointId : Word
  mbNewEndpointId : Word
  mbCssEndpointId : Word
  mbScramblingCode : Word
  mbReqHandle : Word
  mbFrameStartPulse : Bool
  mbByteData : Byte
  mbByteValid : Bool
  mbFrameEndPulse : Bool
  mbFrameErrorPulse : Bool
  framesCnt : BitVec 32
  errCnt : BitVec 16

def reset : State :=
  ⟨.hdrW0, 0, 0, 0, 0, 0, 0, false, 0, 0, 0, 0, 0, 0, 0, 0, 0, 0, 0, false, 0, false, false, false,
    0, 0⟩

/-- New words are accepted in header, payload load and drain only. -/
def sAxisTready (s : State) : Bool :=
  match s.state with
  | .payE0 | .payE1 | .payE2 | .payE3 => false
  | _ => true

def ceilBitsToBytes10 (bits : BitVec 11) : BitVec 10 :=
  (bits.setWidth 14 + 7#14).extractLsb' 3 10

def State.clearPulses (s : State) : State :=
  { s with mbFrameStartPulse := false, mbFrameEndPulse := false, mbFrameErrorPulse := false }

def State.fail (s : State) : State :=
  { s with errCnt := saturatingInc s.errCnt, mbFrameErrorPulse := true }

def State.complete (s : State) : State :=
  { s with framesCnt := saturatingInc s.framesCnt, mbFrameEndPulse := true }

def State.drive (s : State) (b : Byte) : State := { s with mbByteData := b, mbByteValid := true }

def State.release (s : State) : State := { s with mbByteValid := false }

/-- A word of the header that is not its last one. -/
def State.header (s : State) (tlast : Bool) (next : FsmState) : State :=
  if tlast then { s.fail with state := .hdrW0 } else { s with state := next }

def State.drop (s : State) (tlast : Bool) : State :=
  { s.fail with state := if tlast then .hdrW0 else .drain }

/-- The lane is emitted: payload is left and the lane is kept. -/
def State.active (s : State) (lane : Nat) : Bool :=
  s.payBytesRemaining ≠ 0 ∧ s.curKeep.getLsbD lane

/-- The byte was loaded: one less to go. -/
def State.count (s : State) : State :=
  { s with
    payBytesRemaining := s.payBytesRemaining - 1
    bytesConsumed := s.bytesConsumed + 1 }

/-- The first three lanes of a word. -/
def State.emit (s : State) (ready : Bool) (lane : Nat) (next : FsmState) : State :=
  if s.active lane then
    if ready then { (s.drive (laneByte s.curWord lane)).count with state := next }
    else s.drive (laneByte s.curWord lane)
  else { s.release with state := next }

/-- What follows the last lane of a word. -/
def State.wordDone (s : State) : State :=
  if s.payBytesRemaining = 0 then
    if s.curIsLast then { s.complete with state := .hdrW0 } else { s with state := .drain }
  else if s.curIsLast then { s.fail with state := .hdrW0 }
  else { s with state := .payLd }

/-- The last lane: `payBytesRemaining` is 1 before the final byte and 0 after it. -/
def State.emitLast (s : State) (ready : Bool) : State :=
  if s.active 0 then
    if ready then (s.drive (laneByte s.curWord 0)).count.wordDone
    else s.drive (laneByte s.curWord 0)
  else s.release.wordDone

/-- The last header word: length check and start of the payload. -/
def State.headerDone (s : State) (tlast : Bool) : State :=
  let bytes := ceilBitsToBytes10 (s.pduLenBitsQ.extractLsb' 0 11)
  if s.pduLenBitsQ.extractLsb' 11 5 ≠ 0 then s.drop tlast
  else if s.frameLenQ ≠ 36#16 + bytes.setWidth 16 then s.drop tlast
  else
    let s := { s with
      mbPduLenBits := s.pduLenBitsQ.extractLsb' 0 11
      payBytesTotal := bytes
      payBytesRemaining := bytes
      bytesConsumed := 0
      mbFrameStartPulse := true }
    if bytes = 0 then
      if tlast then { s.complete with state := .hdrW0 } else { s.fail with state := .drain }
    else s.header tlast .payLd

def step (s : State) (i : SlaveInput) : State :=
  let fire := i.tvalid && sAxisTready s
  let s := s.clearPulses
  match s.state with
  | .hdrW0 =>
    if fire then
      if i.tdata = MAGIC_TMAS then s.release.header i.tlast .hdrW1 else s.release.drop i.tlast
    else s.release
  | .hdrW1 =>
    if fire then
      { s with
        frameLenQ := i.tdata.extractLsb' 16 16
        pduLenBitsQ := i.tdata.extractLsb' 0 16 }.header i.tlast .hdrW2
    else s
  | .hdrW2 =>
    if fire then { s with mbSsi := i.tdata.extractLsb' 0 24 }.header i.tlast .hdrW3 else s
  | .hdrW3 =>
    if fire then
      { s with
        mbSsiType := i.tdata.extractLsb' 24 3
        mbFlags := i.tdata.extractLsb' 16 8
        mbChanAlloc := i.tdata.extractLsb' 4 12 }.header i.tlast .hdrW4
    else s
  | .hdrW4 => if fire then { s with mbEndpointId := i.tdata }.header i.tlast .hdrW5 else s
  | .hdrW5 => if fire then { s with mbNewEndpointId := i.tdata }.header i.tlast .hdrW6 else s
  | .hdrW6 => if fire then { s with mbCssEndpointId := i.tdata }.header i.tlast .hdrW7 else s
  | .hdrW7 => if fire then { s with mbScramblingCode := i.tdata }.header i.tlast .hdrW8 else s
  | .hdrW8 => if fire then { s with mbReqHandle := i.tdata }.headerDone i.tlast else s
  | .payLd =>
    if fire then
      { s.release with
        curWord := i.tdata, curKeep := i.tkeep, curIsLast := i.tlast, state := .payE0 }
    else s.release
  | .payE0 => s.emit i.byteReady 3 .payE1
  | .payE1 => s.emit i.byteReady 2 .payE2
  | .payE2 => s.emit i.byteReady 1 .payE3
  | .payE3 => s.emitLast i.byteReady
  | .drain => if fire && i.tlast then { s.release with state := .hdrW0 } else s.release

/-! The framer as a serializer of bytes. -/

/-- The lane that the FSM state emits, and the lane before it. -/
def lane? (s : State) : Option Nat :=
  match s.state with
  | .payE0 => some 3
  | .payE1 => some 2
  | .payE2 => some 1
  | .payE3 => some 0
  | _ => none

def queue (s : State) : List Byte :=
  match lane? s with
  | some l => if s.active l then [laneByte s.curWord l] else []
  | none => []

def first (s : State) : Bool :=
  match lane? s with
  | some l => l = 3 || !s.curKeep.getLsbD (l + 1)
  | none => true

def pulses (s : State) : List (Signal Byte) :=
  (if s.mbFrameEndPulse then [.done] else []) ++ (if s.mbFrameErrorPulse then [.error] else [])

def serializer : Serializer State SlaveInput Beat Byte where
  step := step
  offered := fun s => if s.mbByteValid then some s.mbByteData else none
  ready := SlaveInput.byteReady
  queue := queue
  first := first
  refill := fun s i => if queue s = [] ∨ i.byteReady then queue (step s i) else []
  taken := fun s i => if i.tvalid && sAxisTready s then some i.beat else none
  pulses := pulses

/-- Between the first header word and the payload no byte is offered, and no pulse is shown while
a lane is emitted. -/
def Inv (s : State) : Prop :=
  match s.state with
  | .hdrW0 | .payLd | .drain => True
  | .payE0 | .payE1 | .payE2 | .payE3 => pulses s = []
  | _ => s.mbByteValid = false

/-! What the parts of an edge do. -/

theorem header_valid (s : State) (tlast : Bool) (next : FsmState) :
    (s.header tlast next).mbByteValid = s.mbByteValid := by
  rw [State.header]
  split <;> rfl

theorem headerDone_valid (s : State) (tlast : Bool) :
    (s.headerDone tlast).mbByteValid = s.mbByteValid := by
  simp only [State.headerDone, State.drop, State.header, State.complete, State.fail]
  split_ifs <;> rfl

theorem wordDone_byte (s : State) :
    s.wordDone.mbByteValid = s.mbByteValid ∧ s.wordDone.mbByteData = s.mbByteData := by
  simp only [State.wordDone, State.complete, State.fail]
  split_ifs <;> simp

theorem wordDone_lane (s : State) : lane? s.wordDone = none := by
  simp only [State.wordDone, State.complete, State.fail, lane?]
  split_ifs <;> simp_all

/-- The state that emits the lane. -/
def laneState : Nat → FsmState
  | 0 => .payE3
  | 1 => .payE2
  | 2 => .payE1
  | _ => .payE0

theorem lane_lt {s : State} {l : Nat} (h : lane? s = some l) : l < 4 := by
  simp only [lane?] at h
  split at h <;> simp_all
  all_goals omega

theorem lane_of_laneState {s : State} {l : Nat} (hl : l < 4) (h : s.state = laneState l) :
    lane? s = some l := by
  match l with
  | 0 | 1 | 2 | 3 => simp [lane?, h, laneState]

theorem step_emit {s : State} {l : Nat} (h : lane? s = some (l + 1)) (i : SlaveInput) :
    step s i = s.clearPulses.emit i.byteReady (l + 1) (laneState l) := by
  cases hst : s.state <;> simp only [lane?, hst, Option.some.injEq] at h <;> simp at h <;>
    subst h <;> simp [step, hst, State.clearPulses, laneState]

theorem step_emitLast {s : State} (h : lane? s = some 0) (i : SlaveInput) :
    step s i = s.clearPulses.emitLast i.byteReady := by
  cases hst : s.state <;> simp [lane?, hst] at h
  simp [step, hst, State.clearPulses]

theorem inv_of_lane {s : State} {l : Nat} (h : lane? s = some l) : Inv s ↔ pulses s = [] := by
  cases hst : s.state <;> simp [lane?, hst] at h <;> simp [Inv, hst]

theorem inv_of_quiet {s : State} (h : lane? s = none) (hv : s.mbByteValid = false) : Inv s := by
  cases hst : s.state <;> simp [lane?, hst] at h <;> simp [Inv, hst, hv]

theorem wordDone_inv (s : State) : Inv s.wordDone := by
  simp only [State.wordDone, State.complete, State.fail, Inv]
  split_ifs <;> simp

theorem no_lane_valid {s : State} (hi : Inv s) (h : lane? s = none) (i : SlaveInput) :
    (step s i).mbByteValid = false := by
  cases hst : s.state with
  | hdrW0 =>
    simp only [step, hst, State.header, State.drop, State.clearPulses, State.release, State.fail]
    split_ifs <;> rfl
  | hdrW1 | hdrW2 | hdrW3 | hdrW4 | hdrW5 | hdrW6 | hdrW7 =>
    simp only [Inv, hst] at hi
    simp only [step, hst, State.clearPulses]
    split
    · rw [header_valid]
      exact hi
    · exact hi
  | hdrW8 =>
    simp only [Inv, hst] at hi
    simp only [step, hst, State.clearPulses]
    split
    · rw [headerDone_valid]
      exact hi
    · exact hi
  | payLd | drain =>
    simp only [step, hst, State.clearPulses, State.release]
    split <;> rfl
  | payE0 | payE1 | payE2 | payE3 => simp [lane?, hst] at h

/-- A word of lanes starts with its first lane and without pulses. -/
theorem no_lane_next {s : State} (h : lane? s = none) {i : SlaveInput} {l : Nat}
    (hl : lane? (step s i) = some l) : l = 3 ∧ pulses (step s i) = [] := by
  cases hst : s.state with
  | hdrW0 | hdrW1 | hdrW2 | hdrW3 | hdrW4 | hdrW5 | hdrW6 | hdrW7 | hdrW8 =>
    simp only [step, hst, State.header, State.drop, State.headerDone, State.clearPulses,
      State.release, State.fail, State.complete] at hl
    split_ifs at hl <;> simp [lane?] at hl
  | payLd =>
    simp only [step, hst, State.clearPulses, State.release] at hl ⊢
    split_ifs at hl ⊢ <;> simp [lane?] at hl
    exact ⟨hl.symm, rfl⟩
  | drain =>
    simp only [step, hst, State.clearPulses, State.release] at hl
    split_ifs at hl <;> simp [lane?] at hl
  | payE0 | payE1 | payE2 | payE3 => simp [lane?, hst] at h

/-- A skipped lane clears the register. -/
theorem skip_lane {s : State} {l : Nat} (h : lane? s = some (l + 1)) (ha : s.active (l + 1) = false)
    (i : SlaveInput) : step s i = { s.clearPulses.release with state := laneState l } := by
  have hact : s.clearPulses.active (l + 1) = false := ha
  rw [step_emit h, State.emit, hact, if_neg Bool.false_ne_true]

theorem skip_last {s : State} (h : lane? s = some 0) (ha : s.active 0 = false)
    (i : SlaveInput) : step s i = s.clearPulses.release.wordDone := by
  have hact : s.clearPulses.active 0 = false := ha
  rw [step_emitLast h, State.emitLast, hact, if_neg Bool.false_ne_true]

/-- A lane is loaded and counted. -/
theorem load_lane {s : State} {l : Nat} (h : lane? s = some (l + 1)) (ha : s.active (l + 1) = true)
    {i : SlaveInput} (hr : i.byteReady = true) :
    step s i = { (s.clearPulses.drive (laneByte s.curWord (l + 1))).count with
      state := laneState l } := by
  have hact : s.clearPulses.active (l + 1) = true := ha
  rw [step_emit h, State.emit, hact, hr, if_pos rfl, if_pos rfl]
  rfl

theorem load_last {s : State} (h : lane? s = some 0) (ha : s.active 0 = true)
    {i : SlaveInput} (hr : i.byteReady = true) :
    step s i = (s.clearPulses.drive (laneByte s.curWord 0)).count.wordDone := by
  have hact : s.clearPulses.active 0 = true := ha
  rw [step_emitLast h, State.emitLast, hact, hr, if_pos rfl, if_pos rfl]
  rfl

/-- A stalled lane is loaded and stays. -/
theorem wait_lane {s : State} {l : Nat} (h : lane? s = some l) (ha : s.active l = true)
    {i : SlaveInput} (hr : i.byteReady = false) :
    step s i = s.clearPulses.drive (laneByte s.curWord l) := by
  have hact : s.clearPulses.active l = true := ha
  cases l with
  | zero =>
    rw [step_emitLast h, State.emitLast, hact, hr, if_pos rfl, if_neg Bool.false_ne_true]
    rfl
  | succ l =>
    rw [step_emit h, State.emit, hact, hr, if_pos rfl, if_neg Bool.false_ne_true]
    rfl

theorem inv_step (s : State) (i : SlaveInput) (hi : Inv s) : Inv (step s i) := by
  cases h : lane? s with
  | none =>
    cases h' : lane? (step s i) with
    | none => exact inv_of_quiet h' (no_lane_valid hi h i)
    | some l => exact (inv_of_lane h').2 (no_lane_next h h').2
  | some l =>
    cases ha : s.active l with
    | false =>
      cases l with
      | zero =>
        rw [skip_last h ha]
        exact wordDone_inv _
      | succ l =>
        have hl := lane_lt h
        rw [skip_lane h ha]
        exact (inv_of_lane (lane_of_laneState (Nat.lt_of_succ_lt hl) rfl)).2 rfl
    | true =>
      cases hr : i.byteReady with
      | false =>
        rw [wait_lane h ha hr]
        exact (inv_of_lane (s := s.clearPulses.drive _) h).2 rfl
      | true =>
        cases l with
        | zero =>
          rw [load_last h ha hr]
          exact wordDone_inv _
        | succ l =>
          have hl := lane_lt h
          rw [load_lane h ha hr]
          exact (inv_of_lane (lane_of_laneState (Nat.lt_of_succ_lt hl) rfl)).2 rfl

theorem active_iff {s : State} {l : Nat} :
    s.active l = true ↔ s.payBytesRemaining ≠ 0 ∧ s.curKeep.getLsbD l = true := by
  rw [State.active, decide_eq_true_iff]

def lanes : Lanes State := ⟨lane?, State.active, State.curWord⟩

theorem first_below {s : State} {l : Nat} (h : lane? s = some l) (hl : l < 3) :
    first s = !s.curKeep.getLsbD (l + 1) := by
  have hne : l ≠ 3 := Nat.ne_of_lt hl
  rw [first, h]
  simp [hne]

/-- After a skipped lane the next byte is a first one. -/
theorem first_skipped {s : State} {l : Nat} (h : lane? s = some (l + 1))
    (ha : s.active (l + 1) = false) {i : SlaveInput} (hq : queue (step s i) ≠ []) :
    first (step s i) = true := by
  have hl := lane_lt h
  rw [skip_lane h ha] at hq ⊢
  have hl' : lane? { s.clearPulses.release with state := laneState l } = some l :=
    lane_of_laneState (Nat.lt_of_succ_lt hl) rfl
  have hact : State.active _ l = true := lanes.active_of_queue hl' hq
  rw [first_below hl' (Nat.lt_of_succ_lt_succ hl)]
  have hleft : s.payBytesRemaining ≠ 0 := (active_iff.1 hact).1
  have hskip : s.curKeep.getLsbD (l + 1) = false := by
    cases hk : s.curKeep.getLsbD (l + 1) with
    | false => rfl
    | true =>
      have hact' : s.active (l + 1) = true := active_iff.2 ⟨hleft, hk⟩
      rw [hact'] at ha
      cases ha
  exact congrArg not hskip

theorem first_loaded {s : State} {l : Nat} (h : lane? s = some (l + 1))
    (ha : s.active (l + 1) = true) {i : SlaveInput} (hr : i.byteReady = true) :
    first (step s i) = false := by
  have hl := lane_lt h
  rw [load_lane h ha hr]
  rw [first_below (lane_of_laneState (Nat.lt_of_succ_lt hl) rfl) (Nat.lt_of_succ_lt_succ hl)]
  exact congrArg not (active_iff.1 ha).2

theorem feeds : lanes.Feeds serializer Inv where
  ready_eq _ := rfl
  queue_eq _ := rfl
  refill_eq _ _ := rfl
  skip {s} i hi hq := by
    replace hq : lanes.queue s = [] := hq
    cases h : lane? s with
    | none =>
      refine ⟨by simp [serializer, no_lane_valid hi h i], fun _ => ?_⟩
      change first (step s i) = true
      cases h' : lane? (step s i) with
      | none => simp [first, h']
      | some l => simp [first, h', (no_lane_next h h').1]
    | some l =>
      have ha : s.active l = false := lanes.skipped_of_queue h hq
      cases l with
      | zero =>
        rw [show serializer.step s i = _ from skip_last h ha i]
        refine ⟨by simp [serializer, wordDone_byte, State.release], fun hne => ?_⟩
        exact absurd (lanes.queue_no_lane (wordDone_lane _)) hne
      | succ l =>
        refine ⟨?_, first_skipped h ha⟩
        rw [show serializer.step s i = _ from skip_lane h ha i]
        rfl
  load {s l i} h ha hr := by
    cases l with
    | zero =>
      rw [show serializer.step s i = _ from load_last h ha hr]
      refine ⟨by simp [serializer, wordDone_byte, State.count, State.drive, lanes], fun hne => ?_⟩
      exact absurd (lanes.queue_no_lane (wordDone_lane _)) hne
    | succ l =>
      refine ⟨?_, fun _ => first_loaded h ha hr⟩
      rw [show serializer.step s i = _ from load_lane h ha hr]
      rfl
  wait {s l i} h ha hr := by
    rw [show serializer.step s i = _ from wait_lane h ha hr]
    exact ⟨rfl, rfl, rfl⟩
  quiet hi h := (inv_of_lane h).1 hi

end TetraBs.Infra.TmasapTx
