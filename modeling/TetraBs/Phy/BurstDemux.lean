import TetraBs.Lib.DelayLine

/-! `tetra_sync_detect` with the parameters of the receive chain: the correlator for the training
sequences, the slot position and the lock. One step is one rising clock edge. -/
namespace TetraBs.Phy
open TetraBs.SymbolShift

structure DibitInput where
  dibitIn : BitVec 2
  dibitValid : Bool
  corrThreshold : BitVec 6
  seqSelect : BitVec 2

inductive LockPhase where
  | hunt | acqr | lock
deriving DecidableEq

/-- The counters have 8, 12 and 3 bits. -/
structure SyncDetect where
  sreg : BitVec 76
  holdoffCnt : Nat
  syncFound : Bool
  slotPosition : Nat
  slotNumber : BitVec 2
  lockState : LockPhase
  spacingCnt : Nat
  consecCnt : Nat
  syncLocked : Bool
  corrPeak : Nat

namespace SyncDetect

def HOLDOFF : Nat := 220
def LOCK_COUNT : Nat := 4
def SLOT_SYMS : Nat := 255
def LOCK_TOL : Nat := 30
def LOCK_TIMEOUT : Nat := 3060

/-- The training sequences, the oldest symbol on top. -/
def NTS_REF : BitVec 22 := 0b11_01_00_00_11_10_10_01_11_01_00#22
def ETS_REF : BitVec 30 := 0b10_01_11_01_00_00_11_10_10_01_11_01_00_00_11#30
def STS_REF : BitVec 38 := 0b11_00_00_01_10_01_11_00_11_10_10_01_11_00_00_01_10_01_11#38

def reset : SyncDetect := ⟨0, 0, false, 0, 0, .hunt, 0, 0, false, 0⟩

/-- The window with the incoming symbol. -/
def sregShifted (s : SyncDetect) (i : DibitInput) : BitVec 76 := push s.sreg i.dibitIn

/-- The number of symbols of the window that match those of a sequence of `n` symbols. -/
def corr (window : BitVec 76) {w : Nat} (ref : BitVec w) : Nat :=
  (List.range (w / 2)).countP fun k => symbol (window.setWidth w ^^^ ref) k = 0

def corrSel (s : SyncDetect) (i : DibitInput) : Nat :=
  if i.seqSelect = 1 then corr (sregShifted s i) ETS_REF
  else if i.seqSelect = 2 then corr (sregShifted s i) STS_REF
  else corr (sregShifted s i) NTS_REF

def threshHit (s : SyncDetect) (i : DibitInput) : Bool := i.corrThreshold.toNat ≤ corrSel s i

def syncFire (s : SyncDetect) (i : DibitInput) : Bool :=
  threshHit s i && s.holdoffCnt = 0 && i.dibitValid

/-- Near one, two or three frames. -/
def spacingOk (s : SyncDetect) : Bool :=
  [1, 2, 3].any fun k =>
    SLOT_SYMS * 4 * k - LOCK_TOL ≤ s.spacingCnt && s.spacingCnt ≤ SLOT_SYMS * 4 * k + LOCK_TOL

def spacingTimeout (s : SyncDetect) : Bool := LOCK_TIMEOUT < s.spacingCnt

def nextConsec (s : SyncDetect) (i : DibitInput) : Nat :=
  match s.lockState with
  | .hunt => if syncFire s i then 1 else s.consecCnt
  | .acqr =>
    if syncFire s i then if spacingOk s then (s.consecCnt + 1) % 8 else 1
    else if i.dibitValid && spacingTimeout s then 0
    else s.consecCnt
  | .lock => if syncFire s i && !spacingOk s then 0 else s.consecCnt

def nextLockState (s : SyncDetect) (i : DibitInput) : LockPhase :=
  match s.lockState with
  | .hunt => if syncFire s i then .acqr else .hunt
  | .acqr =>
    if LOCK_COUNT ≤ s.consecCnt then .lock
    else if i.dibitValid && spacingTimeout s && !syncFire s i then .hunt
    else .acqr
  | .lock => if i.dibitValid && spacingTimeout s && !syncFire s i then .hunt else .lock

def step (s : SyncDetect) (i : DibitInput) : SyncDetect where
  sreg := if i.dibitValid then sregShifted s i else s.sreg
  holdoffCnt :=
    if syncFire s i then HOLDOFF
    else if i.dibitValid && s.holdoffCnt ≠ 0 then s.holdoffCnt - 1
    else s.holdoffCnt
  syncFound := syncFire s i
  slotPosition :=
    if i.dibitValid then
      if syncFire s i then 0
      else if s.slotPosition = SLOT_SYMS - 1 then 0
      else (s.slotPosition + 1) % 256
    else s.slotPosition
  slotNumber :=
    if i.dibitValid && !syncFire s i && s.slotPosition = SLOT_SYMS - 1 then s.slotNumber + 1
    else s.slotNumber
  lockState := nextLockState s i
  spacingCnt :=
    if i.dibitValid then
      if syncFire s i then 0
      else if s.spacingCnt < 4095 then s.spacingCnt + 1
      else s.spacingCnt
    else s.spacingCnt
  consecCnt := nextConsec s i
  syncLocked := s.lockState = .lock
  corrPeak := if i.dibitValid && s.corrPeak < corrSel s i then corrSel s i else s.corrPeak

end SyncDetect
end TetraBs.Phy

/-! `tetra_burst_demux`, which cuts the blocks and the AACH field out of the symbol stream, and the
run of it together with `tetra_sync_detect`. One step is one rising clock edge. -/
namespace TetraBs.Phy
open TetraBs.SymbolShift

inductive DemuxPhase where
  | hunt | run
deriving DecidableEq

structure BurstDemux where
  state : DemuxPhase
  slotCnt : BitVec 2
  block1Pend : BitVec 216
  bbShift : BitVec 30
  block2Shift : BitVec 216
  block1Lat : BitVec 216
  slotAtSync : BitVec 2
  btypeAtSync : BitVec 2
  block1Captured : Bool
  block1Ready : Bool
  block1Data : BitVec 216
  block2Data : BitVec 216
  bbData : BitVec 30
  slotNumOut : BitVec 2
  slotValid : Bool
  burstType : BitVec 2

namespace BurstDemux

def reset : BurstDemux := ⟨.hunt, 0, 0, 0, 0, 0, 0, 0, false, false, 0, 0, 0, 0, false, 0⟩

def BB_POS_END : Nat := 14
def B2_POS_START : Nat := 15
def B2_POS_END : Nat := 122
def EMIT_POS : Nat := 123
def B1_POS_START : Nat := 125
def B1_POS_END : Nat := 232

/-- A symbol at one of the positions from `first` to `last`, while the module runs. -/
def capture (s : BurstDemux) (i : DibitInput) (pos first last : Nat) : Bool :=
  first ≤ pos && pos ≤ last && i.dibitValid && s.state = .run

def emitBurst (s : BurstDemux) (i : DibitInput) (pos : Nat) : Bool :=
  pos = EMIT_POS && i.dibitValid && s.block1Ready && s.state = .run

/-- A pulse of the detector that the module takes. -/
def atSync (s : BurstDemux) (det : SyncDetect) : Bool := det.syncFound && s.state = .run

def step (s : BurstDemux) (i : DibitInput) (det : SyncDetect) : BurstDemux where
  state :=
    match s.state with
    | .hunt => if det.syncLocked then .run else .hunt
    | .run => if det.syncLocked then .run else .hunt
  slotCnt :=
    if s.state = .hunt then 0 else if det.syncFound then s.slotCnt + 1 else s.slotCnt
  block1Pend :=
    if capture s i det.slotPosition B1_POS_START B1_POS_END then push s.block1Pend i.dibitIn
    else s.block1Pend
  bbShift :=
    if capture s i det.slotPosition 0 BB_POS_END then push s.bbShift i.dibitIn else s.bbShift
  block2Shift :=
    if capture s i det.slotPosition B2_POS_START B2_POS_END then push s.block2Shift i.dibitIn
    else s.block2Shift
  block1Lat := if atSync s det then s.block1Pend else s.block1Lat
  slotAtSync := if atSync s det then s.slotCnt + 1 else s.slotAtSync
  btypeAtSync := if atSync s det then i.seqSelect else s.btypeAtSync
  block1Captured :=
    if s.state = .hunt then false
    else if det.slotPosition = B1_POS_END && i.dibitValid then true
    else s.block1Captured
  block1Ready :=
    if s.state = .hunt then false
    else if atSync s det then s.block1Captured
    else s.block1Ready
  block1Data := if emitBurst s i det.slotPosition then s.block1Lat else s.block1Data
  block2Data := if emitBurst s i det.slotPosition then s.block2Shift else s.block2Data
  bbData := if emitBurst s i det.slotPosition then s.bbShift else s.bbData
  slotNumOut := if emitBurst s i det.slotPosition then s.slotAtSync else s.slotNumOut
  slotValid := emitBurst s i det.slotPosition
  burstType := if emitBurst s i det.slotPosition then s.btypeAtSync else s.burstType

end BurstDemux

/-- Both modules on one symbol stream. -/
structure BurstReceiver where
  det : SyncDetect
  demux : BurstDemux

namespace BurstReceiver

def reset : BurstReceiver := ⟨.reset, .reset⟩

def step (s : BurstReceiver) (i : DibitInput) : BurstReceiver where
  det := s.det.step i
  demux := s.demux.step i s.det

end BurstReceiver

/-- The receiver with the symbols that have come in, and for each hit of the detector their number
up to the end of the training sequence. -/
structure WatchedReceiver where
  rx : BurstReceiver
  dibits : List (BitVec 2)
  hits : List Nat

namespace WatchedReceiver

def reset : WatchedReceiver := ⟨.reset, [], []⟩

def step (w : WatchedReceiver) (i : DibitInput) : WatchedReceiver where
  rx := w.rx.step i
  dibits := if i.dibitValid then w.dibits ++ [i.dibitIn] else w.dibits
  hits := if w.rx.det.syncFire i then w.hits ++ [w.dibits.length + 1] else w.hits

/-- The fields that the demultiplexer presents are those of the slot of the training sequence that
ends before symbol `z`: block 1 ends 22 symbols earlier, the AACH field begins with symbol `z` and
block 2 follows it. -/
structure FromSlot (w : WatchedReceiver) (z : Nat) : Prop where
  hit : z ∈ w.hits
  block1 : Newest w.rx.demux.block1Data w.dibits (z - 22) 108
  bb : Newest w.rx.demux.bbData w.dibits (z + 15) 15
  block2 : Newest w.rx.demux.block2Data w.dibits (z + 123) 108

/-- Whatever is presented belongs to one slot. -/
def Associated (w : WatchedReceiver) : Prop :=
  w.rx.demux.slotValid = true → ∃ z, w.FromSlot z

end WatchedReceiver
end TetraBs.Phy
