import Mathlib.Data.Nat.Notation

/-! `tetra_axi_lite_regs`: the register window of the PL and its AXI4-Lite slave. One step is one
rising edge of `clk_axi`. -/
namespace TetraBs.Infra

/-- The telemetry inputs, as they are read at 0x100 and above. -/
structure Telemetry where
  phyStatus : BitVec 8 := 0
  frameNum : BitVec 5 := 0
  slotNum : BitVec 2 := 0
  dmaBlkCnt : BitVec 16 := 0
  crcErrCnt : BitVec 16 := 0
  syncLstCnt : BitVec 16 := 0
  frameTickCnt : BitVec 32 := 0
  dmaTmaRxFrames : BitVec 32 := 0
  dmaTmaTxFrames : BitVec 32 := 0
  dmaTmdRxFrames : BitVec 32 := 0
  dmaTmdTxFrames : BitVec 32 := 0
  dmaIrqCntRx : BitVec 32 := 0
  dmaIrqCntTx : BitVec 32 := 0
  dmaOverrunCnt : BitVec 16 := 0
  dmaUnderrunCnt : BitVec 16 := 0
  aachLastRaw : BitVec 16 := 0
  aachTransitionCnt : BitVec 32 := 0
  aachIdleCnt : BitVec 32 := 0
  aachSigActiveCnt : BitVec 32 := 0
  aachTrafficCnt : BitVec 32 := 0
  umacDlqDepth : BitVec 8 := 0
  umacDlqDrops : BitVec 16 := 0
  umacReasmFailCnt : BitVec 16 := 0
  tmasapRxFramesCnt : BitVec 32 := 0
  tmasapTxFramesCnt : BitVec 32 := 0
  tmasapTxErrCnt : BitVec 16 := 0
  tmarFramesCnt : BitVec 32 := 0
  tmdsapTxFramesCnt : BitVec 32 := 0
  tmdsapRxFramesCnt : BitVec 32 := 0
  tmdsapErrCnt : BitVec 32 := 0
deriving DecidableEq

/-- The registers that software writes. The defaults are the reset values. -/
structure LiveRegs where
  cellMcc : BitVec 10 := 262
  cellMnc : BitVec 14 := 1010
  cellCc : BitVec 6 := 1
  cellLa : BitVec 14 := 0
  rxCarrierHz : BitVec 32 := 392987500
  txCarrierHz : BitVec 32 := 382891062
  txGainTrim : BitVec 8 := 0
  cipherMode : BitVec 2 := 0
  scramblerInit : BitVec 32 := 0x4183F207
  tsN : BitVec 12 := 0xCB2
  tsP : BitVec 12 := 0x536
  tsQ : BitVec 12 := 0x0E2
  ctrl : BitVec 4 := 0
  syncThresh : BitVec 8 := 0xC8
  rxGain : BitVec 7 := 0x20
  txAtt : BitVec 8 := 0x28
  irqEnable : BitVec 5 := 0
  irqStatus : BitVec 5 := 0
  slotTable : Nat → BitVec 32 := fun _ => 0
  scratch : BitVec 32 := 0

def versionDefault : BitVec 32 := 0x00020000

/-- DMA sub-window: 0x0A0..0x0AF. -/
def isDmaSubwin (addr : BitVec 12) : Bool := addr.extractLsb' 4 8 == 0x0A

def isMisaligned (addr : BitVec 12) : Bool := addr.extractLsb' 0 2 != 0

def inSlotTable (addr : BitVec 12) : Bool := 0x030 ≤ addr && addr ≤ 0x07C

def slotIndex (addr : BitVec 12) : Nat := ((addr - 0x030) >>> 2).toNat

/-- Only the scratch register honours the byte strobes. -/
def writeLanes (old data : BitVec 32) (strb : BitVec 4) : BitVec 32 :=
  let lane (k : Nat) : BitVec 8 :=
    if strb.getLsbD k then data.extractLsb' (8 * k) 8 else old.extractLsb' (8 * k) 8
  lane 3 ++ lane 2 ++ lane 1 ++ lane 0

namespace LiveRegs

/-- An aligned write outside the sub-window. Unknown addresses drop it. -/
def write (r : LiveRegs) (addr : BitVec 12) (data : BitVec 32) (strb : BitVec 4) : LiveRegs :=
  match addr.toNat with
  | 0x000 => { r with cellMcc := data.setWidth 10 }
  | 0x004 => { r with cellMnc := data.setWidth 14 }
  | 0x008 => { r with cellCc := data.setWidth 6 }
  | 0x00C => { r with cellLa := data.setWidth 14 }
  | 0x010 => { r with rxCarrierHz := data }
  | 0x014 => { r with txCarrierHz := data }
  | 0x018 => { r with txGainTrim := data.setWidth 8 }
  | 0x01C => { r with cipherMode := data.setWidth 2 }
  | 0x020 => { r with scramblerInit := data }
  | 0x024 => { r with tsN := data.setWidth 12 }
  | 0x028 => { r with tsP := data.setWidth 12 }
  | 0x02C => { r with tsQ := data.setWidth 12 }
  | 0x080 => { r with ctrl := r.ctrl.extractLsb' 3 1 ++ data.setWidth 3 }
  | 0x084 => { r with syncThresh := data.setWidth 8 }
  | 0x088 => { r with rxGain := data.setWidth 7 }
  | 0x08C => { r with txAtt := data.setWidth 8 }
  | 0x090 => { r with irqEnable := data.setWidth 5 }
  | 0x10C => { r with irqStatus := r.irqStatus &&& ~~~data.setWidth 5 }
  | 0x200 => { r with scratch := writeLanes r.scratch data strb }
  | _ =>
    if inSlotTable addr then
      { r with slotTable := fun k => if k = slotIndex addr then data else r.slotTable k }
    else r

/-- Undecoded addresses read zero. -/
def read (r : LiveRegs) (t : Telemetry) (addr : BitVec 12) : BitVec 32 :=
  match addr.toNat with
  | 0x000 => r.cellMcc.setWidth 32
  | 0x004 => r.cellMnc.setWidth 32
  | 0x008 => r.cellCc.setWidth 32
  | 0x00C => r.cellLa.setWidth 32
  | 0x010 => r.rxCarrierHz
  | 0x014 => r.txCarrierHz
  | 0x018 => r.txGainTrim.setWidth 32
  | 0x01C => r.cipherMode.setWidth 32
  | 0x020 => r.scramblerInit
  | 0x024 => r.tsN.setWidth 32
  | 0x028 => r.tsP.setWidth 32
  | 0x02C => r.tsQ.setWidth 32
  | 0x080 => (r.ctrl.setWidth 3).setWidth 32
  | 0x084 => r.syncThresh.setWidth 32
  | 0x088 => r.rxGain.setWidth 32
  | 0x08C => r.txAtt.setWidth 32
  | 0x090 => r.irqEnable.setWidth 32
  | 0x0FC => versionDefault
  | 0x100 => t.phyStatus.setWidth 32
  | 0x104 => t.frameNum.setWidth 32
  | 0x108 => t.slotNum.setWidth 32
  | 0x10C => r.irqStatus.setWidth 32
  | 0x110 => t.dmaBlkCnt.setWidth 32
  | 0x114 => t.crcErrCnt.setWidth 32
  | 0x118 => t.syncLstCnt.setWidth 32
  | 0x11C => t.frameTickCnt
  | 0x120 => t.dmaTmaRxFrames
  | 0x124 => t.dmaTmaTxFrames
  | 0x128 => t.dmaTmdRxFrames
  | 0x12C => t.dmaTmdTxFrames
  | 0x130 => t.dmaIrqCntRx
  | 0x134 => t.dmaIrqCntTx
  | 0x138 => t.dmaOverrunCnt.setWidth 32
  | 0x13C => t.dmaUnderrunCnt.setWidth 32
  | 0x140 => t.aachLastRaw.setWidth 32
  | 0x144 => t.aachTransitionCnt
  | 0x148 => t.aachIdleCnt
  | 0x14C => t.aachSigActiveCnt
  | 0x150 => t.aachTrafficCnt
  | 0x154 => t.umacDlqDepth.setWidth 32
  | 0x158 => t.umacDlqDrops.setWidth 32
  | 0x15C => t.umacReasmFailCnt.setWidth 32
  | 0x160 => t.tmasapRxFramesCnt
  | 0x164 => t.tmasapTxFramesCnt
  | 0x168 => t.tmasapTxErrCnt.setWidth 32
  | 0x16C => t.tmarFramesCnt
  | 0x170 => t.tmdsapTxFramesCnt
  | 0x174 => t.tmdsapRxFramesCnt
  | 0x178 => t.tmdsapErrCnt
  | 0x200 => r.scratch
  | _ => if inSlotTable addr then r.slotTable (slotIndex addr) else 0

/-- A pulse from the hardware sets its bit whatever software does in the same cycle. -/
def pulse (r : LiveRegs) (p : BitVec 5) : LiveRegs := { r with irqStatus := r.irqStatus ||| p }

end LiveRegs

/-- What the slave samples at one edge: the master's side, the sub-window's side, the telemetry. -/
structure AxilInput where
  awaddr : BitVec 12
  awvalid : Bool
  wdata : BitVec 32
  wstrb : BitVec 4
  wvalid : Bool
  bready : Bool
  araddr : BitVec 12
  arvalid : Bool
  rready : Bool
  dmaAwready : Bool
  dmaWready : Bool
  dmaBresp : BitVec 2
  dmaBvalid : Bool
  dmaArready : Bool
  dmaRdata : BitVec 32
  dmaRresp : BitVec 2
  dmaRvalid : Bool
  irqSetPulse : BitVec 5
  telemetry : Telemetry

structure AxiLiteRegs where
  regs : LiveRegs
  ctrlRstCntrsPulse : Bool
  awreadyR : Bool
  wreadyR : Bool
  bvalidR : Bool
  brespR : BitVec 2
  arreadyR : Bool
  rvalidR : Bool
  rrespR : BitVec 2
  rdataR : BitVec 32
  wrAddrSeen : Bool
  wrDataSeen : Bool
  wrAddrQ : BitVec 12
  wrDataQ : BitVec 32
  wrStrbQ : BitVec 4
  rdAddrQ : BitVec 12
  rdAddrSeen : Bool
  dmaAwPending : Bool
  dmaWPending : Bool
  dmaBPending : Bool
  dmaArPending : Bool
  dmaRPending : Bool

namespace AxiLiteRegs

def reset : AxiLiteRegs :=
  ⟨{}, false, false, false, false, 0, false, false, 0, 0, false, false, 0, 0, 0, 0, false, false,
    false, false, false, false⟩

section
variable (s : AxiLiteRegs) (i : AxilInput)

/-! Conditions of the clocked block. They read the registers before the edge. -/

def takesAddr : Bool := !s.awreadyR && i.awvalid && !s.wrAddrSeen

def takesData : Bool := !s.wreadyR && i.wvalid && !s.wrDataSeen

def commitsWrite : Bool :=
  s.wrAddrSeen && s.wrDataSeen && !s.bvalidR && !s.dmaAwPending && !s.dmaWPending &&
    !s.dmaBPending

def takesRead : Bool :=
  !s.arreadyR && i.arvalid && !s.rdAddrSeen && !s.rvalidR && !s.dmaArPending && !s.dmaRPending

def commitsRead : Bool := s.rdAddrSeen && !s.rvalidR && !s.dmaArPending && !s.dmaRPending

/-- What the commit passes on instead of answering it. -/
def forwards (addr : BitVec 12) : Bool := !isMisaligned addr && isDmaSubwin addr

def forwardsWrite : Bool := s.commitsWrite && forwards s.wrAddrQ

def answersWrite : Bool := s.commitsWrite && !forwards s.wrAddrQ

def forwardsRead : Bool := s.commitsRead && forwards s.rdAddrQ

def answersRead : Bool := s.commitsRead && !forwards s.rdAddrQ

def dmaAnswersWrite : Bool := s.dmaBPending && i.dmaBvalid

def dmaAnswersRead : Bool := s.dmaRPending && i.dmaRvalid

/-- The commit writes a register. -/
def writesLocal : Bool := s.answersWrite && !isMisaligned s.wrAddrQ

def nextRegs : LiveRegs :=
  (if s.writesLocal then s.regs.write s.wrAddrQ s.wrDataQ s.wrStrbQ else s.regs).pulse
    i.irqSetPulse

/-- Where the block assigns a register more than once, the last assignment comes first here. -/
def step : AxiLiteRegs where
  regs := s.nextRegs i
  ctrlRstCntrsPulse := s.writesLocal && s.wrAddrQ == 0x080 && s.wrDataQ.getLsbD 3
  awreadyR := s.takesAddr i
  wreadyR := s.takesData i
  bvalidR :=
    if s.dmaAnswersWrite i then true
    else if s.bvalidR && i.bready then false
    else if s.answersWrite then true
    else s.bvalidR
  brespR :=
    if s.dmaAnswersWrite i then i.dmaBresp
    else if s.commitsWrite then if isMisaligned s.wrAddrQ then 2 else 0
    else s.brespR
  arreadyR := s.takesRead i
  rvalidR :=
    if s.dmaAnswersRead i then true
    else if s.rvalidR && i.rready then false
    else if s.answersRead then true
    else s.rvalidR
  rrespR :=
    if s.dmaAnswersRead i then i.dmaRresp
    else if s.answersRead then if isMisaligned s.rdAddrQ then 2 else 0
    else s.rrespR
  rdataR :=
    if s.dmaAnswersRead i then i.dmaRdata
    else if s.answersRead then
      if isMisaligned s.rdAddrQ then 0 else s.regs.read i.telemetry s.rdAddrQ
    else s.rdataR
  wrAddrSeen :=
    if s.dmaAnswersWrite i || s.answersWrite then false else s.takesAddr i || s.wrAddrSeen
  wrDataSeen :=
    if s.dmaAnswersWrite i || s.answersWrite then false else s.takesData i || s.wrDataSeen
  wrAddrQ := if s.takesAddr i then i.awaddr else s.wrAddrQ
  wrDataQ := if s.takesData i then i.wdata else s.wrDataQ
  wrStrbQ := if s.takesData i then i.wstrb else s.wrStrbQ
  rdAddrQ := if s.takesRead i then i.araddr else s.rdAddrQ
  rdAddrSeen :=
    if s.dmaAnswersRead i || s.answersRead then false else s.takesRead i || s.rdAddrSeen
  dmaAwPending :=
    if s.dmaAwPending && i.dmaAwready then false else s.forwardsWrite || s.dmaAwPending
  dmaWPending := if s.dmaWPending && i.dmaWready then false else s.forwardsWrite || s.dmaWPending
  dmaBPending := if s.dmaAnswersWrite i then false else s.forwardsWrite || s.dmaBPending
  dmaArPending :=
    if s.dmaArPending && i.dmaArready then false else s.forwardsRead || s.dmaArPending
  dmaRPending := if s.dmaAnswersRead i then false else s.forwardsRead || s.dmaRPending

end

end AxiLiteRegs
end TetraBs.Infra
