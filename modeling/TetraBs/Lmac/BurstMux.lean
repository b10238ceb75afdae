import TetraBs.Lib.Pacing
import TetraBs.Lmac.BurstBuilder
import TetraBs.Lmac.TdmaTimebase

/-! `tetra_burst_mux` between `tetra_tdma_timebase` and `tetra_burst_builder`, as
`tetra_tx_chain` wires it. One step is one rising clock edge. -/
namespace TetraBs.Lmac
open TetraBs.Pacing TetraBs.Run

/-- The inputs of `tetra_burst_mux` but for the timing; a packed bus is a function of the slot. -/
structure SlotBus where
  block1 : BitVec 2 → BitVec 216
  block2 : BitVec 2 → BitVec 216
  bb : BitVec 30
  sbSb1 : BitVec 120
  sbBkn2 : BitVec 216
  slotEn : BitVec 2 → Bool
  slotBurstType : BitVec 2 → Bool
  slotNdb2 : BitVec 2 → Bool

/-- What is latched at a slot pulse. -/
structure SlotChoice where
  slot : BitVec 2
  en : Bool
  burstType : Bool
  ndb2 : Bool
deriving DecidableEq

/-- What the builder is given. -/
structure BurstData where
  slot : NdbSlot
  sb1 : BitVec 120
  burstType : Bool
  ndb2 : Bool
deriving DecidableEq

def SlotBus.choice (b : SlotBus) (slot : BitVec 2) : SlotChoice :=
  ⟨slot, b.slotEn slot, b.slotBurstType slot, b.slotNdb2 slot⟩

def SlotBus.data (b : SlotBus) (c : SlotChoice) : BurstData where
  slot := {
    block1 := if c.en then b.block1 c.slot else 0
    block2 :=
      if c.burstType then if c.en then b.sbBkn2 else 0
      else if c.en then b.block2 c.slot else 0
    bb := b.bb }
  sb1 := if c.en then b.sbSb1 else 0
  burstType := c.burstType
  ndb2 := c.ndb2

/-- The state that the code calls `S_WAIT` is never entered. -/
inductive MuxPhase where
  | idle | pending | req
deriving DecidableEq

structure BurstMux where
  state : MuxPhase
  lat : SlotChoice
  build : BurstData
  buildReq : Bool

namespace BurstMux

def reset : BurstMux :=
  ⟨.idle, ⟨0, false, false, false⟩, ⟨⟨0, 0, 0⟩, 0, false, false⟩, false⟩

def nextState (m : BurstMux) (slotPulse : Bool) : MuxPhase :=
  match m.state with
  | .idle => if slotPulse then .pending else .idle
  | .pending => .req
  | .req => .idle

def step (m : BurstMux) (b : SlotBus) (slotNum : BitVec 2) (slotPulse : Bool) : BurstMux where
  state := m.nextState slotPulse
  lat := if m.state = .idle && slotPulse then b.choice slotNum else m.lat
  build := if m.nextState slotPulse = .req && m.state = .pending then b.data m.lat else m.build
  buildReq := m.nextState slotPulse = .req

/-- The builder's inputs. -/
def request (m : BurstMux) (symEn : Bool) : BuildInput :=
  ⟨symEn, m.build.slot, m.build.sb1, m.build.burstType, m.build.ndb2, m.buildReq⟩

variable {m : BurstMux} {slotPulse : Bool}

theorem nextState_pending :
    m.nextState slotPulse = .pending ↔ m.state = .idle ∧ slotPulse = true := by
  rw [nextState]
  cases m.state <;> cases slotPulse <;> simp

theorem nextState_req : m.nextState slotPulse = .req ↔ m.state = .pending := by
  rw [nextState]
  cases m.state <;> cases slotPulse <;> simp

end BurstMux

/-- The 510 bits of a burst. -/
def BurstData.bits (d : BurstData) : BitVec 510 :=
  BurstBuilder.burst ⟨false, d.slot, d.sb1, d.burstType, d.ndb2, true⟩

/-- The symbol that is sent after `k` others. -/
def sentAt (x : BitVec 510) (k : Nat) : BitVec 2 := SymbolShift.symbol x (254 - k)

/-- What the output registers show. -/
def BurstBuilder.put (b : BurstBuilder) : Option (BitVec 2) :=
  if b.txDibitValid then some b.txDibit else none

structure TxInput where
  timebase : TimebaseInput
  bus : SlotBus

structure TxPath where
  timebase : TdmaTimebase
  mux : BurstMux
  builder : BurstBuilder

namespace TxPath

def reset : TxPath := ⟨.reset, .reset, .reset⟩

def step (s : TxPath) (i : TxInput) : TxPath where
  timebase := s.timebase.step i.timebase
  mux := s.mux.step i.bus s.timebase.cnt.tn s.timebase.slotPulse
  builder := s.builder.step (s.mux.request i.timebase.symEn)

end TxPath

/-- The path with its history. A burst is handed over at a slot pulse: the choice of the slot, and
in the next cycle the data. -/
structure WatchedPath where
  path : TxPath
  /-- Cycles since the last symbol. -/
  quiet : Nat
  /-- A load strobe has come. -/
  loaded : Bool
  /-- The choice at the slot pulse of the cycle before. -/
  pulsed : Option SlotChoice
  /-- The bursts that were handed over, each with the number of symbols before its pulse. -/
  handed : List (Nat × BurstData)
  /-- What was put out at each symbol. -/
  sent : List (Option (BitVec 2))

namespace WatchedPath

def start : WatchedPath := ⟨.reset, 15, false, none, [], []⟩

def step (w : WatchedPath) (i : TxInput) : WatchedPath where
  path := w.path.step i
  quiet := since TimebaseInput.symEn w.quiet i.timebase
  loaded := w.loaded || i.timebase.syncLoadStrobe
  pulsed :=
    if w.path.timebase.slotPulse then some (i.bus.choice w.path.timebase.cnt.tn) else none
  handed := w.handed ++ (w.pulsed.map fun c => (w.sent.length, i.bus.data c)).toList
  sent :=
    if i.timebase.symEn then w.sent ++ [(w.path.step i).builder.put] else w.sent

end WatchedPath
end TetraBs.Lmac
