import TetraBs.Lib.Pacing
import TetraBs.Lmac.BurstMux

/-! `tetra_slot_schedule` (port B) and `tetra_slot_content_mux` behind the timebase: the entries of
a frame are read one after another while the frame before it ends. One step is one rising clock
edge. -/
namespace TetraBs.Lmac
open TetraBs.Pacing TetraBs.Run

/-- The even and the odd entries of the table. -/
structure ScheduleMem where
  lo : BitVec 8 → BitVec 16
  hi : BitVec 8 → BitVec 16

def ScheduleMem.entry (mem : ScheduleMem) (n : Nat) : BitVec 16 :=
  if n % 2 = 1 then mem.hi (BitVec.ofNat 8 (n / 2)) else mem.lo (BitVec.ofNat 8 (n / 2))

/-- The read registers of port B, which have no reset. -/
structure SchedulePort where
  rdLo : BitVec 16
  rdHi : BitVec 16
  addrLsb : Bool

namespace SchedulePort

def step (mem : ScheduleMem) (addr : BitVec 9) : SchedulePort where
  rdLo := mem.lo (addr.extractLsb' 1 8)
  rdHi := mem.hi (addr.extractLsb' 1 8)
  addrLsb := addr.getLsbD 0

def scheduleEntry (p : SchedulePort) : BitVec 16 := if p.addrLsb then p.rdHi else p.rdLo

end SchedulePort

/-- The payload banks that software fills. -/
structure PayloadBanks where
  ndbBlock1 : BitVec 216
  ndbBlock2 : BitVec 216
  mcchBlock1 : BitVec 216
  mcchBlock2 : BitVec 216
  bnchBlock1 : BitVec 216
  bnchBlock2 : BitVec 216
  sbBkn2 : BitVec 216

/-- What the signalling scheduler offers for each slot. -/
structure SignalBundle where
  blk1 : BitVec 2 → BitVec 216
  blk2 : BitVec 2 → BitVec 216
  ndb2 : BitVec 2 → Bool

structure ContentInput where
  banks : PayloadBanks
  bundle : SignalBundle
  sb1Coded : BitVec 120
  aachCoded : BitVec 30

/-! The fields of an entry. -/

def busIsSdb (ent : BitVec 16) : Bool := ent.extractLsb' 4 2 = 1
def busIsEnable (ent : BitVec 16) : Bool := ent.getLsbD 2
def busIsNdb2 (ent : BitVec 16) : Bool := ent.getLsbD 3
def busIsSignal (ent : BitVec 16) : Bool := ent.extractLsb' 12 4 = 1
def busIdx (ent : BitVec 16) : BitVec 6 := ent.extractLsb' 6 6

/-- The blocks of a broadcast slot. -/
def PayloadBanks.blocks (b : PayloadBanks) (idx : BitVec 6) : BitVec 216 × BitVec 216 :=
  if idx = 0 then (b.ndbBlock1, b.ndbBlock2)
  else if idx = 1 then (b.mcchBlock1, b.mcchBlock2)
  else if idx = 2 then (b.bnchBlock1, b.bnchBlock2)
  else if idx = 3 then (0, b.sbBkn2)
  else if idx = 4 then (b.ndbBlock1, b.bnchBlock2)
  else if idx = 7 then (0, 0)
  else (b.ndbBlock1, b.ndbBlock2)

/-- The blocks of slot `k`, by the class of its entry. -/
def blkMux (b : PayloadBanks) (s : SignalBundle) (ent : BitVec 16) (k : BitVec 2) :
    BitVec 216 × BitVec 216 :=
  if busIsSignal ent then (s.blk1 k, s.blk2 k) else b.blocks (busIdx ent)

def ndb2Mux (s : SignalBundle) (ent : BitVec 16) (k : BitVec 2) : Bool :=
  if busIsSignal ent then s.ndb2 k else busIsNdb2 ent

inductive RefreshPhase where
  | idle | rd0 | rd1 | rd2 | rd3 | cap3
deriving DecidableEq

structure SlotContentMux where
  state : RefreshPhase
  refreshFn : BitVec 5
  refreshMnLow2 : BitVec 2
  firstRefreshPending : Bool
  schedEntry : BitVec 2 → BitVec 16
  slotBurstType : BitVec 2 → Bool
  slotEn : BitVec 2 → Bool
  slotNdb2 : BitVec 2 → Bool
  txBlk1 : BitVec 2 → BitVec 216
  txBlk2 : BitVec 2 → BitVec 216
  sbSb1Data : BitVec 120
  sbBbData : BitVec 30

namespace SlotContentMux

def reset : SlotContentMux where
  state := .idle
  refreshFn := 0
  refreshMnLow2 := 0
  firstRefreshPending := true
  schedEntry _ := 0
  slotBurstType _ := false
  slotEn _ := false
  slotNdb2 _ := false
  txBlk1 _ := 0
  txBlk2 _ := 0
  sbSb1Data := 0
  sbBbData := 0

def fnWrap (c : SlotTime) : Bool := c.fn = 17
def fnNext (c : SlotTime) : BitVec 5 := if fnWrap c then 0 else c.fn + 1
def mnNextLow2 (c : SlotTime) : BitVec 2 :=
  if fnWrap c then c.mn.extractLsb' 0 2 + 1 else c.mn.extractLsb' 0 2

variable (s : SlotContentMux) (t : TdmaTimebase)

def refreshTrigger : Bool := t.slotPulse && (s.firstRefreshPending || t.cnt.tn = 3)

def nextState : RefreshPhase :=
  match s.state with
  | .idle => if s.refreshTrigger t then .rd0 else .idle
  | .rd0 => .rd1
  | .rd1 => .rd2
  | .rd2 => .rd3
  | .rd3 => .cap3
  | .cap3 => .idle

def effFn : BitVec 5 :=
  if s.state = .idle && s.refreshTrigger t then
    if s.firstRefreshPending then t.cnt.fn else fnNext t.cnt
  else s.refreshFn

def effMnLow2 : BitVec 2 :=
  if s.state = .idle && s.refreshTrigger t then
    if s.firstRefreshPending then t.cnt.mn.extractLsb' 0 2 else mnNextLow2 t.cnt
  else s.refreshMnLow2

/-- The first entry of a frame. -/
def baseAddr (fn : BitVec 5) (mnLow2 : BitVec 2) : BitVec 9 :=
  (0#1 ++ mnLow2 ++ 0#6) + (0#4 ++ mnLow2 ++ 0#3) + (0#2 ++ fn ++ 0#2)

def tnForAddr : BitVec 2 :=
  match s.nextState t with
  | .rd1 => 1
  | .rd2 => 2
  | .rd3 => 3
  | _ => 0

def schedAddr : BitVec 9 := baseAddr (s.effFn t) (s.effMnLow2 t) + (0#7 ++ s.tnForAddr t)

/-- The entry that the phase captures. -/
def captures : RefreshPhase → Option (BitVec 2)
  | .rd0 => some 0
  | .rd1 => some 1
  | .rd2 => some 2
  | .rd3 => some 3
  | _ => none

def step (schedData : BitVec 16) (i : ContentInput) : SlotContentMux where
  state := s.nextState t
  refreshFn := s.effFn t
  refreshMnLow2 := s.effMnLow2 t
  firstRefreshPending :=
    if s.state = .idle && s.refreshTrigger t && s.firstRefreshPending then false
    else s.firstRefreshPending
  schedEntry k := if captures s.state = some k then schedData else s.schedEntry k
  slotBurstType k := busIsSdb (s.schedEntry k)
  slotEn k := busIsEnable (s.schedEntry k)
  slotNdb2 k := ndb2Mux i.bundle (s.schedEntry k) k
  txBlk1 k := (blkMux i.banks i.bundle (s.schedEntry k) k).1
  txBlk2 k := (blkMux i.banks i.bundle (s.schedEntry k) k).2
  sbSb1Data := i.sb1Coded
  sbBbData := i.aachCoded

end SlotContentMux

/-- The number of a slot's entry. -/
def SlotTime.scheduleIndex (c : SlotTime) : Nat := c.mn.toNat % 4 * 72 + c.fn.toNat * 4 + c.tn.toNat

/-- How the slot pulses have begun. -/
inductive Opening where
  /-- No slot pulse so far. -/
  | none
  /-- One, at the last slot of a frame, and nothing since. -/
  | atLastSlot
  | later
deriving DecidableEq

/-- The timebase with its history. -/
structure WatchedTimebase where
  timebase : TdmaTimebase
  /-- Cycles since the last symbol. -/
  quiet : Nat
  /-- A load strobe has come. -/
  loaded : Bool
  /-- A slot pulse of a frame's last slot has come since the last reset or commit. -/
  settled : Bool
  opening : Opening

namespace WatchedTimebase

def start : WatchedTimebase := ⟨.reset, 15, false, false, .none⟩

def nextOpening (w : WatchedTimebase) (i : TimebaseInput) : Opening :=
  if w.timebase.slotPulse then
    if w.opening = .none ∧ w.timebase.cnt.tn = 3 then .atLastSlot else .later
  else if w.timebase.syncCommit i ∧ w.opening = .atLastSlot then .later
  else w.opening

def step (w : WatchedTimebase) (i : TimebaseInput) : WatchedTimebase where
  timebase := w.timebase.step i
  quiet := since TimebaseInput.symEn w.quiet i
  loaded := w.loaded || i.syncLoadStrobe
  settled :=
    if w.timebase.syncCommit i then false
    else w.settled || w.timebase.slotPulse && w.timebase.cnt.tn = 3
  opening := w.nextOpening i

/-- The slot pulse comes next after a first one at the last slot of a frame. -/
def MissedFrame (w : WatchedTimebase) : Prop :=
  w.timebase.slotPulse = true ∧ w.opening = .atLastSlot

instance (w : WatchedTimebase) : Decidable w.MissedFrame := inferInstanceAs (Decidable (_ ∧ _))

variable {w : WatchedTimebase} {i : TimebaseInput}

/-- No symbol comes soon after one. -/
theorem no_symbol (hq : i.symEn = true → 15 ≤ w.quiet) (hlt : w.quiet < 15) : i.symEn = false :=
  Bool.eq_false_iff.2 (mt hq (Nat.not_le.2 hlt))

theorem nextOpening_none :
    w.nextOpening i = .none ↔ w.timebase.slotPulse = false ∧ w.opening = .none := by
  rw [nextOpening]
  cases w.timebase.slotPulse with
  | true => simp; split <;> simp
  | false =>
    cases hop : w.opening <;> cases w.timebase.syncCommit i <;> simp

theorem nextOpening_atLastSlot : w.nextOpening i = .atLastSlot ↔
    w.timebase.slotPulse = true ∧ w.opening = .none ∧ w.timebase.cnt.tn = 3 ∨
    w.timebase.slotPulse = false ∧ w.opening = .atLastSlot ∧ w.timebase.syncCommit i = false := by
  rw [nextOpening]
  cases w.timebase.slotPulse with
  | true => simp
  | false =>
    cases hop : w.opening <;> cases w.timebase.syncCommit i <;> simp

end WatchedTimebase

structure ContentPath where
  watch : WatchedTimebase
  port : SchedulePort
  content : SlotContentMux

namespace ContentPath

def start (port : SchedulePort) : ContentPath := ⟨.start, port, .reset⟩

def step (mem : ScheduleMem) (s : ContentPath) (i : TimebaseInput × ContentInput) :
    ContentPath where
  watch := s.watch.step i.1
  port := SchedulePort.step mem (s.content.schedAddr s.watch.timebase)
  content := s.content.step s.watch.timebase s.port.scheduleEntry i.2

/-- At a slot pulse that is not the first of a frame's last slot since reset or commit, the entry of
the current slot is the table's. -/
def EntryCurrent (mem : ScheduleMem) (s : ContentPath) : Prop :=
  s.watch.timebase.slotPulse = true → s.watch.settled = true →
    s.content.schedEntry s.watch.timebase.cnt.tn = mem.entry s.watch.timebase.cnt.scheduleIndex

end ContentPath
end TetraBs.Lmac
