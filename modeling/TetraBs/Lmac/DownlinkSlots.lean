import TetraBs.Lmac.SlotEntries
import TetraBs.Umac.DlSignal

/-! The downlink slot path: timebase, schedule, `tetra_slot_content_mux`,
`tetra_dl_signal_scheduler` and `tetra_burst_mux`. One step is one rising clock edge. -/
namespace TetraBs.Lmac
open TetraBs.Pacing TetraBs.Run

structure DownlinkInput where
  timebase : TimebaseInput
  /-- The head of the signalling queue. -/
  head : Option DlSignal.Entry
  nullPduBits : BitVec 216
  sigCompanion : BitVec 216
  sb1Coded : BitVec 120
  aachCoded : BitVec 30
  sbBkn2 : BitVec 216

structure DownlinkPath where
  content : ContentPath
  sched : DlSignal.Scheduler
  mux : BurstMux

/-- The scheduler's outputs. -/
def signalBundle (s : DlSignal.Scheduler) : SignalBundle :=
  ⟨fun k => s.schedBlk1 k.toFin, fun k => s.schedBlk2 k.toFin, fun k => s.schedNdb2 k.toFin⟩

/-- The content multiplexer's outputs. -/
def SlotContentMux.bus (s : SlotContentMux) (sbBkn2 : BitVec 216) : SlotBus :=
  ⟨s.txBlk1, s.txBlk2, s.sbBbData, s.sbSb1Data, sbBkn2, s.slotEn, s.slotBurstType, s.slotNdb2⟩

namespace DownlinkPath

def start (port : SchedulePort) : DownlinkPath := ⟨.start port, DlSignal.reset.sched, .reset⟩

/-- What the scheduler sees; it does not read the write ports. -/
def schedInput (t : TdmaTimebase) (i : DownlinkInput) : DlSignal.Input where
  wrMle := ⟨false, 0, 0, ⟨0, Nat.zero_lt_succ 3⟩⟩
  wrMleSecondPduPresent := false
  wrMleSecondPduNr := false
  wrCmce := ⟨false, 0, 0, ⟨0, Nat.zero_lt_succ 3⟩⟩
  wrSds := ⟨false, 0, 0, ⟨0, Nat.zero_lt_succ 3⟩⟩
  tn := t.cnt.tn.toFin
  slotPulse := t.slotPulse
  nullPduBits := i.nullPduBits
  sigCompanion := i.sigCompanion

def schedNext (s : DownlinkPath) (i : DownlinkInput) : DlSignal.Scheduler :=
  let inp := schedInput s.content.watch.timebase i
  DlSignal.schedStep s.sched (if DlSignal.popTrigger inp then i.head else none) inp

def step (mem : ScheduleMem) (banks : PayloadBanks) (s : DownlinkPath) (i : DownlinkInput) :
    DownlinkPath where
  content := s.content.step mem
    (i.timebase, ⟨banks, signalBundle s.sched, i.sb1Coded, i.aachCoded⟩)
  sched := s.schedNext i
  mux := s.mux.step (s.content.content.bus i.sbBkn2) s.content.watch.timebase.cnt.tn
    s.content.watch.timebase.slotPulse

end DownlinkPath

/-- A slot pulse: how many came before it, its slot, and the newest bundle that the scheduler had
latched, with the slot of the pulse that latched it. -/
structure SlotRecord where
  number : Nat
  slot : SlotTime
  offered : Option (SlotTime × SignalBundle)

/-- The path with its history. -/
structure WatchedDownlink where
  path : DownlinkPath
  pulses : Nat
  latched : Option (SlotTime × SignalBundle)
  current : Option SlotRecord
  /-- What the builder was given, with the pulse that it was given for. -/
  handed : List (SlotRecord × SlotChoice × BurstData)

namespace WatchedDownlink

def start (port : SchedulePort) : WatchedDownlink := ⟨.start port, 0, none, none, []⟩

def step (mem : ScheduleMem) (banks : PayloadBanks) (w : WatchedDownlink) (i : DownlinkInput) :
    WatchedDownlink :=
  let t := w.path.content.watch.timebase
  { path := w.path.step mem banks i
    pulses := if t.slotPulse then w.pulses + 1 else w.pulses
    latched :=
      if t.slotPulse && t.cnt.tn = 3 then some (t.cnt, signalBundle (w.path.schedNext i))
      else w.latched
    current := if t.slotPulse then some ⟨w.pulses, t.cnt, w.latched⟩ else w.current
    handed :=
      if w.path.mux.buildReq then
        w.handed ++ (w.current.map fun r => (r, w.path.mux.lat, w.path.mux.build)).toList
      else w.handed }

/-- The bundle that was latched last; before the first one the scheduler's registers are as reset
has left them. -/
def offeredBundle (p : Option (SlotTime × SignalBundle)) : SignalBundle :=
  (p.map Prod.snd).getD (signalBundle DlSignal.reset.sched)

/-- What the builder is given for the pulse `r` is of the pulse's own entry. -/
structure OwnEntry (mem : ScheduleMem) (banks : PayloadBanks) (r : SlotRecord) (lat : SlotChoice)
    (data : BurstData) : Prop where
  slot : lat.slot = r.slot.tn
  enable : lat.en = busIsEnable (mem.entry r.slot.scheduleIndex)
  burstType : data.burstType = busIsSdb (mem.entry r.slot.scheduleIndex)
  ndb2 : data.ndb2 =
    if busIsSignal (mem.entry r.slot.scheduleIndex) then (offeredBundle r.offered).ndb2 r.slot.tn
    else busIsNdb2 (mem.entry r.slot.scheduleIndex)
  disabled : busIsEnable (mem.entry r.slot.scheduleIndex) = false →
    data.slot.block1 = 0 ∧ data.slot.block2 = 0
  signalling : busIsEnable (mem.entry r.slot.scheduleIndex) = true →
    busIsSdb (mem.entry r.slot.scheduleIndex) = false →
    busIsSignal (mem.entry r.slot.scheduleIndex) = true →
      data.slot.block1 = (offeredBundle r.offered).blk1 r.slot.tn ∧
        data.slot.block2 = (offeredBundle r.offered).blk2 r.slot.tn
  broadcast : busIsEnable (mem.entry r.slot.scheduleIndex) = true →
    busIsSdb (mem.entry r.slot.scheduleIndex) = false →
    busIsSignal (mem.entry r.slot.scheduleIndex) = false →
      (data.slot.block1, data.slot.block2) =
        banks.blocks (busIdx (mem.entry r.slot.scheduleIndex))
  /-- The bundle is from the last slot of the frame before; the first frame has none. -/
  preceding : ∀ p ∈ r.offered, p.1.tn = 3 ∧ p.1.next = { r.slot with tn := 0 }
  firstFrame : r.offered = none → r.slot = ⟨r.slot.tn, 0, 0, 0⟩

/-! The counters without loads. -/

/-- The slot pulses so far, and the slot of the newest pulse at a frame's last slot. -/
structure Counting (w : WatchedTimebase) (pulses : Nat) (newest : Option SlotTime) : Prop where
  free : w.timebase.syncLoadPending = false
  opening : w.opening = .none ↔ pulses = 0
  notLast : w.opening ≠ .atLastSlot
  before : w.opening = .none →
    w.timebase.cnt.tn = 0 ∨ w.timebase.cnt.tn = 1 ∧ ContentPath.edgeDue w.timebase = true
  latched : ∀ c ∈ newest, c.tn = 3 ∧
    if w.timebase.cnt.tn = 3 ∧ ContentPath.edgeDue w.timebase = false then c = w.timebase.cnt
    else c.next = { w.timebase.cnt with tn := 0 }
  unlatched : newest = none → w.timebase.cnt = ⟨w.timebase.cnt.tn, 0, 0, 0⟩ ∧
    (w.timebase.cnt.tn = 3 → ContentPath.edgeDue w.timebase = true)

theorem counting_start : Counting .start 0 none where
  free := rfl
  opening := by decide
  notLast := by decide
  before _ := Or.inl rfl
  latched := nofun
  unlatched _ := ⟨rfl, by decide⟩

/-- The next slot is of the same frame, or the first one of the next. -/
theorem next_keeps {c : SlotTime} (h : c.tn ≠ 3) : c.next = { c with tn := c.tn + 1 } := by
  rw [SlotTime.next, if_neg h]

theorem next_first {c : SlotTime} (h : c.tn = 3) : { c.next with tn := 0 } = c.next := by
  rw [← (ContentPath.next_frame h).1]

variable {mem : ScheduleMem} {s : ContentPath} {i : TimebaseInput × ContentInput} {pulses : Nat}
  {newest : Option SlotTime}

theorem Counting.at_pulse (h : Counting s.watch pulses newest) (hr : s.Refreshed mem)
    (hq : i.1.symEn = true → 15 ≤ s.watch.quiet) (hload : i.1.syncLoadStrobe = false)
    (hp : s.watch.timebase.slotPulse = true) : Counting (s.step mem i).watch (pulses + 1)
      (if s.watch.timebase.cnt.tn = 3 then some s.watch.timebase.cnt else newest) := by
  obtain ⟨-, hcnt', hdue'⟩ := hr.at_pulse hq hp
  have hdue : ContentPath.edgeDue s.watch.timebase = true := by
    rw [ContentPath.edgeDue, hp, Bool.or_true]
  have hopening : (s.step mem i).watch.opening = s.watch.nextOpening i.1 := rfl
  have hfree' : (s.step mem i).watch.timebase.syncLoadPending = false := by
    simp [ContentPath.step, WatchedTimebase.step, TdmaTimebase.step, hload, h.free]
  have hnone : (s.step mem i).watch.opening ≠ .none := by
    rw [hopening, Ne, WatchedTimebase.nextOpening_none, hp]
    exact fun hno => Bool.noConfusion hno.1
  refine ⟨hfree', iff_of_false hnone (Nat.succ_ne_zero _), ?_, fun hno => absurd hno hnone, ?_, ?_⟩
  · rw [hopening, Ne, WatchedTimebase.nextOpening_atLastSlot]
    rintro (⟨-, hno, hlast⟩ | ⟨hno, -⟩)
    · rcases h.before hno with htn | ⟨htn, -⟩ <;> rw [hlast] at htn <;> cases htn
    · rw [hp] at hno
      cases hno
  · rw [hcnt', hdue']
    intro c hc
    split at hc
    next hlast =>
      cases hc
      exact ⟨hlast, by rw [if_pos ⟨hlast, rfl⟩]⟩
    next hlast =>
      have hold := h.latched c hc
      rw [if_neg fun hno => hlast hno.1] at hold ⊢
      exact hold
  · rw [hcnt', hdue']
    intro hno
    split at hno
    next => cases hno
    next hlast => exact ⟨(h.unlatched hno).1, fun htn => absurd htn hlast⟩

theorem Counting.between (h : Counting s.watch pulses newest) (hr : s.Refreshed mem)
    (hq : i.1.symEn = true → 15 ≤ s.watch.quiet) (hload : i.1.syncLoadStrobe = false)
    (hp : s.watch.timebase.slotPulse = false) : Counting (s.step mem i).watch pulses newest := by
  have hcommit : s.watch.timebase.syncCommit i.1 = false := by
    simp [TdmaTimebase.syncCommit, hload, h.free]
  have hopening : (s.step mem i).watch.opening = s.watch.nextOpening i.1 := rfl
  have hfree' : (s.step mem i).watch.timebase.syncLoadPending = false := by
    simp [ContentPath.step, WatchedTimebase.step, TdmaTimebase.step, hload, h.free]
  have hkept : (s.step mem i).watch.opening = s.watch.opening := by
    rw [hopening, WatchedTimebase.nextOpening, hp, hcommit]
    simp
  refine ⟨hfree', by rw [hkept, h.opening], by rw [hkept]; exact h.notLast, ?_, ?_, ?_⟩
  · rw [hkept]
    intro hnone
    rcases hr.counters hq hp hcommit with ⟨hcnt', hdue'⟩ | ⟨hcnt', hdue, hdue'⟩
    · rw [hcnt', hdue']
      exact h.before hnone
    · rcases h.before hnone with htn | ⟨-, hno⟩
      · have hlast : s.watch.timebase.cnt.tn ≠ 3 := by
          rw [htn]
          decide
        rw [hcnt', hdue', next_keeps hlast, htn]
        exact Or.inr ⟨rfl, rfl⟩
      · rw [hdue] at hno
        cases hno
  · intro c hc
    obtain ⟨hctn, hold⟩ := h.latched c hc
    refine ⟨hctn, ?_⟩
    rcases hr.counters hq hp hcommit with ⟨hcnt', hdue'⟩ | ⟨hcnt', hdue, hdue'⟩
    · rw [hcnt', hdue']
      exact hold
    · rw [hcnt', hdue', if_neg fun hno => Bool.noConfusion hno.2]
      by_cases hlast : s.watch.timebase.cnt.tn = 3
      · rw [if_pos ⟨hlast, hdue⟩] at hold
        rw [hold, next_first hlast]
      · rw [if_neg fun hno => hlast hno.1] at hold
        rw [hold, next_keeps hlast]
  · intro hno
    obtain ⟨hzero, hlast⟩ := h.unlatched hno
    rcases hr.counters hq hp hcommit with ⟨hcnt', hdue'⟩ | ⟨hcnt', hdue, hdue'⟩
    · rw [hcnt', hdue']
      exact ⟨hzero, hlast⟩
    · have hne : s.watch.timebase.cnt.tn ≠ 3 := by
        intro htn
        rw [hlast htn] at hdue
        cases hdue
      rw [hcnt', hdue', next_keeps hne]
      exact ⟨by rw [hzero], fun _ => rfl⟩

/-- From the first slot pulse on the content multiplexer is aligned. -/
theorem Counting.aligned_step (h : Counting s.watch pulses newest) (ho : s.Opened mem)
    (hq : i.1.symEn = true → 15 ≤ s.watch.quiet) (hload : i.1.syncLoadStrobe = false)
    (halign : s.watch.opening ≠ .none → s.Aligned) (hbegun : (s.step mem i).watch.opening ≠ .none) :
    (s.step mem i).Aligned := by
  have hcommit : s.watch.timebase.syncCommit i.1 = false := by
    simp [TdmaTimebase.syncCommit, hload, h.free]
  by_cases hnone : s.watch.opening = .none
  · have hp : s.watch.timebase.slotPulse = true := by
      by_contra hno
      rw [Bool.not_eq_true] at hno
      exact hbegun (WatchedTimebase.nextOpening_none.2 ⟨hno, hnone⟩)
    refine ho.refreshed.aligned_of_pulse hq hp (iff_of_true (ho.first.2 hnone) fun hlast => ?_)
    rcases h.before hnone with htn | ⟨htn, -⟩ <;> rw [hlast] at htn <;> cases htn
  · have hfirst : s.content.firstRefreshPending = false := by
      rw [Bool.eq_false_iff, ho.first.ne]
      exact hnone
    exact ho.refreshed.aligned_step hq (halign hnone) hfirst hcommit

end WatchedDownlink

/-! The output registers. -/

namespace DownlinkPath
variable {mem : ScheduleMem} {banks : PayloadBanks} {s : DownlinkPath} {i : DownlinkInput}

/-- The content multiplexer's outputs are those of its entries and of the scheduler's bundle. -/
def Shown (banks : PayloadBanks) (s : DownlinkPath) : Prop :=
  ∀ k, s.content.content.slotEn k = busIsEnable (s.content.content.schedEntry k) ∧
    s.content.content.slotBurstType k = busIsSdb (s.content.content.schedEntry k) ∧
    s.content.content.slotNdb2 k =
      ndb2Mux (signalBundle s.sched) (s.content.content.schedEntry k) k ∧
    (s.content.content.txBlk1 k, s.content.content.txBlk2 k) =
      blkMux banks (signalBundle s.sched) (s.content.content.schedEntry k) k

theorem popTrigger_schedInput (t : TdmaTimebase) (i : DownlinkInput) :
    DlSignal.popTrigger (schedInput t i) = (t.slotPulse && decide (t.cnt.tn = 3)) := by
  have htn : ∀ x : BitVec 2, (x.toFin == (3 : Fin 4)) = decide (x = 3) := by decide
  exact congrArg (t.slotPulse && ·) (htn t.cnt.tn)

/-- The scheduler latches at the pulses of the last slots. -/
theorem signalBundle_kept
    (h : (s.content.watch.timebase.slotPulse && decide (s.content.watch.timebase.cnt.tn = 3)) =
      false) : signalBundle (s.schedNext i) = signalBundle s.sched := by
  rw [← popTrigger_schedInput _ i] at h
  simp [schedNext, DlSignal.schedStep, h, signalBundle]

/-- While nothing is captured or latched the outputs catch up. -/
theorem shown_step (hidle : s.content.content.state = .idle)
    (hp : s.content.watch.timebase.slotPulse = false) :
    Shown banks (s.step mem banks i) := by
  intro k
  have hentry : (s.step mem banks i).content.content.schedEntry k =
      s.content.content.schedEntry k := by
    simp [step, ContentPath.step, SlotContentMux.step, SlotContentMux.captures, hidle]
  have hbundle : signalBundle (s.step mem banks i).sched = signalBundle s.sched :=
    signalBundle_kept (by rw [hp, Bool.false_and])
  rw [hentry, hbundle]
  exact ⟨rfl, rfl, rfl, rfl⟩

end DownlinkPath

namespace WatchedDownlink

/-- What the multiplexer has latched for the pulse `r`, and what it will select. -/
structure Chosen (mem : ScheduleMem) (banks : PayloadBanks) (r : SlotRecord) (lat : SlotChoice)
    (s : SlotContentMux) : Prop where
  lat : lat = ⟨r.slot.tn, busIsEnable (mem.entry r.slot.scheduleIndex),
    busIsSdb (mem.entry r.slot.scheduleIndex),
    ndb2Mux (offeredBundle r.offered) (mem.entry r.slot.scheduleIndex) r.slot.tn⟩
  blocks : (s.txBlk1 r.slot.tn, s.txBlk2 r.slot.tn) =
    blkMux banks (offeredBundle r.offered) (mem.entry r.slot.scheduleIndex) r.slot.tn
  preceding : ∀ p ∈ r.offered, p.1.tn = 3 ∧ p.1.next = { r.slot with tn := 0 }
  firstFrame : r.offered = none → r.slot = ⟨r.slot.tn, 0, 0, 0⟩

theorem Chosen.ownEntry {mem : ScheduleMem} {banks : PayloadBanks} {r : SlotRecord}
    {lat : SlotChoice} {s : SlotContentMux} (h : Chosen mem banks r lat s) (sbBkn2 : BitVec 216) :
    OwnEntry mem banks r lat ((s.bus sbBkn2).data lat) := by
  obtain ⟨hlat, hblocks, hpre, hfirst⟩ := h
  subst hlat
  rw [blkMux] at hblocks
  refine ⟨rfl, rfl, rfl, rfl, ?_, ?_, ?_, hpre, hfirst⟩
  · intro hen
    simp [SlotBus.data, hen]
  · intro hen hsdb hsig
    rw [if_pos hsig, Prod.mk.injEq] at hblocks
    simpa [SlotBus.data, SlotContentMux.bus, hen, hsdb] using hblocks
  · intro hen hsdb hsig
    rw [hsig, if_neg Bool.false_ne_true] at hblocks
    simpa [SlotBus.data, SlotContentMux.bus, hen, hsdb] using hblocks

/-- Each slot pulse's burst is handed over once, in order, and from the second pulse on it is what
the pulse's own entry says. -/
structure HandsOver (mem : ScheduleMem) (banks : PayloadBanks) (w : WatchedDownlink) : Prop where
  numbers : w.handed.map (fun h => h.1.number) = List.range w.handed.length
  complete : w.pulses ≤ w.handed.length + 1
  own : ∀ h ∈ w.handed, 1 ≤ h.1.number → OwnEntry mem banks h.1 h.2.1 h.2.2

structure Inv (mem : ScheduleMem) (banks : PayloadBanks) (w : WatchedDownlink) : Prop where
  opened : w.path.content.Opened mem
  counting : Counting w.path.content.watch w.pulses (w.latched.map Prod.fst)
  aligned : w.path.content.watch.opening ≠ .none → w.path.content.Aligned
  bundle : signalBundle w.path.sched = offeredBundle w.latched
  shown : w.path.content.watch.quiet ≤ 1 → w.path.Shown banks
  buildReq : w.path.mux.buildReq = decide (w.path.mux.state = .req)
  pending : w.path.mux.state = .pending → w.path.content.watch.quiet = 2 ∧
    ∃ r, w.current = some r ∧ r.number + 1 = w.pulses ∧
      (1 ≤ r.number → Chosen mem banks r w.path.mux.lat w.path.content.content)
  req : w.path.mux.state = .req → w.path.content.watch.quiet = 3 ∧
    ∃ r, w.current = some r ∧ r.number + 1 = w.pulses ∧
      (1 ≤ r.number → OwnEntry mem banks r w.path.mux.lat w.path.mux.build)
  count : w.pulses = w.handed.length + if w.path.mux.state = .idle then 0 else 1
  handed : HandsOver mem banks w

variable {mem : ScheduleMem} {banks : PayloadBanks} {w : WatchedDownlink} {i : DownlinkInput}

theorem inv_start (port : SchedulePort) : Inv mem banks (start port) where
  opened := ContentPath.opened_start port
  counting := counting_start
  aligned h := absurd rfl h
  bundle := rfl
  shown h := absurd (show 15 ≤ 1 from h) (by decide : ¬ 15 ≤ 1)
  buildReq := rfl
  pending := nofun
  req := nofun
  count := rfl
  handed := ⟨rfl, Nat.zero_le _, fun h hh => absurd hh List.not_mem_nil⟩

/-- The content multiplexer has captured everything long before the next symbol. -/
theorem Inv.rest (h : Inv mem banks w)
    (hq : i.timebase.symEn = true → 15 ≤ w.path.content.watch.quiet)
    (hsoon : (w.step mem banks i).path.content.watch.quiet ≤ 1) :
    w.path.content.content.state = .idle ∧ w.path.content.watch.timebase.slotPulse = false := by
  have hfar : w.path.content.watch.quiet = 0 ∨ 15 ≤ w.path.content.watch.quiet := by
    cases hsym : i.timebase.symEn with
    | true => exact Or.inr (hq hsym)
    | false =>
      have hsucc : (w.step mem banks i).path.content.watch.quiet =
          w.path.content.watch.quiet + 1 := by
        simp [step, DownlinkPath.step, ContentPath.step, WatchedTimebase.step, since, hsym]
      omega
  constructor
  · by_contra hno
    have hphase := (h.opened.refreshed.phase hno).1
    have hle : SlotContentMux.loaded w.path.content.content.state ≤ 4 := by
      cases w.path.content.content.state <;> decide
    omega
  · exact h.opened.refreshed.no_pulse (by omega)

theorem Inv.counting_step (h : Inv mem banks w)
    (hq : i.timebase.symEn = true → 15 ≤ w.path.content.watch.quiet)
    (hload : i.timebase.syncLoadStrobe = false) :
    Counting (w.step mem banks i).path.content.watch (w.step mem banks i).pulses
      ((w.step mem banks i).latched.map Prod.fst) := by
  cases hp : w.path.content.watch.timebase.slotPulse with
  | false =>
    have hnext := h.counting.between (i := (i.timebase, ⟨banks, signalBundle w.path.sched,
      i.sb1Coded, i.aachCoded⟩)) h.opened.refreshed hq hload hp
    simpa [step, DownlinkPath.step, hp] using hnext
  | true =>
    have hnext := h.counting.at_pulse (i := (i.timebase, ⟨banks, signalBundle w.path.sched,
      i.sb1Coded, i.aachCoded⟩)) h.opened.refreshed hq hload hp
    by_cases hlast : w.path.content.watch.timebase.cnt.tn = 3
    · rw [if_pos hlast] at hnext
      simpa only [step, DownlinkPath.step, hp, decide_eq_true hlast, Bool.and_self, if_true,
        Option.map_some] using hnext
    · rw [if_neg hlast] at hnext
      simpa only [step, DownlinkPath.step, hp, decide_eq_false hlast, Bool.and_false, if_true,
        Bool.false_eq_true, if_false] using hnext

theorem Inv.bundle_step (h : Inv mem banks w) :
    signalBundle (w.step mem banks i).path.sched = offeredBundle (w.step mem banks i).latched := by
  have hsched : (w.step mem banks i).path.sched = w.path.schedNext i := rfl
  have hlatched : (w.step mem banks i).latched =
      if w.path.content.watch.timebase.slotPulse && w.path.content.watch.timebase.cnt.tn = 3 then
        some (w.path.content.watch.timebase.cnt, signalBundle (w.path.schedNext i))
      else w.latched := rfl
  rw [hsched, hlatched]
  cases htrig : w.path.content.watch.timebase.slotPulse &&
      decide (w.path.content.watch.timebase.cnt.tn = 3) with
  | true => rfl
  | false =>
    rw [if_neg Bool.false_ne_true, DownlinkPath.signalBundle_kept htrig]
    exact h.bundle

/-- A slot pulse. -/
theorem Inv.pending_step (h : Inv mem banks w)
    (hq : i.timebase.symEn = true → 15 ≤ w.path.content.watch.quiet)
    (hpend : (w.step mem banks i).path.mux.state = .pending) :
    (w.step mem banks i).path.content.watch.quiet = 2 ∧
    ∃ r, (w.step mem banks i).current = some r ∧ r.number + 1 = (w.step mem banks i).pulses ∧
      (1 ≤ r.number → Chosen mem banks r (w.step mem banks i).path.mux.lat
        (w.step mem banks i).path.content.content) := by
  obtain ⟨hidle, hp⟩ := BurstMux.nextState_pending.1 hpend
  have hone := h.opened.refreshed.pulse hp
  have hsym : i.timebase.symEn = false := WatchedTimebase.no_symbol hq (by omega)
  have hquiet : (w.step mem banks i).path.content.watch.quiet = 2 := by
    simp [step, DownlinkPath.step, ContentPath.step, WatchedTimebase.step, since, hsym, hone]
  refine ⟨hquiet, ⟨w.pulses, w.path.content.watch.timebase.cnt, w.latched⟩, by simp [step, hp],
    by simp [step, hp], fun hlater => ?_⟩
  have hbegun : w.path.content.watch.opening ≠ .none := by
    rw [Ne, h.counting.opening]
    exact Nat.pos_iff_ne_zero.1 hlater
  have hfirst : w.path.content.content.firstRefreshPending = false := by
    rw [Bool.eq_false_iff, h.opened.first.ne]
    exact hbegun
  have hentry := h.opened.refreshed.entry_of_aligned (h.aligned hbegun) hfirst hp
  obtain ⟨hen, htype, hndb2, -⟩ := h.shown (by omega) w.path.content.watch.timebase.cnt.tn
  have hdue : ContentPath.edgeDue w.path.content.watch.timebase = true := by
    rw [ContentPath.edgeDue, hp, Bool.or_true]
  have hlat : (w.step mem banks i).path.mux.lat =
      ⟨w.path.content.watch.timebase.cnt.tn,
        w.path.content.content.slotEn w.path.content.watch.timebase.cnt.tn,
        w.path.content.content.slotBurstType w.path.content.watch.timebase.cnt.tn,
        w.path.content.content.slotNdb2 w.path.content.watch.timebase.cnt.tn⟩ := by
    simp [step, DownlinkPath.step, BurstMux.step, SlotBus.choice, SlotContentMux.bus, hidle, hp]
  refine ⟨?_, ?_, ?_, ?_⟩
  · rw [hlat, hen, htype, hndb2, hentry, h.bundle]
  · rw [← h.bundle, ← hentry]
    rfl
  · intro p hmem
    obtain ⟨htn, hslot⟩ := h.counting.latched p.1 (Option.mem_map_of_mem Prod.fst hmem)
    rw [hdue, if_neg fun hno => Bool.noConfusion hno.2] at hslot
    exact ⟨htn, hslot⟩
  · intro hnone
    have hnewest : w.latched = none := hnone
    exact (h.counting.unlatched (by rw [hnewest]; rfl)).1

/-- The cycle after a slot pulse: the data are selected. -/
theorem Inv.req_step (h : Inv mem banks w)
    (hq : i.timebase.symEn = true → 15 ≤ w.path.content.watch.quiet)
    (hreq : (w.step mem banks i).path.mux.state = .req) :
    (w.step mem banks i).path.content.watch.quiet = 3 ∧
    ∃ r, (w.step mem banks i).current = some r ∧ r.number + 1 = (w.step mem banks i).pulses ∧
      (1 ≤ r.number → OwnEntry mem banks r (w.step mem banks i).path.mux.lat
        (w.step mem banks i).path.mux.build) := by
  have hstate := BurstMux.nextState_req.1 hreq
  obtain ⟨htwo, r, hcur, hnumber, hchosen⟩ := h.pending hstate
  have hsym : i.timebase.symEn = false := WatchedTimebase.no_symbol hq (by omega)
  have hp := h.opened.refreshed.no_pulse (by omega)
  have hlat : (w.step mem banks i).path.mux.lat = w.path.mux.lat := by
    simp [step, DownlinkPath.step, BurstMux.step, hstate]
  have hbuild : (w.step mem banks i).path.mux.build =
      (w.path.content.content.bus i.sbBkn2).data w.path.mux.lat := by
    simp [step, DownlinkPath.step, BurstMux.step, BurstMux.nextState_req, hstate]
  refine ⟨?_, r, by simp [step, hp, hcur], by simp [step, hp, hnumber], fun hlater => ?_⟩
  · simp [step, DownlinkPath.step, ContentPath.step, WatchedTimebase.step, since, hsym, htwo]
  · rw [hlat, hbuild]
    exact (hchosen hlater).ownEntry i.sbBkn2

/-- The next state of the multiplexer, as far as the pulses' count goes. -/
theorem Inv.count_step (h : Inv mem banks w) :
    (w.step mem banks i).pulses = (w.step mem banks i).handed.length +
      if (w.step mem banks i).path.mux.state = .idle then 0 else 1 := by
  have hnext : (w.step mem banks i).path.mux.state =
      w.path.mux.nextState w.path.content.watch.timebase.slotPulse := rfl
  have hcount := h.count
  rw [hnext, BurstMux.nextState]
  cases hstate : w.path.mux.state with
  | idle =>
    rw [hstate, if_pos rfl] at hcount
    have hreq : w.path.mux.buildReq = false := by
      rw [h.buildReq, hstate]
      rfl
    cases hp : w.path.content.watch.timebase.slotPulse <;> simp [step, hreq, hp, hcount]
  | pending =>
    have htwo := (h.pending hstate).1
    have hp := h.opened.refreshed.no_pulse (by omega)
    have hreq : w.path.mux.buildReq = false := by
      rw [h.buildReq, hstate]
      rfl
    rw [hstate] at hcount
    simpa [step, hreq, hp] using hcount
  | req =>
    obtain ⟨hthree, r, hcur, -⟩ := h.req hstate
    have hp := h.opened.refreshed.no_pulse (by omega)
    have hreq : w.path.mux.buildReq = true := by
      rw [h.buildReq, hstate]
      rfl
    rw [hstate] at hcount
    simpa [step, hreq, hp, hcur] using hcount

theorem Inv.handed_step (h : Inv mem banks w) : HandsOver mem banks (w.step mem banks i) := by
  have hcomplete : (w.step mem banks i).pulses ≤ (w.step mem banks i).handed.length + 1 := by
    rw [h.count_step]
    split <;> omega
  have hhanded : (w.step mem banks i).handed = if w.path.mux.buildReq then
      w.handed ++ (w.current.map fun r => (r, w.path.mux.lat, w.path.mux.build)).toList
    else w.handed := rfl
  obtain ⟨hnumbers, -, hown⟩ := h.handed
  cases hreq : w.path.mux.buildReq with
  | false =>
    rw [hreq, if_neg Bool.false_ne_true] at hhanded
    exact ⟨by rw [hhanded, hnumbers], hcomplete, by rw [hhanded]; exact hown⟩
  | true =>
    have hstate : w.path.mux.state = .req := by simpa [h.buildReq] using hreq
    obtain ⟨-, r, hcur, hnumber, hright⟩ := h.req hstate
    have hcount := h.count
    rw [hstate, if_neg (by decide)] at hcount
    rw [hreq, if_pos rfl, hcur, Option.map_some, Option.toList_some] at hhanded
    refine ⟨?_, hcomplete, ?_⟩
    · rw [hhanded, List.map_append, hnumbers, List.length_append, List.length_singleton,
        List.range_succ, List.map_singleton, (by omega : r.number = w.handed.length)]
    · rw [hhanded]
      intro p hmem hlater
      rw [List.mem_append, List.mem_singleton] at hmem
      rcases hmem with hmem | rfl
      · exact hown p hmem hlater
      · exact hright hlater

theorem Inv.step (h : Inv mem banks w)
    (hq : i.timebase.symEn = true → 15 ≤ w.path.content.watch.quiet)
    (hload : i.timebase.syncLoadStrobe = false) : Inv mem banks (w.step mem banks i) where
  opened := h.opened.step hq
  counting := h.counting_step hq hload
  aligned := h.counting.aligned_step h.opened hq hload h.aligned
  bundle := h.bundle_step
  shown hsoon := DownlinkPath.shown_step (h.rest hq hsoon).1 (h.rest hq hsoon).2
  buildReq := rfl
  pending := h.pending_step hq
  req := h.req_step hq
  count := h.count_step
  handed := h.handed_step

/-- Two symbols, 16 cycles apart. -/
def twoSymbols : List DownlinkInput :=
  let cycle (symEn : Bool) : DownlinkInput :=
    ⟨⟨symEn, false, ⟨0, 0, 0, 0⟩⟩, none, 0, 0, 0, 0, 0⟩
  cycle true :: List.replicate 15 (cycle false) ++ [cycle true]

end WatchedDownlink
end TetraBs.Lmac
