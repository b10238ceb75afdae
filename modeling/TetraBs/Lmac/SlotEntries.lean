import TetraBs.Lmac.SlotContent

/-! Which frame's entries the content multiplexer holds at each slot pulse. -/
namespace TetraBs.Lmac
open TetraBs.Pacing TetraBs.Run

theorem SchedulePort.step_entry (mem : ScheduleMem) (addr : BitVec 9) :
    (SchedulePort.step mem addr).scheduleEntry = mem.entry addr.toNat := by
  have hlsb : addr.getLsbD 0 = decide (addr.toNat % 2 = 1) := by
    rw [BitVec.getLsbD, Nat.testBit_zero]
  have hword : addr.extractLsb' 1 8 = BitVec.ofNat 8 (addr.toNat / 2) := by
    apply BitVec.eq_of_toNat_eq
    simp [BitVec.extractLsb'_toNat, Nat.shiftRight_eq_div_pow]
  rw [scheduleEntry, step, ScheduleMem.entry, hlsb, hword]
  simp

namespace SlotContentMux

theorem schedAddr_toNat (fn : BitVec 5) (mnLow2 k : BitVec 2) :
    (baseAddr fn mnLow2 + (0#7 ++ k)).toNat = mnLow2.toNat * 72 + fn.toNat * 4 + k.toNat := by
  have hm := mnLow2.isLt
  have hf := fn.isLt
  have hk := k.isLt
  rw [baseAddr]
  simp only [BitVec.toNat_add, BitVec.toNat_append, BitVec.toNat_ofNat, Nat.zero_mod,
    Nat.shiftLeft_eq, Nat.zero_mul, Nat.zero_or, Nat.or_zero]
  omega

/-- The entries that a refresh has captured, in all phases. -/
def loaded : RefreshPhase → Nat
  | .rd0 => 0
  | .rd1 => 1
  | .rd2 => 2
  | .rd3 => 3
  | .cap3 => 4
  | .idle => 4

theorem captures_iff (p : RefreshPhase) (k : BitVec 2) :
    captures p = some k ↔ loaded p = k.toNat := by
  cases p <;> revert k <;> decide

/-- The address of a read is that of the entry that the next phase captures. -/
theorem tnForAddr_of_captures {s : SlotContentMux} {t : TdmaTimebase} {k : BitVec 2}
    (h : captures (s.nextState t) = some k) : s.tnForAddr t = k := by
  rw [tnForAddr]
  cases hnext : s.nextState t <;> rw [hnext] at h <;> cases h <;> rfl

theorem nextState_loaded {s : SlotContentMux} (h : s.state ≠ .idle) (t : TdmaTimebase) :
    (s.nextState t ≠ .idle → loaded (s.nextState t) = loaded s.state + 1) ∧
      loaded (s.nextState t) ≤ loaded s.state + 1 := by
  rw [nextState]
  cases hstate : s.state with
  | idle => exact absurd hstate h
  | rd0 => simp [loaded]
  | rd1 => simp [loaded]
  | rd2 => simp [loaded]
  | rd3 => simp [loaded]
  | cap3 => simp [loaded]

/-- The number of slot `k`'s entry in the frame that is refreshed. -/
def target (s : SlotContentMux) (k : BitVec 2) : Nat :=
  s.refreshMnLow2.toNat * 72 + s.refreshFn.toNat * 4 + k.toNat

end SlotContentMux

namespace ContentPath

/-- What has been captured is of the frame that is refreshed, and what is captured next is on the
port. -/
structure Refreshed (mem : ScheduleMem) (s : ContentPath) : Prop where
  tick : s.watch.timebase.tdmaTick = true → s.watch.quiet = 0
  pulse : s.watch.timebase.slotPulse = true → s.watch.quiet = 1
  phase : s.content.state ≠ .idle →
    s.watch.quiet = 2 + SlotContentMux.loaded s.content.state ∧
      s.content.firstRefreshPending = false
  entries : s.content.firstRefreshPending = false →
    ∀ k : BitVec 2, k.toNat < SlotContentMux.loaded s.content.state →
      s.content.schedEntry k = mem.entry (s.content.target k)
  port : ∀ k, SlotContentMux.captures s.content.state = some k →
    s.port.scheduleEntry = mem.entry (s.content.target k)

variable {mem : ScheduleMem} {s : ContentPath} {i : TimebaseInput × ContentInput}

theorem refreshed_start (port : SchedulePort) : Refreshed mem (start port) :=
  ⟨nofun, nofun, fun h => absurd rfl h, nofun, nofun⟩

theorem Refreshed.no_tick (h : Refreshed mem s) (hne : s.watch.quiet ≠ 0) :
    s.watch.timebase.tdmaTick = false :=
  Bool.eq_false_iff.2 (mt h.tick hne)

theorem Refreshed.no_pulse (h : Refreshed mem s) (hne : s.watch.quiet ≠ 1) :
    s.watch.timebase.slotPulse = false :=
  Bool.eq_false_iff.2 (mt h.pulse hne)

theorem step_port (mem : ScheduleMem) (s : ContentPath) (i : TimebaseInput × ContentInput) :
    (s.step mem i).port.scheduleEntry =
      mem.entry ((s.step mem i).content.target (s.content.tnForAddr s.watch.timebase)) := by
  have hport : (s.step mem i).port =
    SchedulePort.step mem (s.content.schedAddr s.watch.timebase) := rfl
  rw [hport, SchedulePort.step_entry, SlotContentMux.schedAddr, SlotContentMux.schedAddr_toNat]
  rfl

theorem Refreshed.idle_of_pulse (h : Refreshed mem s) (hp : s.watch.timebase.slotPulse = true) :
    s.content.state = .idle := by
  by_contra hno
  have hphase := (h.phase hno).1
  have hone := h.pulse hp
  omega

/-- An idle multiplexer begins to read or goes on as it was. -/
theorem step_idle (s : ContentPath) (mem : ScheduleMem) (i : TimebaseInput × ContentInput)
    (hstate : s.content.state = .idle) :
    ((s.step mem i).content.state = .rd0 ∧ s.watch.timebase.slotPulse = true ∧
      (s.step mem i).content.firstRefreshPending = false) ∨
    ((s.step mem i).content.state = .idle ∧
      (s.step mem i).content.target = s.content.target ∧
      (s.step mem i).content.schedEntry = s.content.schedEntry ∧
      (s.step mem i).content.firstRefreshPending = s.content.firstRefreshPending) := by
  cases htrig : s.content.refreshTrigger s.watch.timebase with
  | true =>
    have hpulse : s.watch.timebase.slotPulse = true := by
      rw [SlotContentMux.refreshTrigger, Bool.and_eq_true] at htrig
      exact htrig.1
    left
    cases hfirst : s.content.firstRefreshPending <;>
      simp [step, SlotContentMux.step, SlotContentMux.nextState, hstate, htrig, hpulse, hfirst]
  | false =>
    right
    refine ⟨?_, ?_, ?_, ?_⟩
    · simp [step, SlotContentMux.step, SlotContentMux.nextState, hstate, htrig]
    · funext k
      simp [step, SlotContentMux.step, SlotContentMux.target, SlotContentMux.effFn,
        SlotContentMux.effMnLow2, htrig]
    · funext k
      simp [step, SlotContentMux.step, SlotContentMux.captures, hstate]
    · simp [step, SlotContentMux.step, htrig]

/-- A multiplexer that reads keeps its frame. -/
theorem step_reading (hstate : s.content.state ≠ .idle) :
    (s.step mem i).content.target = s.content.target ∧
      (s.step mem i).content.firstRefreshPending = s.content.firstRefreshPending := by
  refine ⟨funext fun k => ?_, ?_⟩
  · simp [step, SlotContentMux.step, SlotContentMux.target, SlotContentMux.effFn,
      SlotContentMux.effMnLow2, hstate]
  · simp [step, SlotContentMux.step, hstate]

/-- The entry on the port is captured next to those that were captured before. -/
theorem Refreshed.entries_reading (h : Refreshed mem s) (hstate : s.content.state ≠ .idle)
    {k : BitVec 2} (hk : k.toNat < SlotContentMux.loaded (s.step mem i).content.state) :
    (s.step mem i).content.schedEntry k = mem.entry (s.content.target k) := by
  have hentry : (s.step mem i).content.schedEntry k =
      if SlotContentMux.captures s.content.state = some k then s.port.scheduleEntry
      else s.content.schedEntry k := rfl
  rw [hentry]
  split
  next hcap => exact h.port k hcap
  next hcap =>
    refine h.entries (h.phase hstate).2 k ?_
    have hle := (SlotContentMux.nextState_loaded hstate s.watch.timebase).2
    rw [SlotContentMux.captures_iff] at hcap
    have hlt : k.toNat < SlotContentMux.loaded (s.content.nextState s.watch.timebase) := hk
    omega

theorem Refreshed.step (h : Refreshed mem s) (hq : i.1.symEn = true → 15 ≤ s.watch.quiet) :
    Refreshed mem (s.step mem i) := by
  have hwait : i.1.symEn = false → (s.step mem i).watch.quiet = s.watch.quiet + 1 := by
    intro hsym
    simp [ContentPath.step, WatchedTimebase.step, since, hsym]
  refine ⟨?_, ?_, ?_, ?_, ?_⟩
  · intro htick
    have hsym := TdmaTimebase.symEn_of_tick htick
    simp [ContentPath.step, WatchedTimebase.step, since, hsym]
  · intro hpulse
    have hzero := h.tick hpulse
    have hsym : i.1.symEn = false := WatchedTimebase.no_symbol hq (by omega)
    rw [hwait hsym, hzero]
  · intro hstate'
    by_cases hstate : s.content.state = .idle
    · rcases s.step_idle mem i hstate with ⟨hrd0, hpulse, hfirst⟩ | ⟨hno, -⟩
      · have hone := h.pulse hpulse
        have hsym : i.1.symEn = false := WatchedTimebase.no_symbol hq (by omega)
        rw [hwait hsym, hone, hrd0, hfirst]
        exact ⟨rfl, rfl⟩
      · exact absurd hno hstate'
    · obtain ⟨hquiet, hfirst⟩ := h.phase hstate
      have hle : SlotContentMux.loaded s.content.state ≤ 4 := by
        cases s.content.state <;> decide
      have hsym : i.1.symEn = false := WatchedTimebase.no_symbol hq (by omega)
      have hnext : SlotContentMux.loaded (s.step mem i).content.state =
          SlotContentMux.loaded s.content.state + 1 :=
        (SlotContentMux.nextState_loaded hstate s.watch.timebase).1 hstate'
      rw [hwait hsym, hquiet, hnext, (step_reading hstate).2]
      exact ⟨by omega, hfirst⟩
  · intro hfirst k hk
    by_cases hstate : s.content.state = .idle
    · rcases s.step_idle mem i hstate with
        ⟨hrd0, -, -⟩ | ⟨-, htarget, hentry, hfirst'⟩
      · rw [hrd0] at hk
        exact absurd hk (Nat.not_lt_zero _)
      · rw [htarget, hentry]
        refine h.entries (hfirst'.symm.trans hfirst) k ?_
        rw [hstate]
        exact k.isLt
    · rw [(step_reading hstate).1]
      exact h.entries_reading hstate hk
  · intro k hcap
    rw [step_port, SlotContentMux.tnForAddr_of_captures hcap]

/-! Loads in range keep the reads within the table. -/

structure InTable (s : ContentPath) : Prop where
  cnt : s.watch.timebase.cnt.InRange
  shadow : s.watch.timebase.syncShadow.InRange
  refreshFn : s.content.refreshFn ≤ 17

theorem InTable.effFn (h : InTable s) : s.content.effFn s.watch.timebase ≤ 17 := by
  have hfn := h.cnt.1
  have hnext : SlotContentMux.fnNext s.watch.timebase.cnt ≤ 17 := by
    rw [SlotContentMux.fnNext, SlotContentMux.fnWrap]
    by_cases hwrap : s.watch.timebase.cnt.fn = 17
    · simp [hwrap]
    · rw [decide_eq_false hwrap, if_neg Bool.false_ne_true]
      bv_omega
  rw [SlotContentMux.effFn]
  split
  · split
    · exact hfn
    · exact hnext
  · exact h.refreshFn

theorem InTable.step (h : InTable s) (hi : i.1.syncLoadStrobe = true → i.1.sync.InRange) :
    InTable (s.step mem i) := by
  obtain ⟨hcnt, hshadow⟩ := TdmaTimebase.step_inRange ⟨h.cnt, h.shadow⟩ hi
  exact ⟨hcnt, hshadow, h.effFn⟩

theorem InTable.schedAddr (h : InTable s) :
    (s.content.schedAddr s.watch.timebase).toNat < 288 := by
  have hfn := h.effFn
  have hm := (s.content.effMnLow2 s.watch.timebase).isLt
  have hk := (s.content.tnForAddr s.watch.timebase).isLt
  have h17 : (17 : BitVec 5).toNat = 17 := rfl
  rw [BitVec.le_def, h17] at hfn
  rw [SlotContentMux.schedAddr, SlotContentMux.schedAddr_toNat]
  omega

theorem inTable_start (port : SchedulePort) : InTable (start port) := by
  have hzero : (⟨0, 0, 0, 0⟩ : SlotTime).InRange := ⟨by decide, by decide⟩
  have hfn : (0 : BitVec 5) ≤ 17 := by decide
  exact ⟨hzero, hzero, hfn⟩

theorem reads_in_table (mem : ScheduleMem) (port : SchedulePort)
    {is : List (TimebaseInput × ContentInput)}
    (hin : ∀ i ∈ is, i.1.syncLoadStrobe = true → i.1.sync.InRange) :
    InTable (exec (step mem) (start port) is) :=
  exec_invariant InTable (fun _ _ h hi => h.step hi) (inTable_start port)
    (along_of_forall (fun i hi _ => hin i hi) _)

/-! The frame that is refreshed against the counters. -/

/-- The last slot edge has not led to its pulse's effects. -/
def edgeDue (t : TdmaTimebase) : Bool := t.tdmaTick || t.slotPulse

/-- The multiplexer holds the frame of the current slot; after the pulse of a frame's last slot it
holds, or reads, the next frame. -/
def Aligned (s : ContentPath) : Prop :=
  let c := s.watch.timebase.cnt
  if c.tn = 3 ∧ edgeDue s.watch.timebase = false then
    s.content.refreshFn = SlotContentMux.fnNext c ∧
      s.content.refreshMnLow2 = SlotContentMux.mnNextLow2 c
  else s.content.refreshFn = c.fn ∧ s.content.refreshMnLow2 = c.mn.extractLsb' 0 2

theorem low2_succ (x : BitVec 6) : (x + 1).extractLsb' 0 2 = x.extractLsb' 0 2 + 1 := by
  have h6 : (1 : BitVec 6).toNat = 1 := rfl
  have h2 : (1 : BitVec 2).toNat = 1 := rfl
  apply BitVec.eq_of_toNat_eq
  simp only [BitVec.extractLsb'_toNat, BitVec.toNat_add, Nat.shiftRight_zero, h6, h2]
  omega

/-- The counters wrap as the multiplexer expects. -/
theorem next_frame {c : SlotTime} (h : c.tn = 3) : c.next.tn = 0 ∧
    c.next.fn = SlotContentMux.fnNext c ∧
      c.next.mn.extractLsb' 0 2 = SlotContentMux.mnNextLow2 c := by
  rw [SlotTime.next, if_pos h, SlotContentMux.fnNext, SlotContentMux.mnNextLow2,
    SlotContentMux.fnWrap]
  by_cases hfn : c.fn = 17
  · rw [if_pos hfn]
    by_cases hmn : c.mn = 59
    · rw [if_pos hmn, hmn]
      simp [hfn]
    · rw [if_neg hmn]
      simp only [hfn, decide_true, if_true, low2_succ, and_self]
  · rw [if_neg hfn]
    simp only [hfn, decide_false, Bool.false_eq_true, if_false, and_self]

theorem next_slot {c : SlotTime} (h : c.tn ≠ 3) :
    c.next.tn = c.tn + 1 ∧ c.next.fn = c.fn ∧ c.next.mn = c.mn := by
  rw [SlotTime.next, if_neg h]
  exact ⟨rfl, rfl, rfl⟩

/-- Without a trigger the frame stays. -/
theorem step_frame_kept (mem : ScheduleMem) (i : TimebaseInput × ContentInput)
    (htrig : s.content.refreshTrigger s.watch.timebase = false) :
    (s.step mem i).content.refreshFn = s.content.refreshFn ∧
      (s.step mem i).content.refreshMnLow2 = s.content.refreshMnLow2 := by
  simp [step, SlotContentMux.step, SlotContentMux.effFn, SlotContentMux.effMnLow2, htrig]

/-- At a pulse the counters stand still. -/
theorem Refreshed.at_pulse (h : Refreshed mem s) (hq : i.1.symEn = true → 15 ≤ s.watch.quiet)
    (hp : s.watch.timebase.slotPulse = true) :
    s.content.state = .idle ∧ (s.step mem i).watch.timebase.cnt = s.watch.timebase.cnt ∧
      edgeDue (s.step mem i).watch.timebase = false := by
  have hone := h.pulse hp
  have hsym : i.1.symEn = false := WatchedTimebase.no_symbol hq (by omega)
  have htick := h.no_tick (by omega)
  refine ⟨h.idle_of_pulse hp, ?_, ?_⟩
  · simp [ContentPath.step, WatchedTimebase.step, TdmaTimebase.step_quiet hsym]
  · simp [edgeDue, ContentPath.step, WatchedTimebase.step, TdmaTimebase.step_quiet hsym, htick]

/-- The first pulse, if it does not find a frame's last slot, and every later pulse of a last slot
align the multiplexer. -/
theorem Refreshed.aligned_of_pulse (h : Refreshed mem s)
    (hq : i.1.symEn = true → 15 ≤ s.watch.quiet) (hp : s.watch.timebase.slotPulse = true)
    (htn : s.content.firstRefreshPending = true ↔ s.watch.timebase.cnt.tn ≠ 3) :
    Aligned (s.step mem i) := by
  obtain ⟨hstate, hcnt', hdue'⟩ := h.at_pulse hq hp
  have hfn' : (s.step mem i).content.refreshFn = s.content.effFn s.watch.timebase := rfl
  have hmn' : (s.step mem i).content.refreshMnLow2 = s.content.effMnLow2 s.watch.timebase := rfl
  rw [Aligned, hcnt', hdue', hfn', hmn', SlotContentMux.effFn, SlotContentMux.effMnLow2,
    SlotContentMux.refreshTrigger, hp, hstate]
  by_cases hlast : s.watch.timebase.cnt.tn = 3
  · have hfirst : s.content.firstRefreshPending = false := by
      rw [Bool.eq_false_iff]
      exact fun hno => htn.1 hno hlast
    simp [hlast, hfirst]
  · have hfirst := htn.2 hlast
    simp only [hlast, hfirst]
    simp

/-- Between the pulses the counters stand still, or a slot edge comes. -/
theorem Refreshed.counters (h : Refreshed mem s) (hq : i.1.symEn = true → 15 ≤ s.watch.quiet)
    (hp : s.watch.timebase.slotPulse = false)
    (hcommit : s.watch.timebase.syncCommit i.1 = false) :
    ((s.step mem i).watch.timebase.cnt = s.watch.timebase.cnt ∧
      edgeDue (s.step mem i).watch.timebase = edgeDue s.watch.timebase) ∨
    ((s.step mem i).watch.timebase.cnt = s.watch.timebase.cnt.next ∧
      edgeDue s.watch.timebase = false ∧ edgeDue (s.step mem i).watch.timebase = true) := by
  have htimebase : (s.step mem i).watch.timebase = s.watch.timebase.step i.1 := rfl
  rw [htimebase, edgeDue, edgeDue, hp, Bool.or_false]
  cases hsym : i.1.symEn with
  | false =>
    left
    rw [TdmaTimebase.step_quiet hsym, Bool.false_or]
    exact ⟨rfl, rfl⟩
  | true =>
    have hlong := hq hsym
    have htick := h.no_tick (by omega)
    have hload : i.1.syncLoadStrobe = false ∧ s.watch.timebase.syncLoadPending = false := by
      simpa [TdmaTimebase.syncCommit, hsym, and_comm] using hcommit
    rw [TdmaTimebase.step_count hsym hload.1 hload.2, htick, Bool.or_false]
    by_cases hedge : s.watch.timebase.symCnt = 254
    · right
      rw [decide_eq_true hedge, if_pos hedge, if_pos hedge]
      exact ⟨rfl, rfl, rfl⟩
    · left
      rw [decide_eq_false hedge, if_neg hedge, if_neg hedge]
      exact ⟨rfl, rfl⟩

/-- Without a load and after the first pulse an aligned multiplexer stays aligned. -/
theorem Refreshed.aligned_step (h : Refreshed mem s)
    (hq : i.1.symEn = true → 15 ≤ s.watch.quiet) (halign : Aligned s)
    (hfirst : s.content.firstRefreshPending = false)
    (hcommit : s.watch.timebase.syncCommit i.1 = false) : Aligned (s.step mem i) := by
  cases hp : s.watch.timebase.slotPulse with
  | true =>
    by_cases hlast : s.watch.timebase.cnt.tn = 3
    · exact h.aligned_of_pulse hq hp (by simp [hfirst, hlast])
    · obtain ⟨hstate, hcnt', hdue'⟩ := h.at_pulse hq hp
      have htrig : s.content.refreshTrigger s.watch.timebase = false := by
        rw [SlotContentMux.refreshTrigger, hfirst, decide_eq_false hlast]
        simp
      obtain ⟨hfn', hmn'⟩ := step_frame_kept mem i htrig
      rw [Aligned, if_neg fun hno => hlast hno.1] at halign
      rw [Aligned, hcnt', hfn', hmn', if_neg fun hno => hlast hno.1]
      exact halign
  | false =>
    have htrig : s.content.refreshTrigger s.watch.timebase = false := by
      rw [SlotContentMux.refreshTrigger, hp]
      rfl
    obtain ⟨hfn', hmn'⟩ := step_frame_kept mem i htrig
    rw [Aligned, hfn', hmn']
    rw [Aligned] at halign
    rcases h.counters hq hp hcommit with ⟨hcnt', hdue'⟩ | ⟨hcnt', hdue, hdue'⟩
    · rw [hcnt', hdue']
      exact halign
    · -- the slot edge: what was the next frame is the current one
      rw [hdue] at halign
      rw [hcnt', hdue', if_neg fun hno => Bool.noConfusion hno.2]
      by_cases hlast : s.watch.timebase.cnt.tn = 3
      · obtain ⟨-, hfn, hmn⟩ := next_frame hlast
        rw [if_pos ⟨hlast, rfl⟩] at halign
        rw [hfn, hmn]
        exact halign
      · obtain ⟨-, hfn, hmn⟩ := next_slot hlast
        rw [if_neg fun hno => hlast hno.1] at halign
        rw [hfn, hmn]
        exact halign

/-- At a pulse an aligned multiplexer holds the entry of the slot. -/
theorem Refreshed.entry_of_aligned (h : Refreshed mem s) (halign : Aligned s)
    (hfirst : s.content.firstRefreshPending = false) (hp : s.watch.timebase.slotPulse = true) :
    s.content.schedEntry s.watch.timebase.cnt.tn =
      mem.entry s.watch.timebase.cnt.scheduleIndex := by
  have hdue : edgeDue s.watch.timebase = true := by rw [edgeDue, hp, Bool.or_true]
  rw [Aligned, hdue, if_neg fun hno => Bool.noConfusion hno.2] at halign
  have hidle := h.idle_of_pulse hp
  rw [h.entries hfirst _ (by rw [hidle]; exact BitVec.isLt _), SlotContentMux.target, halign.1,
    halign.2, SlotTime.scheduleIndex, BitVec.extractLsb'_toNat]
  rfl

/-- What holds of every run. -/
structure Opened (mem : ScheduleMem) (s : ContentPath) : Prop where
  refreshed : Refreshed mem s
  first : s.content.firstRefreshPending = true ↔ s.watch.opening = .none
  unsettled : s.watch.opening = .none → s.watch.settled = false
  last : s.watch.opening = .atLastSlot → s.watch.settled = true ∧
    if edgeDue s.watch.timebase then s.watch.timebase.cnt.tn = 0 ∧
      s.content.target 0 ≠ s.watch.timebase.cnt.scheduleIndex
    else s.watch.timebase.cnt.tn = 3 ∧ s.content.refreshFn = s.watch.timebase.cnt.fn ∧
      s.content.refreshMnLow2 = s.watch.timebase.cnt.mn.extractLsb' 0 2

/-- The next frame's entries are not those of this frame. -/
theorem next_frame_ne {c : SlotTime} (h : c.tn = 3) :
    (c.mn.extractLsb' 0 2).toNat * 72 + c.fn.toNat * 4 ≠ c.next.scheduleIndex := by
  obtain ⟨htn, hfn, hmn⟩ := next_frame h
  have hlow : c.next.mn.toNat % 4 = (c.next.mn.extractLsb' 0 2).toNat := by
    rw [BitVec.extractLsb'_toNat]
    rfl
  have hm := (c.mn.extractLsb' 0 2).isLt
  have hf := c.fn.isLt
  have h5 : (0 : BitVec 5).toNat = 0 := rfl
  have h2 : (0 : BitVec 2).toNat = 0 := rfl
  rw [SlotTime.scheduleIndex, hlow, hmn, hfn, htn, SlotContentMux.mnNextLow2,
    SlotContentMux.fnNext]
  by_cases hwrap : SlotContentMux.fnWrap c = true
  · have hlast : c.fn.toNat = 17 := congrArg BitVec.toNat (of_decide_eq_true hwrap)
    have hsucc : (c.mn.extractLsb' 0 2 + 1).toNat = ((c.mn.extractLsb' 0 2).toNat + 1) % 4 := by
      rw [BitVec.toNat_add]
      rfl
    rw [if_pos hwrap, if_pos hwrap, hsucc, hlast, h5, h2]
    omega
  · have hsucc : (c.fn + 1).toNat = (c.fn.toNat + 1) % 32 := by
      rw [BitVec.toNat_add]
      rfl
    rw [if_neg hwrap, if_neg hwrap, hsucc, h2]
    omega

theorem opened_start (port : SchedulePort) : Opened mem (start port) :=
  ⟨refreshed_start port, iff_of_true rfl rfl, fun _ => rfl, nofun⟩

theorem Opened.step_first (h : Opened mem s) :
    (s.step mem i).content.firstRefreshPending = true ↔ (s.step mem i).watch.opening = .none := by
  have hopening : (s.step mem i).watch.opening = s.watch.nextOpening i.1 := rfl
  rw [hopening, WatchedTimebase.nextOpening_none, ← h.first]
  cases hp : s.watch.timebase.slotPulse with
  | true =>
    have hidle := h.refreshed.idle_of_pulse hp
    cases hf : s.content.firstRefreshPending <;>
      simp [step, SlotContentMux.step, SlotContentMux.refreshTrigger, hp, hidle, hf]
  | false => simp [step, SlotContentMux.step, SlotContentMux.refreshTrigger, hp]

theorem Opened.step_last (h : Opened mem s) (hq : i.1.symEn = true → 15 ≤ s.watch.quiet)
    (hlast : (s.step mem i).watch.opening = .atLastSlot) :
    (s.step mem i).watch.settled = true ∧
    if edgeDue (s.step mem i).watch.timebase then (s.step mem i).watch.timebase.cnt.tn = 0 ∧
      (s.step mem i).content.target 0 ≠ (s.step mem i).watch.timebase.cnt.scheduleIndex
    else (s.step mem i).watch.timebase.cnt.tn = 3 ∧
      (s.step mem i).content.refreshFn = (s.step mem i).watch.timebase.cnt.fn ∧
      (s.step mem i).content.refreshMnLow2 =
        (s.step mem i).watch.timebase.cnt.mn.extractLsb' 0 2 := by
  rcases WatchedTimebase.nextOpening_atLastSlot.1 hlast with ⟨hp, hnone, htn⟩ | ⟨hp, hop, hcommit⟩
  · -- the first pulse finds a last slot and reads this frame
    obtain ⟨hidle, hcnt', hdue'⟩ := h.refreshed.at_pulse hq hp
    have hone := h.refreshed.pulse hp
    have hsym : i.1.symEn = false := WatchedTimebase.no_symbol hq (by omega)
    have hfirst := h.first.2 hnone
    have hfn' : (s.step mem i).content.refreshFn = s.content.effFn s.watch.timebase := rfl
    have hmn' : (s.step mem i).content.refreshMnLow2 = s.content.effMnLow2 s.watch.timebase := rfl
    have hsettled : (s.step mem i).watch.settled = true := by
      simp [ContentPath.step, WatchedTimebase.step, TdmaTimebase.syncCommit, hsym, hp, htn]
    rw [hdue', if_neg Bool.false_ne_true, hcnt', hfn', hmn', SlotContentMux.effFn,
      SlotContentMux.effMnLow2, SlotContentMux.refreshTrigger, hp, hidle, hfirst]
    exact ⟨hsettled, htn, rfl, rfl⟩
  · obtain ⟨hsettled, hframe⟩ := h.last hop
    have htrig : s.content.refreshTrigger s.watch.timebase = false := by
      rw [SlotContentMux.refreshTrigger, hp]
      rfl
    obtain ⟨hfn', hmn'⟩ := step_frame_kept mem i htrig
    have htarget' : (s.step mem i).content.target = s.content.target := by
      funext k
      rw [SlotContentMux.target, SlotContentMux.target, hfn', hmn']
    refine ⟨by simp [ContentPath.step, WatchedTimebase.step, hcommit, hsettled], ?_⟩
    rw [hfn', hmn', htarget']
    rcases h.refreshed.counters hq hp hcommit with ⟨hcnt', hdue'⟩ | ⟨hcnt', hdue, hdue'⟩
    · rw [hcnt', hdue']
      exact hframe
    · rw [hdue, if_neg Bool.false_ne_true] at hframe
      obtain ⟨htn, hfn, hmn⟩ := hframe
      have h2 : (0 : BitVec 2).toNat = 0 := rfl
      rw [hcnt', hdue', if_pos rfl, SlotContentMux.target, hfn, hmn, h2, Nat.add_zero]
      exact ⟨(next_frame htn).1, next_frame_ne htn⟩

theorem Opened.step (h : Opened mem s) (hq : i.1.symEn = true → 15 ≤ s.watch.quiet) :
    Opened mem (s.step mem i) := by
  refine ⟨h.refreshed.step hq, h.step_first, ?_, h.step_last hq⟩
  intro hnone
  obtain ⟨hp, hop⟩ := WatchedTimebase.nextOpening_none.1 hnone
  have hsettled := h.unsettled hop
  simp [ContentPath.step, WatchedTimebase.step, hp, hsettled]

/-- Once a last slot's pulse has come, after the first pulse, the multiplexer is aligned. -/
def Follows (s : ContentPath) : Prop :=
  s.watch.settled = true → s.watch.opening = .later → Aligned s

theorem Opened.follows_step (h : Opened mem s) (hq : i.1.symEn = true → 15 ≤ s.watch.quiet)
    (hf : Follows s) (hmissed : ¬ s.watch.MissedFrame) : Follows (s.step mem i) := by
  intro hsettled' hlater'
  have hcommit : s.watch.timebase.syncCommit i.1 = false := by
    by_contra hno
    rw [Bool.not_eq_false] at hno
    simp [ContentPath.step, WatchedTimebase.step, hno] at hsettled'
  have hopening : s.watch.nextOpening i.1 = .later := hlater'
  cases hfirst : s.content.firstRefreshPending with
  | true =>
    have hnone := h.first.1 hfirst
    have hpulse : s.watch.timebase.slotPulse = true := by
      by_contra hno
      rw [Bool.not_eq_true] at hno
      rw [WatchedTimebase.nextOpening_none.2 ⟨hno, hnone⟩] at hopening
      cases hopening
    refine h.refreshed.aligned_of_pulse hq hpulse (iff_of_true hfirst fun htn => ?_)
    rw [WatchedTimebase.nextOpening_atLastSlot.2 (Or.inl ⟨hpulse, hnone, htn⟩)] at hopening
    cases hopening
  | false =>
    have hnone : s.watch.opening ≠ .none := by
      rw [← h.first.ne, hfirst]
      decide
    by_cases hlast : s.watch.timebase.slotPulse = true ∧ s.watch.timebase.cnt.tn = 3
    · exact h.refreshed.aligned_of_pulse hq hlast.1 (by simp [hfirst, hlast.2])
    · have hsettled : s.watch.settled = true := by
        have hor : s.watch.settled = true ∨
            s.watch.timebase.slotPulse = true ∧ s.watch.timebase.cnt.tn = 3 := by
          simpa [ContentPath.step, WatchedTimebase.step, hcommit] using hsettled'
        exact hor.resolve_right hlast
      have hlater : s.watch.opening = .later := by
        cases hop : s.watch.opening with
        | none => exact absurd hop hnone
        | later => rfl
        | atLastSlot =>
          cases hp : s.watch.timebase.slotPulse with
          | true => exact absurd ⟨hp, hop⟩ hmissed
          | false =>
            rw [WatchedTimebase.nextOpening_atLastSlot.2 (Or.inr ⟨hp, hop, hcommit⟩)] at hopening
            cases hopening
      exact h.refreshed.aligned_step hq (hf hsettled hlater) hfirst hcommit

/-- The multiplexer's run is the timebase's. -/
theorem exec_watch (mem : ScheduleMem) (s : ContentPath)
    (is : List (TimebaseInput × ContentInput)) :
    (exec (step mem) s is).watch = exec WatchedTimebase.step s.watch (is.map Prod.fst) := by
  induction is generalizing s with
  | nil => rfl
  | cons i is ih => exact ih (s.step mem i)

/-- A table whose entries differ. -/
def numbered : ScheduleMem where
  lo w := BitVec.ofNat 16 (2 * w.toNat)
  hi w := BitVec.ofNat 16 (2 * w.toNat + 1)

theorem numbered_entry {n : Nat} (h : n < 512) : numbered.entry n = BitVec.ofNat 16 n := by
  have hword : (BitVec.ofNat 8 (n / 2)).toNat = n / 2 := by
    rw [BitVec.toNat_ofNat, Nat.mod_eq_of_lt (by omega)]
  simp only [ScheduleMem.entry, numbered, hword]
  split <;> congr 1 <;> omega

/-- A missed frame shows the frame before it. -/
theorem Opened.not_current (h : Opened numbered s) (hmissed : s.watch.MissedFrame) :
    ¬ EntryCurrent numbered s := by
  intro hcur
  obtain ⟨hp, hop⟩ := hmissed
  obtain ⟨hsettled, hframe⟩ := h.last hop
  have hdue : edgeDue s.watch.timebase = true := by rw [edgeDue, hp, Bool.or_true]
  rw [hdue, if_pos rfl] at hframe
  obtain ⟨htn, hne⟩ := hframe
  have hfirst : s.content.firstRefreshPending = false := by
    rw [Bool.eq_false_iff, h.first.ne, hop]
    decide
  have hidle := h.refreshed.idle_of_pulse hp
  have hentry := hcur hp hsettled
  have hm := s.content.refreshMnLow2.isLt
  have hf := s.content.refreshFn.isLt
  have hc := s.watch.timebase.cnt.fn.isLt
  have h2 : (0 : BitVec 2).toNat = 0 := rfl
  have htarget : s.content.target 0 < 512 := by
    rw [SlotContentMux.target, h2]
    omega
  have hindex : s.watch.timebase.cnt.scheduleIndex < 512 := by
    rw [SlotTime.scheduleIndex, htn, h2]
    omega
  rw [htn, h.refreshed.entries hfirst 0 (by rw [hidle, h2]; decide), numbered_entry htarget,
    numbered_entry hindex] at hentry
  have hnat := congrArg BitVec.toNat hentry
  rw [BitVec.toNat_ofNat, BitVec.toNat_ofNat, Nat.mod_eq_of_lt (by omega),
    Nat.mod_eq_of_lt (by omega)] at hnat
  exact hne hnat

theorem opened_run (mem : ScheduleMem) (port : SchedulePort)
    {is : List (TimebaseInput × ContentInput)}
    (hapart : Apart (fun i : TimebaseInput × ContentInput => i.1.symEn) 15 is) :
    Along (step mem) (fun s i => i.1.symEn = true → 15 ≤ s.watch.quiet) (start port) is ∧
      Opened mem (exec (step mem) (start port) is) := by
  have hquiet : Along (step mem) (fun s i => i.1.symEn = true → 15 ≤ s.watch.quiet) (start port)
      is :=
    along_of_apart (fun s : ContentPath => s.watch.quiet) (fun _ _ => rfl) hapart
      (Or.inl (Nat.le_refl 15))
  exact ⟨hquiet, exec_invariant (Opened mem) (fun _ _ h hq => h.step hq) (opened_start port) hquiet⟩

/-- A run in which no frame is missed. -/
theorem follows_run (mem : ScheduleMem) (port : SchedulePort)
    {is : List (TimebaseInput × ContentInput)}
    (hapart : Apart (fun i : TimebaseInput × ContentInput => i.1.symEn) 15 is)
    (hkept : ∀ pre, pre <+: is → ¬ (exec (step mem) (start port) pre).watch.MissedFrame) :
    Follows (exec (step mem) (start port) is) := by
  have hnever : Along (step mem) (fun s _ => ¬ s.watch.MissedFrame) (start port) is :=
    along_of_prefixes hkept
  have hrun := along_and (opened_run mem port hapart).1 hnever
  have hinv := exec_invariant (fun s => Opened mem s ∧ Follows s)
    (fun s i h hq => ⟨h.1.step hq.1, h.1.follows_step hq.1 h.2 hq.2⟩)
    ⟨opened_start port, nofun⟩ hrun
  exact hinv.2

def quietContent : ContentInput :=
  ⟨⟨0, 0, 0, 0, 0, 0, 0⟩, ⟨fun _ => 0, fun _ => 0, fun _ => false⟩, 0, 0⟩

/-- A symbol and the cycles until the next one. -/
def symbolCycles : List TimebaseInput :=
  ⟨true, false, ⟨0, 0, 0, 0⟩⟩ :: List.replicate 15 ⟨false, false, ⟨0, 0, 0, 0⟩⟩

def symbols (n : Nat) : List TimebaseInput := (List.replicate n symbolCycles).flatten

/-- The load, and symbols until the second slot pulse. -/
def earlyLastSlot : List TimebaseInput :=
  ⟨false, true, ⟨2, 0, 0, 0⟩⟩ :: symbols 510 ++ symbolCycles.take 2

/-- After a load of slot 2, `k` symbols into slot `c`. -/
def loadedAt (c : SlotTime) (k : Nat) (settled : Bool) (opening : Opening) : WatchedTimebase :=
  ⟨⟨false, ⟨2, 0, 0, 0⟩, BitVec.ofNat 8 k, c, false, false⟩, 15, true, settled, opening⟩

theorem symbols_succ (n : Nat) : symbols (n + 1) = symbolCycles ++ symbols n := rfl

theorem symbols_add (m n : Nat) : symbols (m + n) = symbols m ++ symbols n := by
  rw [symbols, List.replicate_add, List.flatten_append]
  rfl

theorem exec_symbolCycles {c : SlotTime} {k : Nat} {settled : Bool} {opening : Opening}
    (hk : k < 254) : exec WatchedTimebase.step (loadedAt c k settled opening) symbolCycles =
      loadedAt c (k + 1) settled opening := by
  have hne : ¬ BitVec.ofNat 8 k = 254#8 := by
    intro heq
    have hnat := congrArg BitVec.toNat heq
    rw [BitVec.toNat_ofNat, BitVec.toNat_ofNat, Nat.mod_eq_of_lt (by omega)] at hnat
    omega
  simp only [symbolCycles, loadedAt, List.replicate, exec, WatchedTimebase.step,
    WatchedTimebase.nextOpening, TdmaTimebase.step, TdmaTimebase.syncCommit,
    TdmaTimebase.slotEdge, since]
  cases settled <;> cases opening <;> simp [hne, BitVec.ofNat_add]

theorem exec_symbols {c : SlotTime} {settled : Bool} {opening : Opening} {n k : Nat}
    (hk : k + n ≤ 254) : exec WatchedTimebase.step (loadedAt c k settled opening) (symbols n) =
      loadedAt c (k + n) settled opening := by
  induction n generalizing k with
  | zero => rfl
  | succ n ih =>
    rw [symbols_succ, exec_append, exec_symbolCycles (by omega), ih (by omega)]
    congr 1
    omega

theorem earlyLastSlot_missed :
    (exec WatchedTimebase.step .start earlyLastSlot).MissedFrame := by
  have hsplit : earlyLastSlot = (⟨false, true, ⟨2, 0, 0, 0⟩⟩ :: symbolCycles) ++ (symbols 254 ++
      (symbolCycles ++ (symbols 254 ++ symbolCycles.take 2))) := by
    have hone : symbols 1 = symbolCycles := List.flatten_singleton
    rw [earlyLastSlot, (by decide : 510 = 1 + 254 + 1 + 254), symbols_add, symbols_add,
      symbols_add, hone]
    simp only [List.append_assoc, List.cons_append]
  have hload : exec WatchedTimebase.step .start (⟨false, true, ⟨2, 0, 0, 0⟩⟩ :: symbolCycles) =
      loadedAt ⟨2, 0, 0, 0⟩ 0 false .none := rfl
  have hfirst : exec WatchedTimebase.step (loadedAt ⟨2, 0, 0, 0⟩ (0 + 254) false .none)
      symbolCycles = loadedAt ⟨3, 0, 0, 0⟩ 0 true .atLastSlot := rfl
  rw [hsplit, exec_append, hload, exec_append, exec_symbols (by decide), exec_append, hfirst,
    exec_append, exec_symbols (by decide)]
  decide

theorem apart_symbols {is : List TimebaseInput} (h : Apart TimebaseInput.symEn 15 is) (n : Nat) :
    Apart TimebaseInput.symEn 15 (symbols n ++ is) := by
  induction n with
  | zero => exact h
  | succ n ih =>
    rw [symbols_succ, List.append_assoc]
    exact ih.block _ (by decide) (by decide)

end ContentPath
end TetraBs.Lmac
