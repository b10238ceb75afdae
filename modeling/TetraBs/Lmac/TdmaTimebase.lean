import TetraBs.Lib.Run

/-! `tetra_tdma_timebase`: the symbol counter and the four counters above it, loaded by software
through a shadow register. One step is one rising clock edge. -/
namespace TetraBs.Lmac
open TetraBs.Run

/-- Time slot, frame, multiframe and hyperframe. -/
structure SlotTime where
  tn : BitVec 2
  fn : BitVec 5
  mn : BitVec 6
  hn : BitVec 6
deriving DecidableEq

structure TimebaseInput where
  symEn : Bool
  syncLoadStrobe : Bool
  sync : SlotTime

structure TdmaTimebase where
  syncLoadPending : Bool
  syncShadow : SlotTime
  symCnt : BitVec 8
  cnt : SlotTime
  slotPulse : Bool
  tdmaTick : Bool

namespace SlotTime

/-- The digits that the documentation allows; `tn` and `hn` use all of theirs. -/
def InRange (c : SlotTime) : Prop := c.fn ≤ 17 ∧ c.mn ≤ 59

/-- The counters of the next slot. -/
def next (c : SlotTime) : SlotTime :=
  if c.tn = 3 then
    if c.fn = 17 then
      if c.mn = 59 then { tn := 0, fn := 0, mn := 0, hn := c.hn + 1 }
      else { c with tn := 0, fn := 0, mn := c.mn + 1 }
    else { c with tn := 0, fn := c.fn + 1 }
  else { c with tn := c.tn + 1 }

/-- The number of the slot. -/
def number (c : SlotTime) : Nat := ((c.hn.toNat * 60 + c.mn.toNat) * 18 + c.fn.toNat) * 4 + c.tn.toNat

/-- Slots until the hyperframe counter wraps. -/
def SLOTS : Nat := 64 * 60 * 18 * 4

end SlotTime

namespace TdmaTimebase

def reset : TdmaTimebase := ⟨false, ⟨0, 0, 0, 0⟩, 0, ⟨0, 0, 0, 0⟩, false, false⟩

def slotEdge (s : TdmaTimebase) (i : TimebaseInput) : Bool := i.symEn && s.symCnt = 254

/-- On the shadow, or on the live input when both strobes coincide. -/
def syncCommit (s : TdmaTimebase) (i : TimebaseInput) : Bool :=
  i.symEn && (s.syncLoadPending || i.syncLoadStrobe)

def step (s : TdmaTimebase) (i : TimebaseInput) : TdmaTimebase where
  syncLoadPending :=
    if i.syncLoadStrobe then true
    else if i.symEn && s.syncLoadPending then false
    else s.syncLoadPending
  syncShadow := if i.syncLoadStrobe then i.sync else s.syncShadow
  symCnt :=
    if syncCommit s i then 0
    else if i.symEn then if slotEdge s i then 0 else s.symCnt + 1
    else s.symCnt
  cnt :=
    if syncCommit s i then if i.syncLoadStrobe then i.sync else s.syncShadow
    else if slotEdge s i then s.cnt.next
    else s.cnt
  tdmaTick := slotEdge s i && !syncCommit s i
  slotPulse := s.tdmaTick

/-- The symbol's number within the hyperframe cycle. -/
def number (s : TdmaTimebase) : Nat := s.cnt.number * 255 + s.symCnt.toNat

def InRange (s : TdmaTimebase) : Prop := s.symCnt ≤ 254 ∧ s.cnt.InRange

end TdmaTimebase

/-! The clock that the documentation describes: a load waits for the next symbol and is then gone. -/

structure SymbolClock where
  time : Nat
  waiting : Option SlotTime
  /-- The last cycle went from one slot to the next by counting. -/
  wrapped : Bool
  pulse : Bool

namespace SymbolClock

def start : SymbolClock := ⟨0, none, false, false⟩

/-- The newest load that has not been committed, this cycle's included. -/
def load (t : SymbolClock) (i : TimebaseInput) : Option SlotTime :=
  if i.syncLoadStrobe then some i.sync else t.waiting

def step (t : SymbolClock) (i : TimebaseInput) : SymbolClock :=
  let t' := { t with pulse := t.wrapped, wrapped := false }
  if i.symEn then
    match t.load i with
    | some l => { t' with time := l.number * 255, waiting := none }
    | none =>
      { t' with
        time := (t.time + 1) % (SlotTime.SLOTS * 255)
        wrapped := t.time % 255 = 254 }
  else { t' with waiting := t.load i }

end SymbolClock

namespace TdmaTimebase

/-- The digits are in range, they make the clock's number, and the pulse is the clock's. -/
structure Shows (s : TdmaTimebase) (t : SymbolClock) : Prop where
  range : s.InRange
  number : s.number = t.time
  pulse : s.slotPulse = t.pulse

end TdmaTimebase

theorem SlotTime.number_lt {c : SlotTime} (h : c.InRange) : c.number < SLOTS := by
  obtain ⟨hfn, hmn⟩ := h
  simp only [number, SLOTS]
  bv_omega

theorem SlotTime.next_inRange {c : SlotTime} (h : c.InRange) : c.next.InRange := by
  obtain ⟨hfn, hmn⟩ := h
  simp only [next]
  split
  · split
    · split
      · exact ⟨by simp, by simp⟩
      · exact ⟨by simp, by bv_omega⟩
    · exact ⟨by bv_omega, hmn⟩
  · exact ⟨hfn, hmn⟩

theorem SlotTime.next_number {c : SlotTime} (h : c.InRange) :
    c.next.number = (c.number + 1) % SLOTS := by
  obtain ⟨hfn, hmn⟩ := h
  simp only [next]
  split
  · split
    · split
      · simp only [number, SLOTS]
        bv_omega
      · simp only [number, SLOTS]
        bv_omega
    · simp only [number, SLOTS]
      bv_omega
  · simp only [number, SLOTS]
    bv_omega

/-! What one cycle does, by its strobes. -/

namespace TdmaTimebase
variable {s : TdmaTimebase} {i : TimebaseInput}

theorem step_quiet (hsym : i.symEn = false) : s.step i =
    { s with
      syncLoadPending := i.syncLoadStrobe || s.syncLoadPending
      syncShadow := if i.syncLoadStrobe then i.sync else s.syncShadow
      tdmaTick := false
      slotPulse := s.tdmaTick } := by
  cases hload : i.syncLoadStrobe <;> simp [step, syncCommit, slotEdge, hsym, hload]

theorem step_commit_live (hsym : i.symEn = true) (hload : i.syncLoadStrobe = true) : s.step i =
    ⟨true, i.sync, 0, i.sync, s.tdmaTick, false⟩ := by
  simp [step, syncCommit, slotEdge, hsym, hload]

theorem step_commit_shadow (hsym : i.symEn = true) (hload : i.syncLoadStrobe = false)
    (hpend : s.syncLoadPending = true) : s.step i =
    ⟨false, s.syncShadow, 0, s.syncShadow, s.tdmaTick, false⟩ := by
  simp [step, syncCommit, slotEdge, hsym, hload, hpend]

theorem step_count (hsym : i.symEn = true) (hload : i.syncLoadStrobe = false)
    (hpend : s.syncLoadPending = false) : s.step i =
    { s with
      symCnt := if s.symCnt = 254 then 0 else s.symCnt + 1
      cnt := if s.symCnt = 254 then s.cnt.next else s.cnt
      tdmaTick := decide (s.symCnt = 254)
      slotPulse := s.tdmaTick } := by
  by_cases hlast : s.symCnt = 254 <;>
    simp [step, syncCommit, slotEdge, hsym, hload, hpend, hlast]

/-- Loads in range keep the counters and the shadow in range. -/
theorem step_inRange (hs : s.cnt.InRange ∧ s.syncShadow.InRange)
    (hi : i.syncLoadStrobe = true → i.sync.InRange) :
    (s.step i).cnt.InRange ∧ (s.step i).syncShadow.InRange := by
  have hcount : (if s.slotEdge i then s.cnt.next else s.cnt).InRange := by
    split
    · exact SlotTime.next_inRange hs.1
    · exact hs.1
  have hload : (if i.syncLoadStrobe then i.sync else s.syncShadow).InRange := by
    split
    next hstrobe => exact hi hstrobe
    next => exact hs.2
  have hcnt : (s.step i).cnt =
      if s.syncCommit i then if i.syncLoadStrobe then i.sync else s.syncShadow
      else if s.slotEdge i then s.cnt.next else s.cnt := rfl
  refine ⟨?_, hload⟩
  rw [hcnt]
  split
  · exact hload
  · exact hcount

theorem symEn_of_tick (h : (s.step i).tdmaTick = true) : i.symEn = true := by
  by_contra hno
  simp [step, slotEdge, hno] at h

/-- A symbol starts the slot anew, or it counts. -/
theorem step_symbol (hsym : i.symEn = true) :
    (s.syncCommit i = true ∧ (s.step i).tdmaTick = false ∧ (s.step i).symCnt = 0) ∨
    (s.syncCommit i = false ∧ (s.step i).tdmaTick = decide (s.symCnt = 254) ∧
      (s.step i).symCnt = if s.symCnt = 254 then 0 else s.symCnt + 1) := by
  cases hcommit : s.syncCommit i with
  | true => exact Or.inl ⟨rfl, by simp [step, hcommit], by simp [step, hcommit]⟩
  | false => exact Or.inr ⟨rfl, by simp [step, slotEdge, hcommit, hsym],
      by simp [step, slotEdge, hcommit, hsym]⟩

/-- A symbol that counts adds one to the number and keeps the digits in range. -/
theorem count_number (hr : s.InRange) (hsym : i.symEn = true) (hload : i.syncLoadStrobe = false)
    (hpend : s.syncLoadPending = false) : (s.step i).InRange ∧
      (s.step i).number = (s.number + 1) % (SlotTime.SLOTS * 255) ∧
      ((s.step i).tdmaTick = true ↔ s.number % 255 = 254) := by
  obtain ⟨hle, hcnt⟩ := hr
  have hlt := SlotTime.number_lt hcnt
  have hnext := SlotTime.next_number hcnt
  rw [step_count hsym hload hpend]
  simp only [InRange, number, decide_eq_true_iff]
  by_cases hlast : s.symCnt = 254
  · simp only [if_pos hlast, hnext]
    refine ⟨⟨by simp, SlotTime.next_inRange hcnt⟩, ?_, by simp [hlast]⟩
    have hfull : s.symCnt.toNat = 254 := by rw [hlast]; rfl
    have hzero : (0 : BitVec 8).toNat = 0 := rfl
    simp only [SlotTime.SLOTS] at hlt ⊢
    omega
  · have hbelow : s.symCnt.toNat < 254 := by bv_omega
    have hsucc : (s.symCnt + 1).toNat = s.symCnt.toNat + 1 := by bv_omega
    simp only [if_neg hlast, hsucc]
    refine ⟨⟨by bv_omega, hcnt⟩, ?_, by simp only [hlast, false_iff]; omega⟩
    simp only [SlotTime.SLOTS] at hlt ⊢
    omega

end TdmaTimebase

/-! The code against the clock. -/

section
variable {s : TdmaTimebase} {t : SymbolClock} {m : Bool} {i : TimebaseInput}

/-- Timebase and clock side by side; `m` says that a load was committed in the cycle of its strobe
and that neither strobe has come since. -/
structure Tracks (m : Bool) (s : TdmaTimebase) (t : SymbolClock) : Prop where
  shows : s.Shows t
  tick : s.tdmaTick = t.wrapped
  pending : s.syncLoadPending = (m || t.waiting.isSome)
  waiting : ∀ l ∈ t.waiting, s.syncShadow = l
  stale : m = true → t.waiting = none ∧ s.cnt = s.syncShadow ∧ s.symCnt = 0
  shadow : s.syncLoadPending = true → s.syncShadow.InRange

theorem timebase_tracks_reset : Tracks false TdmaTimebase.reset SymbolClock.start where
  shows := ⟨⟨by decide, by decide, by decide⟩, rfl, rfl⟩
  tick := rfl
  pending := rfl
  waiting := by simp [SymbolClock.start]
  stale := nofun
  shadow := nofun

/-- A cycle without a symbol. -/
theorem Tracks.quiet (h : Tracks m s t) (hi : i.syncLoadStrobe = true → i.sync.InRange)
    (hsym : i.symEn = false) : Tracks (m && !i.syncLoadStrobe) (s.step i) (t.step i) := by
  have ht : t.step i = ⟨t.time, t.load i, false, t.wrapped⟩ := by simp [SymbolClock.step, hsym]
  rw [TdmaTimebase.step_quiet hsym, ht, SymbolClock.load]
  cases hload : i.syncLoadStrobe with
  | false =>
    refine ⟨⟨h.shows.range, h.shows.number, h.tick⟩, rfl, ?_, h.waiting, ?_, h.shadow⟩
    · simpa using h.pending
    · simpa using h.stale
  | true =>
    refine ⟨⟨h.shows.range, h.shows.number, h.tick⟩, rfl, by simp, ?_, by simp, fun _ => hi hload⟩
    intro l hl
    simpa using hl

/-- A load that comes with the symbol. -/
theorem Tracks.live (h : Tracks m s t) (hi : i.sync.InRange) (hsym : i.symEn = true)
    (hload : i.syncLoadStrobe = true) : Tracks true (s.step i) (t.step i) := by
  have ht : t.step i = ⟨i.sync.number * 255, none, false, t.wrapped⟩ := by
    simp [SymbolClock.step, SymbolClock.load, hsym, hload]
  rw [TdmaTimebase.step_commit_live hsym hload, ht]
  exact ⟨⟨⟨by simp, hi⟩, by simp [TdmaTimebase.number], h.tick⟩, rfl, rfl, nofun,
    fun _ => ⟨rfl, rfl, rfl⟩, fun _ => hi⟩

/-- A load that waited for the symbol. -/
theorem Tracks.waited (h : Tracks false s t) (hsym : i.symEn = true)
    (hload : i.syncLoadStrobe = false) (hpend : s.syncLoadPending = true) :
    Tracks false (s.step i) (t.step i) := by
  obtain ⟨l, hl⟩ : ∃ l, t.waiting = some l := by
    have hsome := h.pending
    rw [hpend, Bool.false_or] at hsome
    exact Option.isSome_iff_exists.1 hsome.symm
  have hr := h.shadow hpend
  have heq : s.syncShadow = l := h.waiting l hl
  have ht : t.step i = ⟨s.syncShadow.number * 255, none, false, t.wrapped⟩ := by
    simp [SymbolClock.step, SymbolClock.load, hsym, hload, hl, heq]
  rw [TdmaTimebase.step_commit_shadow hsym hload hpend, ht]
  exact ⟨⟨⟨by simp, hr⟩, by simp [TdmaTimebase.number], h.tick⟩, rfl, rfl, nofun, nofun, nofun⟩

/-- Nothing to commit, and the symbol counts. -/
theorem Tracks.count (h : Tracks m s t) (hsym : i.symEn = true)
    (hload : i.syncLoadStrobe = false) (hpend : s.syncLoadPending = false) :
    Tracks false (s.step i) (t.step i) := by
  have hwait : t.waiting = none := by
    have hnone := h.pending
    rw [hpend] at hnone
    cases hw : t.waiting with
    | none => rfl
    | some l => simp [hw] at hnone
  have ht : t.step i = ⟨(t.time + 1) % (SlotTime.SLOTS * 255), none, t.time % 255 = 254,
      t.wrapped⟩ := by
    simp [SymbolClock.step, SymbolClock.load, hsym, hload, hwait]
  obtain ⟨hrange, hnumber, htick⟩ := TdmaTimebase.count_number h.shows.range hsym hload hpend
  have hpulse : (s.step i).slotPulse = s.tdmaTick := rfl
  have hpend' : (s.step i).syncLoadPending = false := by
    rw [TdmaTimebase.step_count hsym hload hpend]
    exact hpend
  rw [ht]
  refine ⟨⟨hrange, by rw [hnumber, h.shows.number], by rw [hpulse, h.tick]⟩, ?_, hpend', nofun, nofun,
    by simp [hpend']⟩
  rw [Bool.eq_iff_iff, htick, h.shows.number, decide_eq_true_iff]

/-- A load committed in the cycle of its strobe is committed again. -/
theorem Tracks.again (h : Tracks true s t) (hsym : i.symEn = true)
    (hload : i.syncLoadStrobe = false) : ¬ (s.step i).Shows (t.step i) := by
  intro hshows
  obtain ⟨hwait, hcnt, hzero⟩ := h.stale rfl
  have hpend : s.syncLoadPending = true := by simp [h.pending]
  have htime : (t.step i).time = (t.time + 1) % (SlotTime.SLOTS * 255) := by
    simp [SymbolClock.step, SymbolClock.load, hsym, hload, hwait]
  have hnumber := hshows.number
  have hold := h.shows.number
  rw [htime, ← hold, TdmaTimebase.step_commit_shadow hsym hload hpend] at hnumber
  simp only [TdmaTimebase.number, ← hcnt, hzero] at hnumber
  have hlt := SlotTime.number_lt h.shows.range.2
  simp only [SlotTime.SLOTS] at hlt hnumber
  omega

end

/-! Runs. -/

/-- A load strobe comes at the latest with the next symbol. -/
def LoadsFirst : List TimebaseInput → Prop
  | [] => True
  | i :: is => i.syncLoadStrobe = true ∨ i.symEn = false ∧ LoadsFirst is

/-- After every cycle with both strobes, a newer load comes at the latest with the next symbol. -/
def Superseded : List TimebaseInput → Prop
  | [] => True
  | i :: is => (i.syncLoadStrobe = true → i.symEn = true → LoadsFirst is) ∧ Superseded is

/-- Timebase and clock agree so far, and after every further cycle. -/
def Agrees (s : TdmaTimebase) (t : SymbolClock) (is : List TimebaseInput) : Prop :=
  ∀ pre, pre <+: is →
    (exec TdmaTimebase.step s pre).Shows (exec SymbolClock.step t pre)

theorem agrees_cons {s : TdmaTimebase} {t : SymbolClock} {i : TimebaseInput}
    {is : List TimebaseInput} :
    Agrees s t (i :: is) ↔ s.Shows t ∧ Agrees (s.step i) (t.step i) is := by
  constructor
  · intro h
    exact ⟨h [] List.nil_prefix, fun pre hpre => h (i :: pre) (List.cons_prefix_cons.2 ⟨rfl, hpre⟩)⟩
  · rintro ⟨hnow, hrest⟩ pre hpre
    cases pre with
    | nil => exact hnow
    | cons j pre =>
      obtain ⟨rfl, hpre'⟩ := List.cons_prefix_cons.1 hpre
      exact hrest pre hpre'

theorem Tracks.agrees_iff {m : Bool} {s : TdmaTimebase} {t : SymbolClock} (h : Tracks m s t)
    {is : List TimebaseInput} (hin : ∀ i ∈ is, i.syncLoadStrobe = true → i.sync.InRange) :
    Agrees s t is ↔ (m = true → LoadsFirst is) ∧ Superseded is := by
  induction is generalizing m s t with
  | nil =>
    simp only [LoadsFirst, Superseded, implies_true, and_self, iff_true]
    intro pre hpre
    rw [List.prefix_nil.1 hpre]
    exact h.shows
  | cons i is ih =>
    have hi := hin i List.mem_cons_self
    have hrest : ∀ j ∈ is, j.syncLoadStrobe = true → j.sync.InRange :=
      fun j hj => hin j (List.mem_cons_of_mem i hj)
    rw [agrees_cons, and_iff_right h.shows]
    cases hsym : i.symEn with
    | false =>
      rw [ih (h.quiet hi hsym) hrest]
      cases hload : i.syncLoadStrobe <;> simp [LoadsFirst, Superseded, hsym, hload]
    | true => cases hload : i.syncLoadStrobe with
      | true =>
        rw [ih (h.live (hi hload) hsym hload) hrest]
        simp [LoadsFirst, Superseded, hsym, hload]
      | false => cases m with
        | true =>
          have hno : ¬ Agrees (s.step i) (t.step i) is :=
            fun hag => h.again hsym hload (hag [] List.nil_prefix)
          simp [LoadsFirst, hsym, hload, hno]
        | false =>
          have hnext : Tracks false (s.step i) (t.step i) := by
            cases hpend : s.syncLoadPending with
            | true => exact h.waited hsym hload hpend
            | false => exact h.count hsym hload hpend
          rw [ih hnext hrest]
          simp [Superseded, hload]

/-- From reset the timebase is the documented clock exactly in the runs where every load that comes
with a symbol is superseded by the next symbol. -/
theorem timebase_agrees_iff {is : List TimebaseInput}
    (hin : ∀ i ∈ is, i.syncLoadStrobe = true → i.sync.InRange) :
    Agrees TdmaTimebase.reset SymbolClock.start is ↔ Superseded is := by
  rw [timebase_tracks_reset.agrees_iff hin]
  simp

/-- A load of slot 2 that waits for the next symbol, and a symbol. -/
def waitingLoad : List TimebaseInput :=
  [⟨false, true, ⟨2, 0, 0, 0⟩⟩, ⟨true, false, ⟨0, 0, 0, 0⟩⟩, ⟨true, false, ⟨0, 0, 0, 0⟩⟩]

theorem timebase_agrees_waiting_load :
    Agrees TdmaTimebase.reset SymbolClock.start waitingLoad ↔ Superseded waitingLoad :=
  timebase_agrees_iff (by simp [waitingLoad, SlotTime.InRange])

/-- The load of slot 2 comes with a symbol; the next symbol commits it once more. -/
theorem coincident_load_committed_twice :
    ¬ Agrees TdmaTimebase.reset SymbolClock.start
      [⟨true, true, ⟨2, 0, 0, 0⟩⟩, ⟨true, false, ⟨0, 0, 0, 0⟩⟩] := by
  intro h
  have hnumber := (h _ (List.prefix_refl _)).number
  exact absurd hnumber (by decide)

end TetraBs.Lmac
