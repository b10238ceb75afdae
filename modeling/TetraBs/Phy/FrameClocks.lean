import Mathlib.Algebra.Group.Nat.Defs
import TetraBs.Lmac.TdmaTimebase

/-! The clocks of the receiving side that count slots: `tetra_frame_counter`, and the `NetworkTime`
of `scripts/decode_dl.py` beside the timebase of the transmitter. -/
namespace TetraBs.FrameClocks
open TetraBs.Run TetraBs.Lmac

/-! `tetra_frame_counter`. One step is one rising clock edge. -/

structure FrameCounter where
  timeslotNum : BitVec 2
  frameNum : BitVec 5
  multiframeNum : BitVec 6
  hyperframeNum : BitVec 16
  isControlFrame : Bool
  frame18Slot1 : Bool

structure CounterInput where
  syncLocked : Bool
  slotPulse : Bool
deriving DecidableEq

namespace FrameCounter

def reset : FrameCounter := ⟨0, 1, 1, 0, false, false⟩

def frameEdge (s : FrameCounter) (i : CounterInput) : Bool := i.slotPulse && s.timeslotNum = 3

def multiframeEdge (s : FrameCounter) (i : CounterInput) : Bool :=
  s.frameEdge i && s.frameNum = 18

def hyperframeEdge (s : FrameCounter) (i : CounterInput) : Bool :=
  s.multiframeEdge i && s.multiframeNum = 60

def nextFrame (s : FrameCounter) (i : CounterInput) : BitVec 5 :=
  if s.frameEdge i then if s.multiframeEdge i then 1 else s.frameNum + 1 else s.frameNum

def step (s : FrameCounter) (i : CounterInput) : FrameCounter where
  timeslotNum :=
    if !i.syncLocked then 0
    else if i.slotPulse then s.timeslotNum + 1
    else s.timeslotNum
  frameNum :=
    if !i.syncLocked then 1
    else if s.frameEdge i then if s.frameNum = 18 then 1 else s.frameNum + 1
    else s.frameNum
  multiframeNum :=
    if !i.syncLocked then 1
    else if s.multiframeEdge i then if s.multiframeNum = 60 then 1 else s.multiframeNum + 1
    else s.multiframeNum
  hyperframeNum :=
    if !i.syncLocked then 0
    else if s.hyperframeEdge i then s.hyperframeNum + 1
    else s.hyperframeNum
  isControlFrame :=
    if !i.syncLocked then false
    else if i.slotPulse then s.nextFrame i = 18
    else s.isControlFrame
  frame18Slot1 := i.slotPulse && s.frameNum = 18 && s.timeslotNum = 1

end FrameCounter

/-- The slots since the lock was last lost. -/
def slotsSince (n : Nat) (i : CounterInput) : Nat :=
  if !i.syncLocked then 0 else if i.slotPulse then n + 1 else n

/-- The registers are the digits of `n`. -/
structure Counts (s : FrameCounter) (n : Nat) : Prop where
  timeslot : s.timeslotNum.toNat = n % 4
  frame : s.frameNum.toNat = n / 4 % 18 + 1
  multiframe : s.multiframeNum.toNat = n / 72 % 60 + 1
  hyperframe : s.hyperframeNum.toNat = n / 4320 % 65536
  control : s.isControlFrame = decide (n / 4 % 18 = 17)

theorem counts_reset : Counts .reset 0 := ⟨rfl, rfl, rfl, rfl, rfl⟩

section
variable {s : FrameCounter} {n : Nat} {i : CounterInput}

/-- A register that holds one more than a digit is at its last value when the digit is. -/
theorem last_digit {w m d : Nat} {x : BitVec w} (hx : x.toNat = d + 1) (hm : m + 1 < 2 ^ w) :
    x = BitVec.ofNat w (m + 1) ↔ d = m := by
  have hlast : (BitVec.ofNat w (m + 1)).toNat = m + 1 := by
    rw [BitVec.toNat_ofNat, Nat.mod_eq_of_lt hm]
  constructor
  · intro h
    rw [h, hlast] at hx
    omega
  · intro h
    exact BitVec.eq_of_toNat_eq (by rw [hx, hlast, h])

theorem Counts.last (h : Counts s n) :
    (s.timeslotNum = 3 ↔ n % 4 = 3) ∧ (s.frameNum = 18 ↔ n / 4 % 18 = 17) ∧
      (s.multiframeNum = 60 ↔ n / 72 % 60 = 59) := by
  refine ⟨?_, last_digit h.frame (by decide), last_digit h.multiframe (by decide)⟩
  rw [← h.timeslot]
  exact ⟨fun h => by rw [h]; rfl, fun h => BitVec.eq_of_toNat_eq h⟩

theorem Counts.edges (h : Counts s n) (hpulse : i.slotPulse = true) :
    s.frameEdge i = decide (n % 4 = 3) ∧
      s.multiframeEdge i = decide (n % 4 = 3 ∧ n / 4 % 18 = 17) ∧
      s.hyperframeEdge i = decide (n % 4 = 3 ∧ n / 4 % 18 = 17 ∧ n / 72 % 60 = 59) := by
  obtain ⟨h3, h18, h60⟩ := h.last
  simp only [FrameCounter.hyperframeEdge, FrameCounter.multiframeEdge, FrameCounter.frameEdge,
    hpulse, h3, h18, h60, Bool.true_and, ← Bool.decide_and, and_assoc, and_self]

theorem digits_succ (n : Nat) :
    (n + 1) / 4 % 18 = (if n % 4 = 3 then if n / 4 % 18 = 17 then 0 else n / 4 % 18 + 1
        else n / 4 % 18) ∧
      (n + 1) / 72 = (if n % 4 = 3 ∧ n / 4 % 18 = 17 then n / 72 + 1 else n / 72) ∧
      (n + 1) / 4320 =
        (if n % 4 = 3 ∧ n / 4 % 18 = 17 ∧ n / 72 % 60 = 59 then n / 4320 + 1
          else n / 4320) := by
  refine ⟨?_, ?_, ?_⟩
  · split
    · split <;> omega
    · omega
  · split <;> omega
  · split <;> omega

theorem toNat_one_more {w d : Nat} {x : BitVec w} (hx : x.toNat = d + 1) (hd : d + 2 < 2 ^ w) :
    (x + 1).toNat = d + 2 := by
  have hone : (1 : BitVec w).toNat = 1 := by
    show (BitVec.ofNat w 1).toNat = 1
    rw [BitVec.toNat_ofNat, Nat.mod_eq_of_lt (by omega)]
  rw [BitVec.toNat_add, hx, hone, Nat.mod_eq_of_lt hd]

/-- The frame of the next slot, as it is looked ahead to. -/
theorem Counts.nextFrame (h : Counts s n) (hpulse : i.slotPulse = true) :
    (s.nextFrame i).toNat = (n + 1) / 4 % 18 + 1 := by
  obtain ⟨hframe, hmulti, -⟩ := h.edges hpulse
  rw [FrameCounter.nextFrame, hframe, hmulti, (digits_succ n).1]
  simp only [decide_eq_true_eq]
  by_cases hslot : n % 4 = 3
  · rw [if_pos hslot, if_pos hslot]
    by_cases hlast : n / 4 % 18 = 17
    · rw [if_pos ⟨hslot, hlast⟩, if_pos hlast]
      rfl
    · rw [if_neg fun h => hlast h.2, if_neg hlast]
      exact toNat_one_more h.frame (by omega)
  · rw [if_neg hslot, if_neg hslot]
    exact h.frame

theorem Counts.slot (h : Counts s n) (hlock : i.syncLocked = true) (hpulse : i.slotPulse = true) :
    Counts (s.step i) (n + 1) := by
  obtain ⟨-, h18, h60⟩ := h.last
  obtain ⟨hframe, hmulti, hhyper⟩ := h.edges hpulse
  obtain ⟨hf, hm, hh⟩ := digits_succ n
  have hnext := h.nextFrame hpulse
  have hone : (1 : BitVec 2).toNat = 1 := rfl
  have hcontrol : (s.step i).isControlFrame = decide (s.nextFrame i = 18) := by
    simp only [FrameCounter.step, hlock, hpulse, Bool.not_true, Bool.false_eq_true, if_false,
      if_true]
  refine ⟨?_, ?_, ?_, ?_, hcontrol.trans (decide_eq_decide.2 (last_digit hnext (by decide)))⟩
  all_goals simp only [FrameCounter.step, hlock, hpulse, hframe, hmulti, hhyper, h18, h60,
    Bool.not_true, Bool.false_eq_true, if_false, if_true, decide_eq_true_eq]
  · rw [BitVec.toNat_add, h.timeslot, hone]
    omega
  · rw [hf]
    split
    · split
      · rfl
      · exact toNat_one_more h.frame (by omega)
    · exact h.frame
  · rw [hm]
    split
    · split
      · have hfirst : (1 : BitVec 6).toNat = 1 := rfl
        omega
      · rw [toNat_one_more h.multiframe (by omega)]
        omega
    · exact h.multiframe
  · rw [hh]
    split
    · have hfirst : (1 : BitVec 16).toNat = 1 := rfl
      rw [BitVec.toNat_add, h.hyperframe, hfirst]
      omega
    · exact h.hyperframe

theorem Counts.step (h : Counts s n) : Counts (s.step i) (slotsSince n i) := by
  cases hlock : i.syncLocked with
  | false =>
    rw [slotsSince, hlock]
    simp only [FrameCounter.step, hlock, Bool.not_false, if_true]
    exact ⟨rfl, rfl, rfl, rfl, rfl⟩
  | true =>
    cases hpulse : i.slotPulse with
    | true =>
      have hslots : slotsSince n i = n + 1 := by
        rw [slotsSince, hlock, hpulse]
        rfl
      rw [hslots]
      exact h.slot hlock hpulse
    | false =>
      have hslots : slotsSince n i = n := by
        rw [slotsSince, hlock, hpulse]
        rfl
      rw [hslots]
      simp only [FrameCounter.step, FrameCounter.hyperframeEdge, FrameCounter.multiframeEdge,
        FrameCounter.frameEdge, hlock, hpulse, Bool.not_true, Bool.false_and, Bool.false_eq_true,
        if_false]
      exact ⟨h.timeslot, h.frame, h.multiframe, h.hyperframe, h.control⟩

theorem counts_run (h : Counts s n) (is : List CounterInput) :
    Counts (exec FrameCounter.step s is) (is.foldl slotsSince n) := by
  induction is generalizing s n with
  | nil => exact h
  | cons i is ih => exact ih h.step

/-- Whatever the lock and the pulses do: the registers are the digits of the number of slots since
the lock was last lost, the control frame is the 18th, and the strobe stands behind the second slot
of it and no other. -/
theorem frame_counter_counts (is : List CounterInput) (i : CounterInput) :
    Counts (exec FrameCounter.step .reset is) (is.foldl slotsSince 0) ∧
      (exec FrameCounter.step .reset (is ++ [i])).frame18Slot1 =
        (i.slotPulse && decide (is.foldl slotsSince 0 % 72 = 69)) := by
  have h := counts_run counts_reset is
  refine ⟨h, ?_⟩
  rw [exec_snoc]
  obtain ⟨-, h18, -⟩ := h.last
  have hslot : (exec FrameCounter.step .reset is).timeslotNum = 1 ↔
      is.foldl slotsSince 0 % 4 = 1 := by
    rw [← h.timeslot]
    exact ⟨fun h => by rw [h]; rfl, fun h => BitVec.eq_of_toNat_eq h⟩
  have hboth : (is.foldl slotsSince 0 / 4 % 18 = 17 ∧ is.foldl slotsSince 0 % 4 = 1) ↔
      is.foldl slotsSince 0 % 72 = 69 := by omega
  show (i.slotPulse && _ && _) = _
  rw [Bool.and_assoc, ← Bool.decide_and, decide_eq_decide.2 ((and_congr h18 hslot).trans hboth)]

end

/-! `NetworkTime`. -/

structure NetworkTime where
  tn : Nat
  fn : Nat
  mn : Nat
  synced : Bool
deriving DecidableEq

namespace NetworkTime

def start : NetworkTime := ⟨1, 1, 1, false⟩

/-- From the fields of a SYNC PDU. -/
def synchronize (airTn airFn airMn : Nat) : NetworkTime where
  tn := let t := airTn + 1; if t ≥ 5 then 4 else if t ≤ 0 then 1 else t
  fn := if airFn ≥ 19 then 18 else if airFn ≤ 0 then 1 else airFn
  mn := if airMn ≥ 61 then 60 else if airMn ≤ 0 then 1 else airMn
  synced := true

def advance (t : NetworkTime) : NetworkTime :=
  let t := { t with tn := t.tn + 1 }
  let t := if t.tn > 4 then { t with tn := 1, fn := t.fn + 1 } else t
  let t := if t.fn > 18 then { t with fn := 1, mn := t.mn + 1 } else t
  if t.mn > 60 then { t with mn := 1 } else t

def isBsch (t : NetworkTime) : Bool := t.fn = 18 && t.tn = 4 - (t.mn + 1) % 4

def isBnch (t : NetworkTime) : Bool := t.fn = 18 && t.tn = 4 - (t.mn + 3) % 4

structure InRange (t : NetworkTime) : Prop where
  tn : 1 ≤ t.tn ∧ t.tn ≤ 4
  fn : 1 ≤ t.fn ∧ t.fn ≤ 18
  mn : 1 ≤ t.mn ∧ t.mn ≤ 60

/-- The number of the slot in 60 multiframes. -/
def index (t : NetworkTime) : Nat := ((t.mn - 1) * 18 + (t.fn - 1)) * 4 + (t.tn - 1)

theorem synchronize_inRange (airTn airFn airMn : Nat) :
    (synchronize airTn airFn airMn).InRange := by
  refine ⟨?_, ?_, ?_⟩
  all_goals simp only [synchronize]
  · split
    · decide
    · split <;> omega
  · split
    · decide
    · split <;> omega
  · split
    · decide
    · split <;> omega

/-- Of the limits only the lower ones act on what is within range on the air. -/
theorem synchronize_eq {tn fn mn : Nat} (htn : tn ≤ 3) (hfn : fn ≤ 18) (hmn : mn ≤ 60) :
    synchronize tn fn mn = ⟨tn + 1, max fn 1, max mn 1, true⟩ := by
  have ht : ¬ tn + 1 ≥ 5 := by omega
  have ht' : ¬ tn + 1 ≤ 0 := by omega
  have hf : ¬ fn ≥ 19 := by omega
  have hm : ¬ mn ≥ 61 := by omega
  have hone : ∀ n : Nat, (if n ≤ 0 then 1 else n) = max n 1 := by
    intro n
    split <;> omega
  simp only [synchronize, ht, ht', hf, hm, hone, if_false]

theorem inRange_mk {tn fn mn : Nat} {synced : Bool} (htn : 1 ≤ tn ∧ tn ≤ 4)
    (hfn : 1 ≤ fn ∧ fn ≤ 18) (hmn : 1 ≤ mn ∧ mn ≤ 60) : InRange ⟨tn, fn, mn, synced⟩ :=
  ⟨htn, hfn, hmn⟩

theorem advance_spec {t : NetworkTime} (h : t.InRange) :
    t.advance.InRange ∧ t.advance.index = (t.index + 1) % 4320 := by
  obtain ⟨tn, fn, mn, synced⟩ := t
  obtain ⟨⟨ht, ht'⟩, ⟨hf, hf'⟩, ⟨hm, hm'⟩⟩ := h
  dsimp only at ht ht' hf hf' hm hm'
  by_cases hslot : tn + 1 > 4
  · by_cases hframe : fn + 1 > 18
    · by_cases hmulti : mn + 1 > 60
      · simp only [advance, hslot, hframe, hmulti, if_true]
        refine ⟨inRange_mk (by omega) (by omega) (by omega), ?_⟩
        simp only [index]
        omega
      · simp only [advance, hslot, hframe, hmulti, if_true, if_false]
        refine ⟨inRange_mk (by omega) (by omega) (by omega), ?_⟩
        simp only [index]
        omega
    · have hmulti : ¬ mn > 60 := by omega
      simp only [advance, hslot, hframe, hmulti, if_true, if_false]
      refine ⟨inRange_mk (by omega) (by omega) (by omega), ?_⟩
      simp only [index]
      omega
  · have hframe : ¬ fn > 18 := by omega
    have hmulti : ¬ mn > 60 := by omega
    simp only [advance, hslot, hframe, hmulti, if_false]
    refine ⟨inRange_mk (by omega) (by omega) (by omega), ?_⟩
    simp only [index]
    omega

end NetworkTime

/-! The tool beside the transmitter, slot by slot. -/

/-- The time that the tool loads from a SYNC PDU of the slot `c`. The ports of `tetra_sb1_encoder`
count frames from one, the header of `tetra_tdma_timebase` puts its counters in as they are. -/
def heard (oneBased : Bool) (c : SlotTime) : NetworkTime :=
  .synchronize c.tn.toNat (c.fn.toNat + oneBased.toNat) (c.mn.toNat + oneBased.toNat)

/-- One slot: its SYNC PDU is heard or not, and both go on to the next. -/
def slot (oneBased : Bool) (p : SlotTime × NetworkTime) (sync : Bool) : SlotTime × NetworkTime :=
  (p.1.next, (if sync then heard oneBased p.1 else p.2).advance)

/-- The slots by which the tool is behind once it has heard the slot `c`. -/
def lag (oneBased : Bool) (c : SlotTime) : Nat :=
  if oneBased then 0 else (if c.fn = 0 then 0 else 4) + if c.mn = 0 then 0 else 72

/-- The lag after the slots from `c` on: that of the last one heard. -/
def lagAfter (oneBased : Bool) : SlotTime → Nat → List Bool → Nat
  | _, l, [] => l
  | c, l, sync :: syncs => lagAfter oneBased c.next (if sync then lag oneBased c else l) syncs

/-- The tool shows what the transmitter's counters are when counted from one. -/
structure Shows (t : NetworkTime) (c : SlotTime) : Prop where
  tn : t.tn = c.tn.toNat + 1
  fn : t.fn = c.fn.toNat + 1
  mn : t.mn = c.mn.toNat + 1

/-- Both in range, and the tool `l` slots behind. -/
structure Behind (l : Nat) (p : SlotTime × NetworkTime) : Prop where
  counters : p.1.InRange
  time : p.2.InRange
  behind : (p.2.index + l) % 4320 = p.1.number % 4320

theorem slotTime_digits {c : SlotTime} (h : c.InRange) :
    c.fn.toNat ≤ 17 ∧ c.mn.toNat ≤ 59 ∧
      c.number % 4320 = (c.mn.toNat * 18 + c.fn.toNat) * 4 + c.tn.toNat := by
  have hfn : c.fn.toNat ≤ 17 := h.1
  have hmn : c.mn.toNat ≤ 59 := h.2
  have htn : c.tn.toNat < 4 := c.tn.isLt
  refine ⟨hfn, hmn, ?_⟩
  rw [SlotTime.number]
  omega

theorem heard_behind (oneBased : Bool) {c : SlotTime} (h : c.InRange) :
    (heard oneBased c).index + lag oneBased c = c.number % 4320 := by
  obtain ⟨hfn, hmn, hnumber⟩ := slotTime_digits h
  have htn : c.tn.toNat < 4 := c.tn.isLt
  have hf0 : c.fn = 0 ↔ c.fn.toNat = 0 :=
    ⟨fun h => by rw [h]; rfl, fun h => BitVec.eq_of_toNat_eq h⟩
  have hm0 : c.mn = 0 ↔ c.mn.toNat = 0 :=
    ⟨fun h => by rw [h]; rfl, fun h => BitVec.eq_of_toNat_eq h⟩
  have hone := Bool.toNat_le oneBased
  have hsync : heard oneBased c = ⟨c.tn.toNat + 1, max (c.fn.toNat + oneBased.toNat) 1,
      max (c.mn.toNat + oneBased.toNat) 1, true⟩ :=
    NetworkTime.synchronize_eq (by omega) (by omega) (by omega)
  rw [hnumber, hsync, NetworkTime.index, lag]
  cases oneBased with
  | true =>
    simp only [Bool.toNat_true, if_true]
    omega
  | false =>
    simp only [Bool.toNat_false, Bool.false_eq_true, if_false, Nat.add_zero, hf0, hm0]
    split <;> split <;> omega

theorem Behind.shows_iff {l : Nat} {c : SlotTime} {t : NetworkTime} (h : Behind l (c, t))
    (hl : l < 4320) : Shows t c ↔ l = 0 := by
  obtain ⟨hfn, hmn, hnumber⟩ := slotTime_digits (c := c) h.counters
  have htn : c.tn.toNat < 4 := c.tn.isLt
  obtain ⟨ht, hf, hm⟩ := h.time
  have hbehind := h.behind
  rw [hnumber, NetworkTime.index] at hbehind
  dsimp only at ht hf hm hbehind
  constructor
  · rintro ⟨htn', hfn', hmn'⟩
    rw [htn', hfn', hmn'] at hbehind
    omega
  · rintro rfl
    exact ⟨by omega, by omega, by omega⟩

/-- Four slots behind, or four and a multiframe: the tool's frame 18 is the transmitter's first. -/
theorem Behind.tagged {l : Nat} {c : SlotTime} {t : NetworkTime} (h : Behind l (c, t))
    (hl : l % 72 = 4) (htag : t.isBsch = true ∨ t.isBnch = true) : c.fn = 0 := by
  obtain ⟨hfn, hmn, hnumber⟩ := slotTime_digits (c := c) h.counters
  have htn : c.tn.toNat < 4 := c.tn.isLt
  have hlast : t.fn = 18 := by
    obtain htag | htag := htag
    · exact of_decide_eq_true (Bool.and_eq_true_iff.1 htag).1
    · exact of_decide_eq_true (Bool.and_eq_true_iff.1 htag).1
  obtain ⟨ht, hf, hm⟩ := h.time
  have hbehind := h.behind
  rw [hnumber, NetworkTime.index] at hbehind
  dsimp only at ht hf hm hbehind
  rw [hlast] at hbehind
  refine BitVec.eq_of_toNat_eq ?_
  show c.fn.toNat = 0
  omega

theorem Behind.slot {l : Nat} {p : SlotTime × NetworkTime} (h : Behind l p) (oneBased sync : Bool) :
    Behind (if sync then lag oneBased p.1 else l) (slot oneBased p sync) := by
  have hnext := SlotTime.next_number h.counters
  have hmod : (p.1.number + 1) % SlotTime.SLOTS % 4320 = (p.1.number % 4320 + 1) % 4320 := by
    rw [SlotTime.SLOTS]
    omega
  cases sync with
  | true =>
    have hheard := heard_behind oneBased h.counters
    obtain ⟨hrange, hindex⟩ := NetworkTime.advance_spec
      (t := heard oneBased p.1) (NetworkTime.synchronize_inRange _ _ _)
    refine ⟨SlotTime.next_inRange h.counters, hrange, ?_⟩
    show ((heard oneBased p.1).advance.index + lag oneBased p.1) % 4320 = p.1.next.number % 4320
    rw [hnext, hmod, ← hheard, hindex]
    omega
  | false =>
    obtain ⟨hrange, hindex⟩ := NetworkTime.advance_spec h.time
    have hbehind := h.behind
    refine ⟨SlotTime.next_inRange h.counters, hrange, ?_⟩
    show (p.2.advance.index + l) % 4320 = p.1.next.number % 4320
    rw [hnext, hmod, ← hbehind, hindex]
    omega

theorem behind_run {l : Nat} {p : SlotTime × NetworkTime} (h : Behind l p) (oneBased : Bool)
    (syncs : List Bool) :
    Behind (lagAfter oneBased p.1 l syncs) (exec (slot oneBased) p syncs) := by
  induction syncs generalizing l p with
  | nil => exact h
  | cons sync syncs ih => exact ih (h.slot oneBased sync)

theorem lag_lt (oneBased : Bool) (c : SlotTime) : lag oneBased c < 4320 := by
  rw [lag]
  split
  · decide
  · split <;> split <;> decide

theorem lagAfter_lt (oneBased : Bool) {c : SlotTime} {l : Nat} (hl : l < 4320)
    (syncs : List Bool) : lagAfter oneBased c l syncs < 4320 := by
  induction syncs generalizing c l with
  | nil => exact hl
  | cons sync syncs ih =>
    refine ih ?_
    split
    · exact lag_lt oneBased c
    · exact hl

/-- From the first SYNC PDU on, whichever later ones are heard: the tool stays behind by the lag of
the last. It shows the transmitter's time exactly if that is zero; and where it is a frame behind,
the slots it takes for those of the BSCH and the BNCH are none of the transmitter's frame 18. -/
theorem network_time_behind (oneBased : Bool) {c : SlotTime} (hc : c.InRange) (t : NetworkTime)
    (syncs : List Bool) :
    ∃ c' t', exec (slot oneBased) (c, t) (true :: syncs) = (c', t') ∧
      (t'.index + lagAfter oneBased c 0 (true :: syncs)) % 4320 = c'.number % 4320 ∧
      (Shows t' c' ↔ lagAfter oneBased c 0 (true :: syncs) = 0) ∧
      (lagAfter oneBased c 0 (true :: syncs) % 72 = 4 →
        t'.isBsch = true ∨ t'.isBnch = true → c'.fn = 0) := by
  have hstart : Behind 0 (c, NetworkTime.mk (c.tn.toNat + 1) (c.fn.toNat + 1) (c.mn.toNat + 1)
      true) := by
    obtain ⟨hfn, hmn, hnumber⟩ := slotTime_digits hc
    have htn : c.tn.toNat < 4 := c.tn.isLt
    refine ⟨hc, NetworkTime.inRange_mk (by omega) (by omega) (by omega), ?_⟩
    show (NetworkTime.index _ + 0) % 4320 = c.number % 4320
    rw [hnumber, NetworkTime.index]
    dsimp only
    omega
  have hrun := behind_run (hstart.slot oneBased true) oneBased syncs
  exact ⟨_, _, rfl, hrun.behind, hrun.shows_iff (lagAfter_lt oneBased (lag_lt oneBased c) syncs),
    hrun.tagged⟩

/-- A SYNC PDU of frame 18 with the counters as they are, two slots later. -/
theorem network_time_behind_frame18 :
    ∃ c t, exec (slot false) (⟨1, 17, 5, 0⟩, .start) [true, false] = (c, t) ∧ ¬Shows t c := by
  obtain ⟨c, t, hrun, -, hshows, -⟩ :=
    network_time_behind false (c := ⟨1, 17, 5, 0⟩) ⟨by decide, by decide⟩ .start [false]
  exact ⟨c, t, hrun, hshows.not.2 (by decide)⟩

end TetraBs.FrameClocks
