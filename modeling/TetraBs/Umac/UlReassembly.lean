import TetraBs.Umac.UlInterleaving
import Mathlib.Data.List.Nodup

/-! What becomes of each fragment 1 in the reassembly, whatever pulses meet in one cycle. A
fragment 1 is known by the cycle it arrived in. -/
namespace TetraBs.UlReassembly
open TetraBs.Run
open TetraBs.UlAccess (Reassembly Slot Stimuli Apart t0Eff dropNew matchAny reassemblyStep
  slotsAfterFrag1 holds_iff reassemblyStep_valid)

inductive Fate where
  | emitted | replaced | timedOut | rejected
deriving DecidableEq

def Fate.isDrop : Fate → Bool
  | .timedOut | .rejected => true
  | _ => false

/-- The module with the cycles so far, the arrival of the fragment in each slot, the arrivals of
all fragments, and what became of them. -/
structure Traced where
  reasm : Reassembly
  past : List Stimuli
  id0 : Nat
  id1 : Nat
  arrived : List Nat
  fates : List (Nat × Fate)

def start : Traced := ⟨Reassembly.reset, [], 0, 0, [], []⟩

/-- The slot takes a newer fragment of its own station. -/
def replaces (s : Slot) (i : Stimuli) : Bool := i.frag1Pulse && s.holds i.frag1Ssi

/-- The slot is joined to a continuation. -/
def joins (s : Slot) (i : Stimuli) : Bool := i.endHuPulse && s.holds i.endHuSsi

def allocates0 (r : Reassembly) (i : Stimuli) : Bool :=
  i.frag1Pulse && !r.s0.occ && !r.s1.holds i.frag1Ssi

def allocates1 (r : Reassembly) (i : Stimuli) : Bool :=
  i.frag1Pulse && r.s0.occ && !r.s1.occ && !r.s0.holds i.frag1Ssi

def slotFates (s : Slot) (id : Nat) (i : Stimuli) : List (Nat × Fate) :=
  (if s.expires i.frameTick then [(id, .timedOut)] else []) ++
    (if replaces s i then [(id, .replaced)] else []) ++
    (if joins s i then [(id, .emitted)] else [])

def observe (t : Traced) (i : Stimuli) : Traced :=
  let now := t.past.length
  { reasm := reassemblyStep t.reasm i
    past := t.past ++ [i]
    id0 := if replaces t.reasm.s0 i || allocates0 t.reasm i then now else t.id0
    id1 := if replaces t.reasm.s1 i || allocates1 t.reasm i then now else t.id1
    arrived := t.arrived ++ if i.frag1Pulse then [now] else []
    fates := t.fates ++ (slotFates t.reasm.s0 t.id0 i ++ slotFates t.reasm.s1 t.id1 i ++
      if dropNew t.reasm i then [(now, .rejected)] else []) }

def stored (s : Slot) (id : Nat) : List Nat := if s.occ then [id] else []

/-- Every account that is kept of a fragment. -/
def ledger (t : Traced) : List Nat :=
  t.fates.map Prod.fst ++ (stored t.reasm.s0 t.id0 ++ stored t.reasm.s1 t.id1)

def ticks (is : List Stimuli) : Nat := is.countP Stimuli.frameTick

/-- `i` of cycle `k` is the last fragment 1 of `ssi` in the cycles `past`; `later` came after it. -/
structure Latest (past : List Stimuli) (k : Nat) (ssi : BitVec 24) (i : Stimuli)
    (later : List Stimuli) : Prop where
  split : ∃ pre, past = pre ++ i :: later ∧ pre.length = k
  pulse : i.frag1Pulse = true
  ssi_eq : i.frag1Ssi = ssi
  last : ∀ j ∈ later, j.frag1Pulse = true → j.frag1Ssi ≠ ssi

/-- A body on the output joins the last fragment 1 of its station, received within the timeout,
and the continuation of the same cycle, and is recorded. -/
def RightBody (t : Traced) : Prop :=
  t.reasm.valid = true →
    ∃ k i later last, Latest t.past k t.reasm.ssi i (later ++ [last]) ∧
      ticks later < (t0Eff i).toNat ∧ last.endHuPulse = true ∧ last.endHuSsi = t.reasm.ssi ∧
      t.reasm.body = i.frag1Bits ++ last.endHuBits ∧ (k, Fate.emitted) ∈ t.fates

structure Correct (t : Traced) : Prop where
  apart : Apart t.reasm.s0 t.reasm.s1
  body : RightBody t
  once : ∀ k, t.fates.count (k, .emitted) ≤ 1
  fragments : (ledger t).Perm t.arrived
  drops : t.reasm.dropCnt = BitVec.ofNat 16 (t.fates.countP fun f => f.2.isDrop)

/-- At most one thing happens to the slot. -/
def Calm (s : Slot) (i : Stimuli) : Prop :=
  ¬(s.expires i.frameTick = true ∧ replaces s i = true) ∧
    ¬(s.expires i.frameTick = true ∧ joins s i = true) ∧
    ¬(replaces s i = true ∧ joins s i = true)

instance (s : Slot) (i : Stimuli) : Decidable (Calm s i) :=
  inferInstanceAs (Decidable (_ ∧ _ ∧ _))

/-- At most one loss is to be counted. -/
def OneLoss (r : Reassembly) (i : Stimuli) : Prop :=
  ¬(r.s0.expires i.frameTick = true ∧ r.s1.expires i.frameTick = true) ∧
    ¬((r.s0.expires i.frameTick || r.s1.expires i.frameTick) = true ∧ dropNew r i = true)

instance (r : Reassembly) (i : Stimuli) : Decidable (OneLoss r i) :=
  inferInstanceAs (Decidable (_ ∧ _))

def Meets (t : Traced) (i : Stimuli) : Prop :=
  Calm t.reasm.s0 i ∧ Calm t.reasm.s1 i ∧ OneLoss t.reasm i

instance (t : Traced) (i : Stimuli) : Decidable (Meets t i) :=
  inferInstanceAs (Decidable (_ ∧ _ ∧ _))

/-! One slot. -/

/-- A slot after timer and fragment 1. -/
def kept (s : Slot) (i : Stimuli) (alloc : Bool) : Slot :=
  if replaces s i then (s.tick i.frameTick).refresh i.frag1Bits (t0Eff i)
  else if alloc then ⟨true, i.frag1Ssi, i.frag1Bits, t0Eff i⟩
  else s.tick i.frameTick

/-- A slot after an edge. -/
def slotNext (s : Slot) (i : Stimuli) (alloc : Bool) : Slot :=
  if joins s i then { kept s i alloc with occ := false } else kept s i alloc

theorem not_holds_free {s : Slot} (h : s.occ = false) (ssi : BitVec 24) : s.holds ssi = false := by
  rw [Slot.holds, h]
  rfl

theorem apart_holds {s0 s1 : Slot} (h : Apart s0 s1) {ssi : BitVec 24} (h0 : s0.holds ssi = true) :
    s1.holds ssi = false := by
  cases h1 : s1.holds ssi with
  | false => rfl
  | true =>
    obtain ⟨ho0, hs0⟩ := holds_iff.1 h0
    obtain ⟨ho1, hs1⟩ := holds_iff.1 h1
    exact absurd (hs0.trans hs1.symm) (h ho0 ho1)

theorem slotsAfterFrag1_eq {r : Reassembly} (h : Apart r.s0 r.s1) (i : Stimuli) :
    slotsAfterFrag1 r i = (kept r.s0 i (allocates0 r i), kept r.s1 i (allocates1 r i)) := by
  cases hp : i.frag1Pulse with
  | false => simp [slotsAfterFrag1, kept, replaces, allocates0, allocates1, hp]
  | true =>
    cases h0 : r.s0.holds i.frag1Ssi with
    | true =>
      have h1 := apart_holds h h0
      have ho := (holds_iff.1 h0).1
      simp [slotsAfterFrag1, kept, replaces, allocates1, hp, h0, h1, ho]
    | false =>
      cases h1 : r.s1.holds i.frag1Ssi with
      | true =>
        simp [slotsAfterFrag1, kept, replaces, allocates0, hp, h0, h1]
      | false =>
        cases ho0 : r.s0.occ <;> cases ho1 : r.s1.occ <;>
          simp [slotsAfterFrag1, kept, replaces, allocates0, allocates1, hp, h0, h1, ho0, ho1]

/-- As long as the slots are apart, both are treated alike. -/
theorem reassemblyStep_slots {r : Reassembly} (h : Apart r.s0 r.s1) (i : Stimuli) :
    (reassemblyStep r i).s0 = slotNext r.s0 i (allocates0 r i) ∧
      (reassemblyStep r i).s1 = slotNext r.s1 i (allocates1 r i) := by
  cases he : i.endHuPulse with
  | false => simp [reassemblyStep, slotsAfterFrag1_eq h, slotNext, joins, he]
  | true =>
    cases h0 : r.s0.holds i.endHuSsi with
    | true =>
      simp [reassemblyStep, slotsAfterFrag1_eq h, slotNext, joins, matchAny, he, h0, apart_holds h h0]
    | false =>
      cases h1 : r.s1.holds i.endHuSsi <;>
        simp [reassemblyStep, slotsAfterFrag1_eq h, slotNext, joins, matchAny, he, h0, h1]

theorem allocates0_free (r : Reassembly) (i : Stimuli) (h : allocates0 r i = true) :
    r.s0.occ = false := by
  simp only [allocates0, Bool.and_eq_true, Bool.not_eq_true'] at h
  exact h.1.2

theorem allocates1_free (r : Reassembly) (i : Stimuli) (h : allocates1 r i = true) :
    r.s1.occ = false := by
  simp only [allocates1, Bool.and_eq_true, Bool.not_eq_true'] at h
  exact h.1.2

theorem slotNext_occ (s : Slot) (i : Stimuli) {alloc : Bool} (ha : alloc = true → s.occ = false) :
    (slotNext s i alloc).occ =
      ((s.occ && !s.expires i.frameTick || alloc) && !joins s i) := by
  have hfree : s.occ = false → replaces s i = false ∧ joins s i = false := fun h => by
    simp [replaces, joins, not_holds_free h]
  cases ho : s.occ with
  | false =>
    obtain ⟨hr, hj⟩ := hfree ho
    cases alloc <;> simp [slotNext, kept, hr, hj, ho, Slot.tick]
  | true =>
    have halloc : alloc = false := by
      cases alloc with
      | false => rfl
      | true => rw [ha rfl] at ho; cases ho
    cases hj : joins s i <;> cases hr : replaces s i <;>
      simp [slotNext, kept, hj, hr, halloc, Slot.tick, Slot.refresh, Slot.expires, ho] <;>
      cases i.frameTick <;> simp [ho]

theorem slotFates_fst (s : Slot) (id : Nat) (i : Stimuli) :
    (slotFates s id i).map Prod.fst =
      List.replicate ((s.expires i.frameTick).toNat + (replaces s i).toNat + (joins s i).toNat) id := by
  cases he : s.expires i.frameTick <;> cases hr : replaces s i <;> cases hj : joins s i <;>
    simp [slotFates, he, hr, hj]

theorem expires_occ {s : Slot} {tick : Bool} (h : s.expires tick = true) : s.occ = true := by
  simp only [Slot.expires, Bool.and_eq_true] at h
  exact h.1.2

/-- The account of one slot: what it held and what it takes on one side, what befalls it and what
it then holds on the other. -/
theorem slot_balance {s : Slot} {i : Stimuli} {alloc : Bool} (ha : alloc = true → s.occ = false)
    (hc : Calm s i) (id now : Nat) :
    (stored s id ++ if replaces s i || alloc then [now] else []).Perm
      ((slotFates s id i).map Prod.fst ++
        stored (slotNext s i alloc) (if replaces s i || alloc then now else id)) := by
  rw [stored, stored, slotFates_fst, slotNext_occ s i ha]
  obtain ⟨her, hej, hrj⟩ := hc
  cases ho : s.occ with
  | false =>
    have he : s.expires i.frameTick = false := by
      cases he : s.expires i.frameTick with
      | false => rfl
      | true => rw [expires_occ he] at ho; cases ho
    have hr : replaces s i = false := by simp [replaces, not_holds_free ho]
    have hj : joins s i = false := by simp [joins, not_holds_free ho]
    cases alloc <;> simp [he, hr, hj]
  | true =>
    have halloc : alloc = false := by
      cases alloc with
      | false => rfl
      | true => rw [ha rfl] at ho; cases ho
    cases he : s.expires i.frameTick <;> cases hr : replaces s i <;> cases hj : joins s i <;>
      simp_all

theorem happenings_of_not_calm {s : Slot} {i : Stimuli} (h : ¬ Calm s i) :
    2 ≤ (s.expires i.frameTick).toNat + (replaces s i).toNat + (joins s i).toNat := by
  by_contra hlt
  apply h
  refine ⟨fun ⟨h1, h2⟩ => hlt ?_, fun ⟨h1, h2⟩ => hlt ?_, fun ⟨h1, h2⟩ => hlt ?_⟩ <;>
    rw [h1, h2] <;> simp

/-! All fragments. -/

/-- A fragment 1 replaces one, is stored anew, or is rejected. -/
theorem arrival_split {r : Reassembly} (h : Apart r.s0 r.s1) (i : Stimuli) (now : Nat) :
    (if i.frag1Pulse then [now] else []) =
      (if replaces r.s0 i || allocates0 r i then [now] else []) ++
        (if replaces r.s1 i || allocates1 r i then [now] else []) ++
        (if dropNew r i then [now] else []) := by
  cases hp : i.frag1Pulse with
  | false => simp [replaces, allocates0, allocates1, dropNew, hp]
  | true =>
    cases h0 : r.s0.holds i.frag1Ssi with
    | true =>
      have h1 := apart_holds h h0
      have ho := (holds_iff.1 h0).1
      simp [replaces, allocates0, allocates1, dropNew, hp, h0, h1, ho]
    | false =>
      cases h1 : r.s1.holds i.frag1Ssi with
      | true =>
        have ho := (holds_iff.1 h1).1
        simp [replaces, allocates0, allocates1, dropNew, hp, h0, h1, ho]
      | false =>
        cases ho0 : r.s0.occ <;> cases ho1 : r.s1.occ <;>
          simp [replaces, allocates0, allocates1, dropNew, hp, h0, h1, ho0, ho1]

theorem ledger_observe (t : Traced) (h : Apart t.reasm.s0 t.reasm.s1) (i : Stimuli) :
    ledger (observe t i) =
      t.fates.map Prod.fst ++ ((slotFates t.reasm.s0 t.id0 i).map Prod.fst ++
        (slotFates t.reasm.s1 t.id1 i).map Prod.fst ++
        if dropNew t.reasm i then [t.past.length] else []) ++
      (stored (slotNext t.reasm.s0 i (allocates0 t.reasm i)) (observe t i).id0 ++
        stored (slotNext t.reasm.s1 i (allocates1 t.reasm i)) (observe t i).id1) := by
  obtain ⟨hs0, hs1⟩ := reassemblyStep_slots h i
  rw [ledger, ← hs0, ← hs1]
  cases hd : dropNew t.reasm i <;> simp [observe, hd]

theorem ledger_step {t : Traced} (h : Apart t.reasm.s0 t.reasm.s1) {i : Stimuli}
    (h0 : Calm t.reasm.s0 i) (h1 : Calm t.reasm.s1 i) :
    (ledger t ++ if i.frag1Pulse then [t.past.length] else []).Perm (ledger (observe t i)) := by
  apply List.perm_iff_count.2
  intro k
  have hbal0 := (slot_balance (allocates0_free t.reasm i) h0 t.id0 t.past.length).count_eq k
  have hbal1 := (slot_balance (allocates1_free t.reasm i) h1 t.id1 t.past.length).count_eq k
  rw [ledger_observe t h, ledger, arrival_split h]
  simp only [List.count_append] at hbal0 hbal1 ⊢
  change _ = _ + (_ + _ + _) + (List.count k (stored _ _) + List.count k (stored _ _))
  simp only [observe]
  omega

/-- What befalls a slot in one cycle is recorded. -/
theorem ledger_ge {t : Traced} (h : Apart t.reasm.s0 t.reasm.s1) {i : Stimuli}
    (hc : ¬(Calm t.reasm.s0 i ∧ Calm t.reasm.s1 i)) : ∃ k, 2 ≤ (ledger (observe t i)).count k := by
  rw [ledger_observe t h]
  by_cases h0 : Calm t.reasm.s0 i
  · have htwo := happenings_of_not_calm fun h1 => hc ⟨h0, h1⟩
    refine ⟨t.id1, ?_⟩
    simp only [List.count_append, slotFates_fst, List.count_replicate_self]
    omega
  · have htwo := happenings_of_not_calm h0
    refine ⟨t.id0, ?_⟩
    simp only [List.count_append, slotFates_fst, List.count_replicate_self]
    omega

/-! The counter. -/

theorem dropCnt_step (r : Reassembly) (i : Stimuli) :
    (reassemblyStep r i).dropCnt = r.dropCnt +
      if r.s0.expires i.frameTick || r.s1.expires i.frameTick || dropNew r i then 1 else 0 := by
  cases hl : r.s0.expires i.frameTick || r.s1.expires i.frameTick || dropNew r i <;>
    simp only [reassemblyStep, hl] <;> split_ifs <;> simp

theorem slotFates_drops (s : Slot) (id : Nat) (i : Stimuli) :
    (slotFates s id i).countP (fun f => f.2.isDrop) = (s.expires i.frameTick).toNat := by
  cases he : s.expires i.frameTick <;> cases hr : replaces s i <;> cases hj : joins s i <;>
    simp [slotFates, he, hr, hj, Fate.isDrop]

theorem drops_observe (t : Traced) (i : Stimuli) :
    (observe t i).fates.countP (fun f => f.2.isDrop) =
      t.fates.countP (fun f => f.2.isDrop) + ((t.reasm.s0.expires i.frameTick).toNat +
        (t.reasm.s1.expires i.frameTick).toNat + (dropNew t.reasm i).toNat) := by
  rw [observe]
  simp only [List.countP_append, slotFates_drops]
  cases dropNew t.reasm i <;> simp [Fate.isDrop]

/-- The counter follows exactly if there is one loss at most. -/
theorem drops_step {t : Traced} {i : Stimuli}
    (h : t.reasm.dropCnt = BitVec.ofNat 16 (t.fates.countP fun f => f.2.isDrop)) :
    (observe t i).reasm.dropCnt =
        BitVec.ofNat 16 ((observe t i).fates.countP fun f => f.2.isDrop) ↔
      OneLoss t.reasm i := by
  rw [drops_observe, show (observe t i).reasm = reassemblyStep t.reasm i from rfl, dropCnt_step, h]
  generalize t.fates.countP (fun f => f.2.isDrop) = n
  simp only [OneLoss]
  cases t.reasm.s0.expires i.frameTick <;> cases t.reasm.s1.expires i.frameTick <;>
    cases dropNew t.reasm i <;> simp <;> bv_omega

/-! The fragment in a slot. -/

/-- An occupied slot holds the last fragment of its station, and its timer has not run out. -/
def Holds (s : Slot) (id : Nat) (past : List Stimuli) : Prop :=
  s.occ = true → ∃ i later, Latest past id s.ssi i later ∧ s.frag1 = i.frag1Bits ∧
    0 < s.t0Left.toNat ∧ ticks later + s.t0Left.toNat = (t0Eff i).toNat

theorem t0Eff_pos (i : Stimuli) : 0 < (t0Eff i).toNat := by
  rw [t0Eff]
  split
  · decide
  · rename_i h
    exact Nat.pos_of_ne_zero fun h0 => h (BitVec.eq_of_toNat_eq h0)

theorem ticks_snoc (is : List Stimuli) (i : Stimuli) :
    ticks (is ++ [i]) = ticks is + i.frameTick.toNat := by
  rw [ticks, List.countP_append, List.countP_singleton]
  cases i.frameTick <;> rfl

theorem latest_new (past : List Stimuli) {i : Stimuli} (h : i.frag1Pulse = true) :
    Latest (past ++ [i]) past.length i.frag1Ssi i [] :=
  ⟨⟨past, rfl, rfl⟩, h, rfl, fun _ hj => nomatch hj⟩

theorem Latest.push {past later : List Stimuli} {k : Nat} {ssi : BitVec 24} {i j : Stimuli}
    (h : Latest past k ssi i later) (hj : j.frag1Pulse = true → j.frag1Ssi ≠ ssi) :
    Latest (past ++ [j]) k ssi i (later ++ [j]) := by
  obtain ⟨⟨pre, rfl, hk⟩, hp, hs, hl⟩ := h
  refine ⟨⟨pre, by simp, hk⟩, hp, hs, fun c hc => ?_⟩
  rcases List.mem_append.1 hc with hc | hc
  · exact hl c hc
  · rw [List.mem_singleton.1 hc]
    exact hj

theorem other_of_not_replaces {s : Slot} {i : Stimuli} (ho : s.occ = true)
    (hr : replaces s i = false) : i.frag1Pulse = true → i.frag1Ssi ≠ s.ssi := by
  intro hp heq
  have hh : s.holds i.frag1Ssi = true := holds_iff.2 ⟨ho, heq.symm⟩
  rw [replaces, hp, hh] at hr
  cases hr

theorem slotNext_ssi (s : Slot) (i : Stimuli) (alloc : Bool) :
    (slotNext s i alloc).ssi = if replaces s i || alloc then i.frag1Ssi else s.ssi := by
  cases hr : replaces s i with
  | true =>
    have hssi : s.ssi = i.frag1Ssi := (holds_iff.1 (Bool.and_eq_true_iff.1 hr).2).2
    simp only [slotNext, kept, hr, if_true, Bool.true_or, ← hssi]
    split <;> exact UlAccess.Slot.tick_ssi s _
  | false =>
    cases alloc <;> simp only [slotNext, kept, hr, Bool.false_eq_true, if_false, if_true, Bool.or_self,
      Bool.or_true] <;> split <;> first | rfl | exact UlAccess.Slot.tick_ssi s _

theorem holds_new {s : Slot} {past : List Stimuli} {i : Stimuli} (hp : i.frag1Pulse = true)
    (hssi : s.ssi = i.frag1Ssi) (hbits : s.frag1 = i.frag1Bits) (ht : s.t0Left = t0Eff i) :
    Holds s past.length (past ++ [i]) := by
  intro _
  refine ⟨i, [], ?_, hbits, ?_, ?_⟩
  · rw [hssi]
    exact latest_new past hp
  · rw [ht]
    exact t0Eff_pos i
  · rw [ht]
    exact Nat.zero_add _

/-- A timer that did not run out. -/
theorem holds_ticked {s : Slot} {id : Nat} {past : List Stimuli} (h : Holds s id past) {i : Stimuli}
    (hr : replaces s i = false) : Holds (s.tick i.frameTick) id (past ++ [i]) := by
  intro hocc
  have ho := UlAccess.Slot.tick_occ hocc
  obtain ⟨j, later, hlatest, hbits, hpos, hsum⟩ := h ho
  refine ⟨j, later ++ [i], ?_, ?_, ?_⟩
  · rw [UlAccess.Slot.tick_ssi]
    exact hlatest.push (other_of_not_replaces ho hr)
  · rw [UlAccess.Slot.tick_frag1, hbits]
  · rw [ticks_snoc]
    cases ht : i.frameTick with
    | false =>
      rw [Slot.tick, Bool.false_and, if_neg Bool.false_ne_true]
      exact ⟨hpos, hsum⟩
    | true =>
      rw [ht] at hocc
      simp only [Slot.tick, ho, Bool.and_self, if_true, ne_eq, decide_eq_true_eq] at hocc ⊢
      have hne : s.t0Left ≠ 0 := fun h0 => by
        rw [h0] at hpos
        exact absurd hpos (by decide)
      rw [if_neg hne, Bool.toNat_true]
      constructor <;> bv_omega

theorem holds_free (s : Slot) (id : Nat) (past : List Stimuli) :
    Holds { s with occ := false } id past := fun ho => nomatch ho

theorem holds_step {s : Slot} {id : Nat} {past : List Stimuli} (h : Holds s id past) (i : Stimuli)
    {alloc : Bool} (ha : alloc = true → i.frag1Pulse = true) :
    Holds (slotNext s i alloc) (if replaces s i || alloc then past.length else id)
      (past ++ [i]) := by
  have hkept : Holds (kept s i alloc) (if replaces s i || alloc then past.length else id)
      (past ++ [i]) := by
    rw [kept]
    cases hr : replaces s i with
    | true =>
      obtain ⟨hp, hh⟩ := Bool.and_eq_true_iff.1 hr
      have hssi : (s.tick i.frameTick).ssi = i.frag1Ssi := by
        rw [UlAccess.Slot.tick_ssi]
        exact (holds_iff.1 hh).2
      exact holds_new hp hssi rfl rfl
    | false =>
      cases alloc with
      | true => exact holds_new (ha rfl) rfl rfl rfl
      | false => exact holds_ticked h hr
  rw [slotNext]
  split
  · exact holds_free _ _ _
  · exact hkept

/-! The invariant. -/

structure Inv (t : Traced) : Prop where
  apart : Apart t.reasm.s0 t.reasm.s1
  slot0 : Holds t.reasm.s0 t.id0 t.past
  slot1 : Holds t.reasm.s1 t.id1 t.past
  arrived_lt : ∀ k ∈ t.arrived, k < t.past.length
  arrived_nodup : t.arrived.Nodup

theorem inv_start : Inv start where
  apart h := nomatch h
  slot0 h := nomatch h
  slot1 h := nomatch h
  arrived_lt _ h := nomatch h
  arrived_nodup := List.nodup_nil

/-- A fragment goes to one slot. -/
theorem taken_once {r : Reassembly} (h : Apart r.s0 r.s1) (i : Stimuli) :
    ¬((replaces r.s0 i || allocates0 r i) = true ∧ (replaces r.s1 i || allocates1 r i) = true) := by
  have hone := arrival_split h i 0
  rintro ⟨h0, h1⟩
  rw [h0, h1] at hone
  have hlen := congrArg List.length hone
  cases hp : i.frag1Pulse <;> cases hd : dropNew r i <;> simp [hp, hd] at hlen

theorem pulse_of_taken0 {r : Reassembly} {i : Stimuli}
    (h : (replaces r.s0 i || allocates0 r i) = true) : i.frag1Pulse = true := by
  cases hp : i.frag1Pulse with
  | true => rfl
  | false => simp [replaces, allocates0, hp] at h

theorem pulse_of_taken1 {r : Reassembly} {i : Stimuli}
    (h : (replaces r.s1 i || allocates1 r i) = true) : i.frag1Pulse = true := by
  cases hp : i.frag1Pulse with
  | true => rfl
  | false => simp [replaces, allocates1, hp] at h

theorem apart_step {r : Reassembly} (h : Apart r.s0 r.s1) (i : Stimuli) :
    Apart (reassemblyStep r i).s0 (reassemblyStep r i).s1 := by
  obtain ⟨hs0, hs1⟩ := reassemblyStep_slots h i
  rw [hs0, hs1]
  intro ho0 ho1
  rw [slotNext_occ _ _ (allocates0_free r i)] at ho0
  rw [slotNext_occ _ _ (allocates1_free r i)] at ho1
  rw [slotNext_ssi, slotNext_ssi]
  have hocc0 : allocates0 r i = false → r.s0.occ = true := fun ha => by
    rw [ha, Bool.or_false] at ho0
    exact (Bool.and_eq_true_iff.1 (Bool.and_eq_true_iff.1 ho0).1).1
  have hocc1 : allocates1 r i = false → r.s1.occ = true := fun ha => by
    rw [ha, Bool.or_false] at ho1
    exact (Bool.and_eq_true_iff.1 (Bool.and_eq_true_iff.1 ho1).1).1
  cases h0 : replaces r.s0 i || allocates0 r i with
  | false =>
    obtain ⟨hr0, ha0⟩ := Bool.or_eq_false_iff.1 h0
    cases h1 : replaces r.s1 i || allocates1 r i with
    | false => exact h (hocc0 ha0) (hocc1 (Bool.or_eq_false_iff.1 h1).2)
    | true => exact fun heq => other_of_not_replaces (hocc0 ha0) hr0 (pulse_of_taken1 h1) heq.symm
  | true =>
    cases h1 : replaces r.s1 i || allocates1 r i with
    | false =>
      obtain ⟨hr1, ha1⟩ := Bool.or_eq_false_iff.1 h1
      exact other_of_not_replaces (hocc1 ha1) hr1 (pulse_of_taken0 h0)
    | true => exact absurd ⟨h0, h1⟩ (taken_once h i)

theorem inv_step (t : Traced) (i : Stimuli) (h : Inv t) : Inv (observe t i) := by
  obtain ⟨hs0, hs1⟩ := reassemblyStep_slots h.apart i
  refine ⟨apart_step h.apart i, ?_, ?_, fun k hk => ?_, ?_⟩
  · change Holds (reassemblyStep t.reasm i).s0 _ (t.past ++ [i])
    rw [hs0]
    exact holds_step h.slot0 i fun ha => pulse_of_taken0 (by rw [ha, Bool.or_true])
  · change Holds (reassemblyStep t.reasm i).s1 _ (t.past ++ [i])
    rw [hs1]
    exact holds_step h.slot1 i fun ha => pulse_of_taken1 (by rw [ha, Bool.or_true])
  · change k < (t.past ++ [i]).length
    rw [List.length_append]
    rcases List.mem_append.1 hk with hk | hk
    · exact Nat.lt_add_right _ (h.arrived_lt k hk)
    · split at hk
      · rw [List.mem_singleton.1 hk]
        exact Nat.lt_add_one _
      · cases hk
  · change (t.arrived ++ _).Nodup
    refine List.Nodup.append h.arrived_nodup ?_ ?_
    · split <;> simp
    · intro k hk hnow
      split at hnow
      · rw [List.mem_singleton.1 hnow] at hk
        exact absurd (h.arrived_lt _ hk) (Nat.lt_irrefl _)
      · cases hnow

/-! One cycle. -/

theorem fates_of_joins (s : Slot) (id : Nat) {i : Stimuli} (h : joins s i = true) :
    (id, Fate.emitted) ∈ slotFates s id i := by
  simp [slotFates, h]

/-- The body comes from the slot that is joined. -/
theorem rightBody_step {t : Traced} (h : Inv t) {i : Stimuli} (h0 : Calm t.reasm.s0 i)
    (h1 : Calm t.reasm.s1 i) : RightBody (observe t i) := by
  intro hv
  obtain ⟨hpulse, -, s, hs, hholds, hssi, hbody⟩ := reassemblyStep_valid hv
  obtain ⟨hocc, htag⟩ := holds_iff.1 hholds
  have hjoins : joins s i = true := by rw [joins, hpulse, hholds]; rfl
  obtain ⟨id, hslot, hcalm, hfate⟩ : ∃ id, Holds s id t.past ∧ Calm s i ∧
      (id, Fate.emitted) ∈ (observe t i).fates := by
    rcases hs with rfl | rfl
    · exact ⟨t.id0, h.slot0, h0, by simp [observe, fates_of_joins _ _ hjoins]⟩
    · exact ⟨t.id1, h.slot1, h1, by simp [observe, fates_of_joins _ _ hjoins]⟩
  have hr : replaces s i = false := by
    cases hr : replaces s i with
    | false => rfl
    | true => exact absurd ⟨hr, hjoins⟩ hcalm.2.2
  obtain ⟨j, later, hlatest, hbits, hpos, hsum⟩ := hslot hocc
  have hsame : (observe t i).reasm.ssi = s.ssi := hssi
  refine ⟨id, j, later, i, ?_, by omega, hpulse, ?_, ?_, hfate⟩
  · rw [hsame]
    exact hlatest.push (other_of_not_replaces hocc hr)
  · rw [hsame, htag]
  · exact hbody.trans (by rw [hbits])

theorem correct_start : Correct start where
  apart := inv_start.apart
  body h := nomatch h
  once _ := Nat.zero_le 1
  fragments := List.Perm.refl _
  drops := rfl

theorem correct_step {t : Traced} {i : Stimuli} (h : Inv t) (hc : Correct t) :
    Correct (observe t i) ↔ Meets t i := by
  have hinv := inv_step t i h
  constructor
  · intro hc'
    by_contra hm
    by_cases hcalm : Calm t.reasm.s0 i ∧ Calm t.reasm.s1 i
    · exact hm ⟨hcalm.1, hcalm.2, (drops_step hc.drops).1 hc'.drops⟩
    · obtain ⟨k, hk⟩ := ledger_ge h.apart hcalm
      rw [hc'.fragments.count_eq] at hk
      have hle := List.nodup_iff_count_le_one.1 hinv.arrived_nodup k
      omega
  · rintro ⟨h0, h1, hloss⟩
    have hfragments : (ledger (observe t i)).Perm (observe t i).arrived :=
      (ledger_step h.apart h0 h1).symm.trans (hc.fragments.append_right _)
    refine ⟨hinv.apart, rightBody_step h h0 h1, fun k => ?_, hfragments,
      (drops_step hc.drops).2 hloss⟩
    calc (observe t i).fates.count (k, .emitted)
      _ ≤ ((observe t i).fates.map Prod.fst).count k :=
        List.count_le_count_map (f := Prod.fst) (x := (k, Fate.emitted))
      _ ≤ (ledger (observe t i)).count k := by
        rw [ledger, List.count_append]
        exact Nat.le_add_right _ _
      _ = (observe t i).arrived.count k := hfragments.count_eq k
      _ ≤ 1 := List.nodup_iff_count_le_one.1 hinv.arrived_nodup k

/-- The reassembly keeps right accounts in every state of exactly those runs in which no cycle
does two things to one slot and no cycle has two losses to count. -/
theorem fragments_accounted_iff (is : List Stimuli) :
    (∀ pre, pre <+: is → Correct (exec observe start pre)) ↔ Along observe Meets start is := by
  rw [forall_prefix_iff, ← along_after_iff Inv inv_step (fun t i => correct_step) inv_start
    correct_start]
  exact and_iff_right correct_start

def frag1 (ssi : BitVec 24) (bits : BitVec 44) : Stimuli := ⟨0, false, true, ssi, bits, false, 0, 0⟩

def tick : Stimuli := ⟨0, true, false, 0, 0, false, 0, 0⟩

/-- The timers of both slots run out with one tick: the counter goes up by one. -/
theorem two_timeouts_counted_once :
    ¬ ∀ pre, pre <+: [frag1 5 1, frag1 6 2, tick, tick] → Correct (exec observe start pre) := by
  intro h
  have hdrops := (h _ List.prefix_rfl).drops
  exact absurd hdrops (by decide +kernel)

end TetraBs.UlReassembly
