import Mathlib.Order.Nat
import TetraBs.Lib.Run

/-! The downlink signalling queue `tetra_dl_signal_queue` and the scheduler
`tetra_dl_signal_scheduler` wired to it: `pop_sys` drives the queue's `pop` and the queue
head drives the scheduler. One step is one rising clock edge. -/
namespace TetraBs.DlSignal
open TetraBs.Run

/-- One queue entry. `tag` is the cycle in which the queue accepted the write; no signal
reads it, it only tells two PDUs with equal content apart. -/
structure Entry where
  coded : BitVec 432
  pduType : BitVec 2
  targetTn : Fin 4
  prio : BitVec 2
  secondPduPresent : Bool
  secondPduNr : Bool
  tag : Nat
deriving DecidableEq

structure WritePort where
  valid : Bool
  coded : BitVec 432
  pduType : BitVec 2
  targetTn : Fin 4
deriving DecidableEq

/-- The signals sampled at one clock edge. -/
structure Input where
  wrMle : WritePort
  wrMleSecondPduPresent : Bool
  wrMleSecondPduNr : Bool
  wrCmce : WritePort
  wrSds : WritePort
  tn : Fin 4
  slotPulse : Bool
  nullPduBits : BitVec 216
  sigCompanion : BitVec 216
deriving DecidableEq

structure Queue where
  entry : Fin 4 → Entry
  valid : Fin 4 → Bool
  dropCnt : BitVec 16

structure Scheduler where
  pop : Bool
  poppedSecondPduPresent : Bool
  poppedSecondPduNr : Bool
  schedBlk1 : Fin 4 → BitVec 216
  schedBlk2 : Fin 4 → BitVec 216
  schedNdb2 : Fin 4 → Bool
  schedActive : Fin 4 → Bool
  overrideCnt : BitVec 16
  popCnt : BitVec 16

structure State where
  queue : Queue
  sched : Scheduler

def Entry.reset : Entry := ⟨0, 0, 0, 0, false, false, 0⟩

def reset : State where
  queue := ⟨fun _ => Entry.reset, fun _ => false, 0⟩
  sched := ⟨false, false, false, fun _ => 0, fun _ => 0, fun _ => true, fun _ => false, 0, 0⟩

/-! Queue, combinational part. -/

/-- The `for` loops of the queue run from slot 3 down to slot 0 and reassign: the last
assignment, hence the lowest index, wins. -/
def scanDown (p : Fin 4 → Bool) : Option (Fin 4) :=
  [3, 2, 1, 0].foldl (fun idx i => if p i then some i else idx) none

def freeIdx (q : Queue) : Option (Fin 4) := scanDown fun i => !q.valid i

def hitPrio (q : Queue) (p : BitVec 2) : Option (Fin 4) :=
  scanDown fun i => q.valid i && (q.entry i).prio == p

/-- Strict priority over the valid entries, ties to the lower slot index. -/
def headIdx (q : Queue) : Option (Fin 4) :=
  (hitPrio q 0).or ((hitPrio q 1).or ((hitPrio q 2).or (hitPrio q 3)))

def arbWriteValid (i : Input) : Bool := i.wrMle.valid || i.wrCmce.valid || i.wrSds.valid

/-- The entry the write arbitration installs in cycle `now`: MLE over CMCE over SDS. -/
def arbWrite (now : Nat) (i : Input) : Entry :=
  if i.wrMle.valid then
    ⟨i.wrMle.coded, i.wrMle.pduType, i.wrMle.targetTn, 0,
      i.wrMleSecondPduPresent, i.wrMleSecondPduNr, now⟩
  else if i.wrCmce.valid then
    ⟨i.wrCmce.coded, i.wrCmce.pduType, i.wrCmce.targetTn, 1, false, false, now⟩
  else
    ⟨i.wrSds.coded, i.wrSds.pduType, i.wrSds.targetTn, 2, false, false, now⟩

/-- `free_idx` where `write_accepted` holds. -/
def writeAccepted (q : Queue) (i : Input) : Option (Fin 4) :=
  if arbWriteValid i then freeIdx q else none

def writeAttempts (i : Input) : Nat :=
  i.wrMle.valid.toNat + i.wrCmce.valid.toNat + i.wrSds.valid.toNat

def dropThis (q : Queue) (i : Input) : Nat :=
  (if 2 ≤ writeAttempts i then writeAttempts i - 1 else 0) +
    (if arbWriteValid i ∧ freeIdx q = none then 1 else 0)

def queueStep (now : Nat) (q : Queue) (pop : Bool) (i : Input) : Queue where
  entry := fun k => if writeAccepted q i = some k then arbWrite now i else q.entry k
  valid := fun k =>
    if writeAccepted q i = some k then true
    else if pop ∧ headIdx q = some k then false
    else q.valid k
  dropCnt :=
    if dropThis q i ≠ 0 ∧ q.dropCnt ≠ 0xFFFF then q.dropCnt + BitVec.ofNat 16 (dropThis q i)
    else q.dropCnt

/-! Scheduler. -/

def popTrigger (i : Input) : Bool := i.slotPulse && i.tn == 3

/-- `have_pdu` together with the head entry the scheduler sees in that cycle. -/
def havePdu (q : Queue) (i : Input) : Option Entry :=
  if popTrigger i then (headIdx q).map q.entry else none

def nextBlk1 (pdu : Option Entry) (i : Input) (k : Fin 4) : BitVec 216 :=
  match pdu with
  | some e => if e.targetTn = k then e.coded.extractLsb' 216 216 else i.nullPduBits
  | none => i.nullPduBits

def nextBlk2 (pdu : Option Entry) (i : Input) (k : Fin 4) : BitVec 216 :=
  match pdu with
  | some e =>
    if e.targetTn = k ∧ e.pduType = 0 then e.coded.extractLsb' 0 216 else i.sigCompanion
  | none => i.sigCompanion

def nextNdb2 (pdu : Option Entry) (k : Fin 4) : Bool :=
  match pdu with
  | some e => if e.targetTn = k then e.pduType == 1 else true
  | none => true

def nextActive (pdu : Option Entry) (k : Fin 4) : Bool :=
  match pdu with
  | some e => e.targetTn == k
  | none => false

def countUp (c : BitVec 16) : BitVec 16 := if c ≠ 0xFFFF then c + 1 else c

def schedStep (s : Scheduler) (pdu : Option Entry) (i : Input) : Scheduler where
  pop := pdu.isSome
  poppedSecondPduPresent := (pdu.map Entry.secondPduPresent).getD s.poppedSecondPduPresent
  poppedSecondPduNr := (pdu.map Entry.secondPduNr).getD s.poppedSecondPduNr
  schedBlk1 := if popTrigger i then nextBlk1 pdu i else s.schedBlk1
  schedBlk2 := if popTrigger i then nextBlk2 pdu i else s.schedBlk2
  schedNdb2 := if popTrigger i then nextNdb2 pdu else s.schedNdb2
  schedActive := if popTrigger i then nextActive pdu else s.schedActive
  overrideCnt := if pdu.isSome then countUp s.overrideCnt else s.overrideCnt
  popCnt := if pdu.isSome then countUp s.popCnt else s.popCnt

/-- Both modules take the same edge: every right-hand side reads the state before it. -/
def step (now : Nat) (s : State) (i : Input) : State where
  queue := queueStep now s.queue s.sched.pop i
  sched := schedStep s.sched (havePdu s.queue i) i

def state (inp : Nat → Input) : Nat → State := clocked step reset inp

/-! What the pair does with each accepted PDU. -/

/-- Tag of the PDU latched into the output bundle at the edge of cycle `n`. -/
def latchedAt (inp : Nat → Input) (n : Nat) : Option Nat :=
  (havePdu (state inp n).queue (inp n)).map Entry.tag

/-- Tag of the entry the queue clears at the edge of cycle `n`. -/
def removedAt (inp : Nat → Input) (n : Nat) : Option Nat :=
  if (state inp n).sched.pop then
    (headIdx (state inp n).queue).map fun k => ((state inp n).queue.entry k).tag
  else none

/-- Slot pulses are at least four cycles apart. -/
def SlotPulsesApart (inp : Nat → Input) : Prop :=
  ∀ m n, m < n → (inp m).slotPulse = true → (inp n).slotPulse = true → m + 4 ≤ n

/-- Every PDU is latched at most once, removed only after it was latched, and the removal
that follows a latch removes that PDU and no other. -/
structure NoLossNoDup (inp : Nat → Input) : Prop where
  latched_once : ∀ m n t, latchedAt inp m = some t → latchedAt inp n = some t → m = n
  removed_latched : ∀ n t, removedAt inp n = some t → ∃ m, m < n ∧ latchedAt inp m = some t
  latched_removed : ∀ n t, latchedAt inp n = some t → removedAt inp (n + 1) = some t

/-- Arbitration order of the pop port: the smaller rank is served first. -/
def rank (prio : BitVec 2) (k : Fin 4) : Nat := 4 * prio.toNat + k

/-- In a cycle that latches a PDU, the write accepted in that same cycle does not become
the new queue head. -/
def HeadKept (s : State) (i : Input) : Prop :=
  ∀ h f, popTrigger i = true → headIdx s.queue = some h → writeAccepted s.queue i = some f →
    rank (s.queue.entry h).prio h < rank (arbWrite 0 i).prio f

/-! Arbitration. -/

theorem scanDown_eq (p : Fin 4 → Bool) :
    scanDown p = if p 0 then some 0 else if p 1 then some 1 else
      if p 2 then some 2 else if p 3 then some 3 else none := rfl

theorem forall_slot {P : Fin 4 → Prop} : (∀ j, P j) ↔ P 0 ∧ P 1 ∧ P 2 ∧ P 3 := by
  constructor
  · intro h
    exact ⟨h 0, h 1, h 2, h 3⟩
  · rintro ⟨h0, h1, h2, h3⟩ j
    match j with
    | 0 => exact h0
    | 1 => exact h1
    | 2 => exact h2
    | 3 => exact h3

theorem scanDown_eq_some {p : Fin 4 → Bool} {k : Fin 4} :
    scanDown p = some k ↔ p k = true ∧ ∀ j, p j = true → k ≤ j := by
  rw [scanDown_eq, forall_slot]
  cases h0 : p 0 <;> cases h1 : p 1 <;> cases h2 : p 2 <;> cases h3 : p 3 <;>
    (match k with
      | 0 => simp_all
      | 1 => simp_all
      | 2 => simp_all
      | 3 => simp_all)

theorem scanDown_eq_none {p : Fin 4 → Bool} : scanDown p = none ↔ ∀ j, p j = false := by
  rw [scanDown_eq, forall_slot]
  cases p 0 <;> cases p 1 <;> cases p 2 <;> cases p 3 <;> simp

theorem hitPrio_eq_some {q : Queue} {p : BitVec 2} {k : Fin 4} :
    hitPrio q p = some k ↔ (q.valid k = true ∧ (q.entry k).prio = p) ∧
      ∀ j, q.valid j = true → (q.entry j).prio = p → k ≤ j := by
  simp [hitPrio, scanDown_eq_some]

theorem hitPrio_eq_none {q : Queue} {p : BitVec 2} :
    hitPrio q p = none ↔ ∀ j, q.valid j = true → (q.entry j).prio ≠ p := by
  simp [hitPrio, scanDown_eq_none]

theorem hitPrio_le {q : Queue} {p : BitVec 2} {k : Fin 4} (hk : q.valid k = true)
    (hp : (q.entry k).prio = p) : ∃ h, hitPrio q p = some h ∧ h ≤ k := by
  cases hh : hitPrio q p with
  | none => exact absurd hp (hitPrio_eq_none.1 hh k hk)
  | some h => exact ⟨h, rfl, (hitPrio_eq_some.1 hh).2 k hk hp⟩

theorem rank_lt_of_prio_lt {p r : BitVec 2} (h k : Fin 4) (hpr : p.toNat < r.toNat) :
    rank p h < rank r k := by
  have hh := h.isLt
  simp only [rank]
  omega

theorem rank_inj {p r : BitVec 2} {h k : Fin 4} (hr : rank p h = rank r k) : h = k := by
  have hh := h.isLt
  have hk := k.isLt
  simp only [rank] at hr
  omega

/-- One priority level of the head selection: a hit there beats every entry whose
priority is not smaller. -/
theorem hitPrio_rank_le {q : Queue} {p : BitVec 2} {h k : Fin 4} (hh : hitPrio q p = some h)
    (hk : q.valid k = true) (hp : p.toNat ≤ (q.entry k).prio.toNat) :
    rank (q.entry h).prio h ≤ rank (q.entry k).prio k := by
  obtain ⟨⟨-, hprio⟩, hmin⟩ := hitPrio_eq_some.1 hh
  obtain hlt | heq := Nat.lt_or_eq_of_le hp
  · rw [hprio]
    exact le_of_lt (rank_lt_of_prio_lt h k hlt)
  · have hpk : (q.entry k).prio = p := BitVec.eq_of_toNat_eq heq.symm
    have hle : h ≤ k := hmin k hk hpk
    simp only [rank, hprio, hpk]
    omega

theorem forall_prio {P : BitVec 2 → Prop} : (∀ p, P p) ↔ P 0 ∧ P 1 ∧ P 2 ∧ P 3 := by
  constructor
  · intro h
    exact ⟨h 0, h 1, h 2, h 3⟩
  · rintro ⟨h0, h1, h2, h3⟩ p
    have hp : p = 0 ∨ p = 1 ∨ p = 2 ∨ p = 3 := by
      revert p
      decide
    obtain rfl | rfl | rfl | rfl := hp <;> assumption

theorem headIdx_level {q : Queue} {h : Fin 4} (hh : headIdx q = some h) :
    ∃ p, hitPrio q p = some h ∧ ∀ r : BitVec 2, r.toNat < p.toNat → hitPrio q r = none := by
  simp only [headIdx, Option.or_eq_some_iff] at hh
  obtain h0 | ⟨n0, h1 | ⟨n1, h2 | ⟨n2, h3⟩⟩⟩ := hh
  · exact ⟨0, h0, forall_prio.2 (by simp)⟩
  · exact ⟨1, h1, forall_prio.2 (by simpa using n0)⟩
  · exact ⟨2, h2, forall_prio.2 (by simpa using ⟨n0, n1⟩)⟩
  · exact ⟨3, h3, forall_prio.2 (by simpa using ⟨n0, n1, n2⟩)⟩

theorem headIdx_spec {q : Queue} {h : Fin 4} (hh : headIdx q = some h) :
    q.valid h = true ∧
      ∀ k, q.valid k = true → rank (q.entry h).prio h ≤ rank (q.entry k).prio k := by
  obtain ⟨p, hp, hless⟩ := headIdx_level hh
  refine ⟨(hitPrio_eq_some.1 hp).1.1, fun k hk => hitPrio_rank_le hp hk ?_⟩
  by_contra hlt
  exact hitPrio_eq_none.1 (hless _ (Nat.lt_of_not_le hlt)) k hk rfl

theorem headIdx_isSome {q : Queue} {k : Fin 4} (hk : q.valid k = true) :
    ∃ h, headIdx q = some h := by
  have level : ∀ p, (hitPrio q p).isSome = true → (headIdx q).isSome = true := by
    rw [forall_prio]
    refine ⟨?_, ?_, ?_, ?_⟩ <;> intro h <;> simp only [headIdx, Option.isSome_or, h] <;> simp
  obtain ⟨h, hh, -⟩ := hitPrio_le hk rfl
  rw [← Option.isSome_iff_exists]
  exact level (q.entry k).prio (by simp [hh])

/-- The head is the valid entry of the smallest rank. -/
theorem headIdx_eq_some {q : Queue} {h : Fin 4} :
    headIdx q = some h ↔ q.valid h = true ∧
      ∀ k, q.valid k = true → rank (q.entry h).prio h ≤ rank (q.entry k).prio k := by
  constructor
  · exact headIdx_spec
  · rintro ⟨hv, hmin⟩
    obtain ⟨k, hk⟩ := headIdx_isSome hv
    obtain ⟨hkv, hkmin⟩ := headIdx_spec hk
    rw [hk, rank_inj (le_antisymm (hkmin h hv) (hmin k hkv))]

theorem freeIdx_invalid {q : Queue} {f : Fin 4} (hf : freeIdx q = some f) :
    q.valid f = false := by
  simpa using (scanDown_eq_some.1 hf).1

theorem writeAccepted_invalid {q : Queue} {i : Input} {f : Fin 4}
    (hf : writeAccepted q i = some f) : q.valid f = false := by
  unfold writeAccepted at hf
  split at hf
  · exact freeIdx_invalid hf
  · cases hf

@[simp] theorem arbWrite_tag (now : Nat) (i : Input) : (arbWrite now i).tag = now := by
  rw [arbWrite]
  split
  · rfl
  · split <;> rfl

theorem arbWrite_prio (now : Nat) (i : Input) : (arbWrite now i).prio = (arbWrite 0 i).prio := by
  unfold arbWrite
  split
  · rfl
  · split <;> rfl

/-- What one clock edge can leave in a slot: the accepted write, or an entry that was
already there. -/
theorem queueStep_valid {now : Nat} {q : Queue} {pop : Bool} {i : Input} {k : Fin 4}
    (hk : (queueStep now q pop i).valid k = true) :
    writeAccepted q i = some k ∧ (queueStep now q pop i).entry k = arbWrite now i ∨
      writeAccepted q i ≠ some k ∧ q.valid k = true ∧
        (queueStep now q pop i).entry k = q.entry k ∧ ¬(pop = true ∧ headIdx q = some k) := by
  by_cases hw : writeAccepted q i = some k
  · exact Or.inl ⟨hw, by simp [queueStep, hw]⟩
  · right
    by_cases hp : pop = true ∧ headIdx q = some k
    · simp [queueStep, hw, hp] at hk
    · have hv : q.valid k = true := by
        simp only [queueStep, if_neg hw, if_neg hp] at hk
        exact hk
      exact ⟨hw, hv, by simp [queueStep, hw], hp⟩

/-! Tags. -/

theorem state_succ (inp : Nat → Input) (n : Nat) :
    state inp (n + 1) = step n (state inp n) (inp n) := rfl

/-- Tags of queued entries are accept cycles of the past, all different. -/
structure TagsOk (n : Nat) (q : Queue) : Prop where
  past : ∀ k, q.valid k = true → (q.entry k).tag < n
  inj : ∀ j k, q.valid j = true → q.valid k = true →
    (q.entry j).tag = (q.entry k).tag → j = k

theorem tagsOk_queueStep {n : Nat} {q : Queue} (pop : Bool) (i : Input) (h : TagsOk n q) :
    TagsOk (n + 1) (queueStep n q pop i) := by
  constructor
  · intro k hk
    obtain ⟨-, he⟩ | ⟨-, hv, he, -⟩ := queueStep_valid hk
    · simp [he]
    · have := h.past k hv
      rw [he]
      omega
  · intro j k hj hk htag
    obtain ⟨hwj, hej⟩ | ⟨-, hvj, hej, -⟩ := queueStep_valid hj <;>
      obtain ⟨hwk, hek⟩ | ⟨-, hvk, hek, -⟩ := queueStep_valid hk <;>
      rw [hej, hek] at htag
    · rw [hwj] at hwk
      exact Option.some.inj hwk
    · have := h.past k hvk
      simp at htag
      omega
    · have := h.past j hvj
      simp at htag
      omega
    · exact h.inj j k hvj hvk htag

theorem tagsOk_state (inp : Nat → Input) (n : Nat) : TagsOk n (state inp n).queue := by
  refine clocked_invariant (fun n (s : State) => TagsOk n s.queue) ?_ ?_ n
  · constructor
    · intro k hk
      cases hk
    · intro j k hj
      cases hj
  · intro m hm
    exact tagsOk_queueStep _ _ hm

def Queued (q : Queue) (t : Nat) : Prop := ∃ k, q.valid k = true ∧ (q.entry k).tag = t

theorem queued_queueStep {n : Nat} {q : Queue} {pop : Bool} {i : Input} {t : Nat}
    (hq : Queued (queueStep n q pop i) t) : t = n ∨ Queued q t := by
  obtain ⟨k, hk, ht⟩ := hq
  obtain ⟨-, he⟩ | ⟨-, hv, he, -⟩ := queueStep_valid hk
  · left
    simpa [he] using ht.symm
  · exact Or.inr ⟨k, hv, by rwa [he] at ht⟩

/-- A PDU that left the queue does not come back. -/
theorem not_queued_later (inp : Nat → Input) {m t : Nat} (ht : t < m)
    (hq : ¬Queued (state inp m).queue t) (d : Nat) : ¬Queued (state inp (m + d)).queue t := by
  induction d with
  | zero => exact hq
  | succ d ih =>
    intro h
    obtain h' | h' := queued_queueStep (show Queued (queueStep (m + d) _ _ _) t from h)
    · omega
    · exact ih h'

/-! Latch and removal. -/

theorem latchedAt_eq_some {inp : Nat → Input} {n t : Nat} :
    latchedAt inp n = some t ↔ popTrigger (inp n) = true ∧
      ∃ h, headIdx (state inp n).queue = some h ∧ ((state inp n).queue.entry h).tag = t := by
  rw [latchedAt, havePdu]
  by_cases ht : popTrigger (inp n) = true
  · simp [ht]
  · simp [ht]

theorem removedAt_eq_some {inp : Nat → Input} {n t : Nat} :
    removedAt inp n = some t ↔ (state inp n).sched.pop = true ∧
      ∃ h, headIdx (state inp n).queue = some h ∧ ((state inp n).queue.entry h).tag = t := by
  rw [removedAt]
  by_cases hp : (state inp n).sched.pop = true
  · simp [hp]
  · simp [hp]

/-- `pop_sys` is `have_pdu` of the previous cycle. -/
theorem pop_succ (inp : Nat → Input) (n : Nat) :
    (state inp (n + 1)).sched.pop = true ↔ ∃ t, latchedAt inp n = some t := by
  rw [← Option.isSome_iff_exists]
  simp [latchedAt, state_succ, step, schedStep]

theorem slotPulse_of_latched {inp : Nat → Input} {n t : Nat} (h : latchedAt inp n = some t) :
    (inp n).slotPulse = true := by
  have := (latchedAt_eq_some.1 h).1
  simp only [popTrigger, Bool.and_eq_true] at this
  exact this.1

/-- Slot pulses four cycles apart keep a pop out of every trigger cycle. -/
theorem no_pop_at_latch {inp : Nat → Input} (hp : SlotPulsesApart inp) {n t : Nat}
    (h : latchedAt inp n = some t) : (state inp n).sched.pop = false := by
  rw [← Bool.not_eq_true]
  intro hpop
  cases n with
  | zero => cases hpop
  | succ n =>
    obtain ⟨t', h'⟩ := (pop_succ inp n).1 hpop
    have := hp n (n + 1) (Nat.lt_succ_self n) (slotPulse_of_latched h') (slotPulse_of_latched h)
    omega

theorem removed_not_queued {inp : Nat → Input} {n t : Nat} (h : removedAt inp n = some t) :
    ¬Queued (state inp (n + 1)).queue t := by
  obtain ⟨hpop, k, hk, htag⟩ := removedAt_eq_some.1 h
  have hok := tagsOk_state inp n
  have hkv := (headIdx_spec hk).1
  simp only [state_succ, step]
  rintro ⟨j, hj, htj⟩
  obtain ⟨-, he⟩ | ⟨-, hv, he, hne⟩ := queueStep_valid hj
  · rw [he, arbWrite_tag] at htj
    have := hok.past k hkv
    omega
  · rw [he] at htj
    have : j = k := hok.inj j k hv hkv (htj.trans htag.symm)
    exact hne ⟨hpop, this ▸ hk⟩

/-- After a trigger cycle the head is the latched entry exactly if the write of that
cycle did not overtake it. -/
theorem removedAt_after_latch {inp : Nat → Input} (hp : SlotPulsesApart inp) {n t : Nat}
    (h : latchedAt inp n = some t) :
    removedAt inp (n + 1) = some t ↔ HeadKept (state inp n) (inp n) := by
  obtain ⟨htrig, k, hk, htag⟩ := latchedAt_eq_some.1 h
  obtain ⟨hkv, hkmin⟩ := headIdx_spec hk
  have hpop := no_pop_at_latch hp h
  have hok := tagsOk_state inp n
  generalize hq : (state inp n).queue = q at hk htag hkv hkmin hok
  have hq' : (state inp (n + 1)).queue = queueStep n q false (inp n) := by
    rw [state_succ, step, hpop, hq]
  have hkw : writeAccepted q (inp n) ≠ some k := by
    intro hw
    rw [writeAccepted_invalid hw] at hkv
    cases hkv
  have hke : (queueStep n q false (inp n)).entry k = q.entry k := by simp [queueStep, hkw]
  have hkv' : (queueStep n q false (inp n)).valid k = true := by simp [queueStep, hkw, hkv]
  have hrem : removedAt inp (n + 1) = some t ↔
      headIdx (queueStep n q false (inp n)) = some k := by
    rw [removedAt_eq_some, hq']
    constructor
    · rintro ⟨-, j, hj, htj⟩
      have hok' := tagsOk_queueStep false (inp n) hok
      have : j = k := hok'.inj j k (headIdx_spec hj).1 hkv' (by rw [htj, hke, htag])
      rwa [this] at hj
    · intro hj
      exact ⟨(pop_succ inp n).2 ⟨t, h⟩, k, hj, by rw [hke, htag]⟩
  rw [hrem, headIdx_eq_some, hke]
  rw [HeadKept]
  rw [hq]
  constructor
  · rintro ⟨-, hmin⟩ k' f - hk' hf
    have hfe : (queueStep n q false (inp n)).entry f = arbWrite n (inp n) := by
      simp [queueStep, hf]
    have hfv : (queueStep n q false (inp n)).valid f = true := by simp [queueStep, hf]
    have hkk : k' = k := Option.some.inj (hk'.symm.trans hk)
    subst hkk
    have hle := hmin f hfv
    rw [hfe, arbWrite_prio] at hle
    refine lt_of_le_of_ne hle fun heq => ?_
    rw [← rank_inj heq] at hf
    exact hkw hf
  · intro hkept
    refine ⟨hkv', fun j hj => ?_⟩
    obtain ⟨hw, he⟩ | ⟨-, hv, he, -⟩ := queueStep_valid hj
    · rw [he, arbWrite_prio]
      exact le_of_lt (hkept k j htrig hk hw)
    · rw [he]
      exact hkmin j hv

theorem headKept_of_not_latched {inp : Nat → Input} {n : Nat} (h : latchedAt inp n = none) :
    HeadKept (state inp n) (inp n) := by
  intro k f ht hk _
  rw [latchedAt_eq_some.2 ⟨ht, k, hk, rfl⟩] at h
  cases h

/-- The pair neither loses nor duplicates a PDU exactly if no write accepted in a trigger
cycle becomes the head ahead of the PDU latched in that cycle. -/
theorem no_loss_no_dup_iff_head_kept (inp : Nat → Input) (hp : SlotPulsesApart inp) :
    NoLossNoDup inp ↔ ∀ n, HeadKept (state inp n) (inp n) := by
  constructor
  · intro h n
    cases hl : latchedAt inp n with
    | none => exact headKept_of_not_latched hl
    | some t => exact (removedAt_after_latch hp hl).1 (h.latched_removed n t hl)
  · intro h
    have hrem : ∀ n t, latchedAt inp n = some t → removedAt inp (n + 1) = some t :=
      fun n t hl => (removedAt_after_latch hp hl).2 (h n)
    -- a second latch would need the PDU to be queued again
    have hlate : ∀ m n t, m < n → latchedAt inp m = some t → latchedAt inp n ≠ some t := by
      intro m n t hmn hm hn
      have hgap := hp m n hmn (slotPulse_of_latched hm) (slotPulse_of_latched hn)
      obtain ⟨-, k, hk, htag⟩ := latchedAt_eq_some.1 hm
      have hpast := (tagsOk_state inp m).past k (headIdx_spec hk).1
      have hgone := not_queued_later inp (m := m + 2) (t := t) (by omega)
        (removed_not_queued (hrem m t hm)) (n - (m + 2))
      rw [(by omega : m + 2 + (n - (m + 2)) = n)] at hgone
      obtain ⟨-, j, hj, htj⟩ := latchedAt_eq_some.1 hn
      exact hgone ⟨j, (headIdx_spec hj).1, htj⟩
    refine ⟨fun m n t hm hn => ?_, fun n t hr => ?_, hrem⟩
    · obtain hlt | heq | hgt := Nat.lt_trichotomy m n
      · exact absurd hn (hlate m n t hlt hm)
      · exact heq
      · exact absurd hm (hlate n m t hgt hn)
    · have hpop := (removedAt_eq_some.1 hr).1
      cases n with
      | zero => cases hpop
      | succ n =>
        obtain ⟨t', hl⟩ := (pop_succ inp n).1 hpop
        have : t' = t := Option.some.inj ((hrem n t' hl).symm.trans hr)
        exact ⟨n, Nat.lt_succ_self n, this ▸ hl⟩

/-- A slot pulse every fourth cycle, one CMCE write in cycle 0 and one MLE write in
cycle `w`. The trigger cycles (timeslot 3) are 1, 17, 33, ... -/
def twoWrites (w n : Nat) : Input where
  wrMle := ⟨n == w, 1, 0, 0⟩
  wrMleSecondPduPresent := false
  wrMleSecondPduNr := false
  wrCmce := ⟨n == 0, 2, 0, 0⟩
  wrSds := ⟨false, 0, 0, 0⟩
  tn := Fin.ofNat 4 (n / 4 + 3)
  slotPulse := n % 4 == 1
  nullPduBits := 0
  sigCompanion := 0

theorem twoWrites_apart (w : Nat) : SlotPulsesApart (twoWrites w) := by
  intro m n hmn hm hn
  simp only [twoWrites, beq_iff_eq] at hm hn
  omega

theorem twoWrites_headKept {w : Nat} (hw : w % 4 ≠ 1) (n : Nat) :
    HeadKept (state (twoWrites w) n) (twoWrites w n) := by
  intro h f ht _ hf
  have hn : n % 4 = 1 := by
    simp only [popTrigger, twoWrites, Bool.and_eq_true, beq_iff_eq] at ht
    exact ht.1
  have hidle : arbWriteValid (twoWrites w n) = false := by
    simp only [arbWriteValid, twoWrites, Bool.or_false, Bool.or_eq_false_iff, beq_eq_false_iff_ne]
    constructor <;> omega
  simp [writeAccepted, hidle] at hf

theorem no_loss_no_dup_two_writes : NoLossNoDup (twoWrites 2) :=
  (no_loss_no_dup_iff_head_kept (twoWrites 2) (twoWrites_apart 2)).2
    (twoWrites_headKept (by decide))

/-- The CMCE PDU is latched in cycle 1, the MLE PDU written in that cycle becomes the head
and is removed in its place, and the CMCE PDU goes out again a frame later. -/
theorem overtaken_pdu_lost :
    SlotPulsesApart (twoWrites 1) ∧ latchedAt (twoWrites 1) 1 = some 0 ∧
      removedAt (twoWrites 1) 2 = some 1 ∧ latchedAt (twoWrites 1) 17 = some 0 ∧
      ¬NoLossNoDup (twoWrites 1) := by
  have h1 : latchedAt (twoWrites 1) 1 = some 0 := by decide
  have h17 : latchedAt (twoWrites 1) 17 = some 0 := by decide +kernel
  refine ⟨twoWrites_apart 1, h1, by decide, h17, fun h => ?_⟩
  have := h.latched_once 1 17 0 h1 h17
  omega

end TetraBs.DlSignal
