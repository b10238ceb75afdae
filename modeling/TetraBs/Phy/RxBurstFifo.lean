import Mathlib.Data.List.Infix
import TetraBs.Lib.History
import TetraBs.Lib.Run

/-! `tetra_rx_burst_fifo`: received bursts for the processor, sixteen entries in a memory that is
read through a register. One step is one rising clock edge. -/
namespace TetraBs.Phy
open TetraBs.History TetraBs.Run

def DEPTH : BitVec 5 := 16

/-- One of the two push ports. -/
structure PushPort where
  pulse : Bool
  bits : BitVec 92
  ssi : BitVec 24
  meta8 : BitVec 8

structure RxFifoInput where
  pushA : PushPort
  pushB : PushPort
  pushTs : BitVec 24
  popPulse : Bool

structure RxBurstFifo where
  mem : BitVec 4 → BitVec 148
  wp : BitVec 4
  rp : BitVec 4
  cnt : BitVec 5
  dropCnt : BitVec 16
  rdQ : BitVec 148

/-- The data outputs. -/
structure RxFifoWords where
  data0 : BitVec 32
  data1 : BitVec 32
  data2 : BitVec 32
  metaWord : BitVec 32
  ts : BitVec 32
deriving DecidableEq

namespace RxBurstFifo

/-- The reset does not reach the memory and its read register. -/
def reset (mem : BitVec 4 → BitVec 148) (rdQ : BitVec 148) : RxBurstFifo := ⟨mem, 0, 0, 0, 0, rdQ⟩

def entry (p : PushPort) (ts : BitVec 24) : BitVec 148 := p.bits ++ p.ssi ++ ts ++ p.meta8

/-- An entry on the data outputs. -/
def words (e : BitVec 148) : RxFifoWords :=
  let bits := e.extractLsb' 56 92
  let ssi := e.extractLsb' 32 24
  let ts := e.extractLsb' 8 24
  let meta8 := e.extractLsb' 0 8
  { data0 := bits.extractLsb' 0 32
    data1 := bits.extractLsb' 32 32
    data2 := (0 : BitVec 4) ++ bits.extractLsb' 64 28
    metaWord := ssi ++ meta8
    ts := (0 : BitVec 8) ++ ts }

variable (s : RxBurstFifo) (i : RxFifoInput)

def pushATake : Bool := i.pushA.pulse && s.cnt != DEPTH
def pushBTake : Bool := i.pushB.pulse && !i.pushA.pulse && s.cnt != DEPTH
def pushTake : Bool := s.pushATake i || s.pushBTake i

def pushDrop : Bool :=
  (i.pushA.pulse && !s.pushATake i) || (i.pushB.pulse && !s.pushBTake i && !i.pushA.pulse) ||
    (i.pushB.pulse && i.pushA.pulse)

def pushEntry : BitVec 148 := entry (if s.pushATake i then i.pushA else i.pushB) i.pushTs

def popTake : Bool := i.popPulse && s.cnt != 0

def step : RxBurstFifo where
  mem := if s.pushTake i then Function.update s.mem s.wp (s.pushEntry i) else s.mem
  wp := if s.pushTake i then s.wp + 1 else s.wp
  rp := if s.popTake i then s.rp + 1 else s.rp
  cnt :=
    if s.pushTake i && !s.popTake i then s.cnt + 1
    else if !s.pushTake i && s.popTake i then s.cnt - 1
    else s.cnt
  dropCnt := if s.pushDrop i && s.dropCnt != 0xFFFF then s.dropCnt + 1 else s.dropCnt
  rdQ := s.mem s.rp

def status : BitVec 32 :=
  s.dropCnt ++ (0 : BitVec 8) ++ s.cnt.extractLsb' 0 4 ++ BitVec.ofBool (s.cnt = DEPTH) ++
    BitVec.ofBool (DEPTH >>> 1 ≤ s.cnt) ++ (0 : BitVec 1) ++ BitVec.ofBool (s.cnt = 0)

end RxBurstFifo

/-- The FIFO with its history. -/
structure WatchedFifo where
  fifo : RxBurstFifo
  /-- The entries accepted so far. -/
  accepted : List (BitVec 148)
  /-- What the data outputs showed at the pops taken so far. -/
  presented : List RxFifoWords
  /-- Push pulses on either port. -/
  pulses : Nat
  /-- Increments due to the drop counter. -/
  drops : Nat
  /-- In the last cycle the FIFO held something and nothing was popped. -/
  settled : Bool

namespace WatchedFifo

def reset (mem : BitVec 4 → BitVec 148) (rdQ : BitVec 148) : WatchedFifo :=
  ⟨.reset mem rdQ, [], [], 0, 0, false⟩

def step (w : WatchedFifo) (i : RxFifoInput) : WatchedFifo where
  fifo := w.fifo.step i
  accepted := if w.fifo.pushTake i then w.accepted ++ [w.fifo.pushEntry i] else w.accepted
  presented :=
    if w.fifo.popTake i then w.presented ++ [RxBurstFifo.words w.fifo.rdQ] else w.presented
  pulses := w.pulses + i.pushA.pulse.toNat + i.pushB.pulse.toNat
  drops := w.drops + (w.fifo.pushDrop i).toNat
  settled := w.fifo.cnt != 0 && !w.fifo.popTake i

/-- The documented contract: what the pops saw are the oldest entries in order, and every push
pulse is stored, popped or counted as dropped. -/
structure Contract (w : WatchedFifo) : Prop where
  presented : w.presented <+: w.accepted.map RxBurstFifo.words
  conserved : w.pulses = w.fifo.cnt.toNat + w.presented.length + w.drops
  dropCnt : w.fifo.dropCnt.toNat = min w.drops 0xFFFF

/-- A pop comes after a cycle in which the FIFO held something and was not popped, and the ports do
not both push into a full FIFO. -/
structure Paced (w : WatchedFifo) (i : RxFifoInput) : Prop where
  pop : w.fifo.popTake i = true → w.settled = true
  push : w.fifo.cnt = DEPTH → ¬(i.pushA.pulse = true ∧ i.pushB.pulse = true)

/-- Pointers, counter and memory follow the history; after a settled cycle the read register holds
the head. -/
structure Inv (w : WatchedFifo) : Prop where
  cnt : w.fifo.cnt.toNat + w.presented.length = w.accepted.length
  cnt_le : w.fifo.cnt.toNat ≤ 16
  wp : w.fifo.wp = BitVec.ofNat 4 w.accepted.length
  rp : w.fifo.rp = BitVec.ofNat 4 w.presented.length
  mem : Records w.fifo.mem w.accepted
  rdQ : w.settled = true → w.fifo.rdQ = w.fifo.mem w.fifo.rp

end WatchedFifo

namespace RxBurstFifo
variable {s : RxBurstFifo} {i : RxFifoInput}

theorem not_full_of_pushTake (h : s.pushTake i = true) : s.cnt ≠ DEPTH := by
  intro hfull
  simp [pushTake, pushATake, pushBTake, hfull] at h

theorem not_empty_of_popTake (h : s.popTake i = true) : s.cnt ≠ 0 := by
  intro hempty
  simp [popTake, hempty] at h

theorem step_cnt (hle : s.cnt.toNat ≤ 16) :
    (s.step i).cnt.toNat + (s.popTake i).toNat = s.cnt.toNat + (s.pushTake i).toNat := by
  have hpush := not_full_of_pushTake (s := s) (i := i)
  have hpop := not_empty_of_popTake (s := s) (i := i)
  simp only [step]
  cases hu : s.pushTake i <;> cases ho : s.popTake i
  · simp
  · have hne := hpop ho
    simp only [Bool.not_false, Bool.and_true, Bool.not_true, Bool.and_false, Bool.false_eq_true,
      if_false, if_true, Bool.toNat_true, Bool.toNat_false]
    bv_omega
  · have hne := hpush hu
    simp only [DEPTH] at hne
    simp only [Bool.not_false, Bool.and_true, if_true, Bool.toNat_true, Bool.toNat_false]
    bv_omega
  · simp

/-- Every push pulse is taken or dropped; two at once are one too many for the drop counter when
the FIFO is full. -/
theorem pulses_eq (s : RxBurstFifo) (i : RxFifoInput) :
    i.pushA.pulse.toNat + i.pushB.pulse.toNat = (s.pushTake i).toNat + (s.pushDrop i).toNat +
      (decide (s.cnt = DEPTH) && i.pushA.pulse && i.pushB.pulse).toNat := by
  have hroom : (s.cnt != DEPTH) = !decide (s.cnt = DEPTH) := rfl
  simp only [pushTake, pushDrop, pushATake, pushBTake, hroom]
  cases i.pushA.pulse <;> cases i.pushB.pulse <;> cases decide (s.cnt = DEPTH) <;> rfl

end RxBurstFifo

namespace WatchedFifo
open RxBurstFifo
variable {w : WatchedFifo} {i : RxFifoInput}

theorem inv_reset (mem : BitVec 4 → BitVec 148) (rdQ : BitVec 148) : Inv (reset mem rdQ) :=
  ⟨rfl, Nat.zero_le 16, rfl, rfl, records_nil mem, nofun⟩

theorem contract_reset (mem : BitVec 4 → BitVec 148) (rdQ : BitVec 148) :
    Contract (reset mem rdQ) :=
  ⟨List.nil_prefix, rfl, rfl⟩

theorem step_accepted_length (w : WatchedFifo) (i : RxFifoInput) :
    (w.step i).accepted.length = w.accepted.length + (w.fifo.pushTake i).toNat := by
  simp only [step]
  cases w.fifo.pushTake i <;> simp

theorem step_presented_length (w : WatchedFifo) (i : RxFifoInput) :
    (w.step i).presented.length = w.presented.length + (w.fifo.popTake i).toNat := by
  simp only [step]
  cases w.fifo.popTake i <;> simp

/-- Between the pointers there is at least one entry and there is room. -/
theorem Inv.wp_ne_rp (h : Inv w) (hempty : w.fifo.cnt ≠ 0) (hfull : w.fifo.cnt ≠ DEPTH) :
    w.fifo.wp ≠ w.fifo.rp := by
  have hcnt := h.cnt
  have hle := h.cnt_le
  have hpos : w.fifo.cnt.toNat ≠ 0 := by bv_omega
  have hlt : w.fifo.cnt.toNat ≠ 16 := by
    simp only [DEPTH] at hfull
    bv_omega
  rw [h.wp, h.rp]
  intro heq
  have hmod := congrArg BitVec.toNat heq
  rw [BitVec.toNat_ofNat, BitVec.toNat_ofNat] at hmod
  omega

theorem Inv.step (h : Inv w) (i : RxFifoInput) : Inv (w.step i) := by
  have hcnt := h.cnt
  have hsum := step_cnt (i := i) h.cnt_le
  have hacc := step_accepted_length w i
  have hpres := step_presented_length w i
  have hfifo : (w.step i).fifo = w.fifo.step i := rfl
  constructor
  · rw [hfifo, hacc, hpres]
    omega
  · rw [hfifo]
    have hfull := not_full_of_pushTake (s := w.fifo) (i := i)
    have hle := h.cnt_le
    cases hu : w.fifo.pushTake i with
    | false =>
      rw [hu, Bool.toNat_false] at hsum
      omega
    | true =>
      have hne := hfull hu
      have hlt : w.fifo.cnt.toNat ≠ 16 := by
        simp only [DEPTH] at hne
        bv_omega
      rw [hu, Bool.toNat_true] at hsum
      omega
  · rw [hacc, BitVec.ofNat_add, ← h.wp]
    simp only [WatchedFifo.step, RxBurstFifo.step]
    cases w.fifo.pushTake i <;> simp
  · rw [hpres, BitVec.ofNat_add, ← h.rp]
    simp only [WatchedFifo.step, RxBurstFifo.step]
    cases w.fifo.popTake i <;> simp
  · simp only [WatchedFifo.step, RxBurstFifo.step]
    cases w.fifo.pushTake i with
    | false => exact h.mem
    | true =>
      rw [if_pos rfl, if_pos rfl, h.wp]
      exact h.mem.push _
  · intro hset
    simp only [WatchedFifo.step, Bool.and_eq_true, bne_iff_ne, ne_eq, Bool.not_eq_true'] at hset
    obtain ⟨hempty, hpop⟩ := hset
    simp only [WatchedFifo.step, RxBurstFifo.step, hpop, Bool.false_eq_true, if_false]
    cases hu : w.fifo.pushTake i with
    | false => rfl
    | true =>
      rw [if_pos rfl, Function.update_of_ne (h.wp_ne_rp hempty (not_full_of_pushTake hu)).symm]

/-- At a pop after a settled cycle the outputs show the oldest entry. -/
theorem Inv.head (h : Inv w) (hpop : w.fifo.popTake i = true) (hset : w.settled = true) :
    (w.accepted.map words)[w.presented.length]? = some (words w.fifo.rdQ) := by
  have hcnt := h.cnt
  have hle := h.cnt_le
  have hne := not_empty_of_popTake hpop
  have hlt : w.presented.length < w.accepted.length := by bv_omega
  have hmem := h.mem w.presented.length hlt (by omega)
  rw [List.getElem?_map, List.getElem?_eq_getElem hlt, ← hmem, ← h.rp, ← h.rdQ hset]
  rfl

theorem Contract.step (h : Contract w) (hinv : Inv w) (hp : Paced w i) : Contract (w.step i) := by
  have hfifo : (w.step i).fifo = w.fifo.step i := rfl
  constructor
  · have hgrow : w.accepted.map words <+: (w.step i).accepted.map words := by
      simp only [WatchedFifo.step]
      split
      · rw [List.map_append]
        exact List.prefix_append _ _
      · exact List.prefix_refl _
    refine List.IsPrefix.trans ?_ hgrow
    simp only [WatchedFifo.step]
    cases hpop : w.fifo.popTake i with
    | false => exact h.presented
    | true =>
      obtain ⟨hlt, heq⟩ := List.getElem?_eq_some_iff.1 (hinv.head hpop (hp.pop hpop))
      rw [if_pos rfl, ← heq]
      exact List.concat_get_prefix h.presented hlt
  · have hpulses := pulses_eq w.fifo i
    have hsum := step_cnt (i := i) hinv.cnt_le
    have hpres := step_presented_length w i
    have hnow := h.conserved
    have htwo : (decide (w.fifo.cnt = DEPTH) && i.pushA.pulse && i.pushB.pulse) = false := by
      by_cases hfull : w.fifo.cnt = DEPTH
      · have hno := hp.push hfull
        cases ha : i.pushA.pulse <;> cases hb : i.pushB.pulse <;> simp_all
      · simp [hfull]
    rw [htwo, Bool.toNat_false, Nat.add_zero] at hpulses
    rw [hfifo, hpres]
    simp only [WatchedFifo.step]
    omega
  · have hnow := h.dropCnt
    simp only [WatchedFifo.step, RxBurstFifo.step]
    cases w.fifo.pushDrop i with
    | false => simpa using hnow
    | true =>
      by_cases hsat : w.fifo.dropCnt = 0xFFFF
      · rw [hsat] at hnow ⊢
        simp only [bne_self_eq_false, Bool.and_false, Bool.false_eq_true, if_false,
          Bool.toNat_true]
        have hval : (0xFFFF : BitVec 16).toNat = 0xFFFF := rfl
        omega
      · have hbelow : w.fifo.dropCnt.toNat ≠ 0xFFFF := by bv_omega
        simp only [bne_iff_ne, ne_eq, hsat, not_false_eq_true, Bool.true_and, if_true,
          Bool.toNat_true]
        have hsucc : (w.fifo.dropCnt + 1).toNat = w.fifo.dropCnt.toNat + 1 := by bv_omega
        omega

/-- In a run whose pops and pushes are paced, the contract holds in every state. -/
theorem fifo_contract {mem : BitVec 4 → BitVec 148} {rdQ : BitVec 148} {is : List RxFifoInput}
    (h : Along step Paced (reset mem rdQ) is) :
    ∀ pre, pre <+: is → Contract (exec step (reset mem rdQ) pre) := by
  rintro pre ⟨post, rfl⟩
  have hpre := (along_append.1 h).1
  have hboth := exec_invariant (P := Paced) (fun w => Inv w ∧ Contract w)
    (fun w i hw hp => ⟨hw.1.step i, hw.2.step hw.1 hp⟩)
    ⟨inv_reset mem rdQ, contract_reset mem rdQ⟩ hpre
  exact hboth.2

def noPush : PushPort := ⟨false, 0, 0, 0⟩
def quiet : RxFifoInput := ⟨noPush, noPush, 0, false⟩
def pushOne (bits : BitVec 92) : RxFifoInput := ⟨⟨true, bits, 0, 0⟩, noPush, 0, false⟩
def pop : RxFifoInput := ⟨noPush, noPush, 0, true⟩

def pushBoth : RxFifoInput := ⟨⟨true, 1, 0, 0⟩, ⟨true, 2, 0, 0⟩, 0, false⟩

theorem fifo_contract_spaced_pops :
    Contract (exec step (reset (fun _ => 0) 0)
      [pushOne 1, quiet, pushOne 2, pop, quiet, pop]) := by
  have hpaced : Along step Paced (reset (fun _ => 0) 0)
      [pushOne 1, quiet, pushOne 2, pop, quiet, pop] :=
    ⟨⟨by decide, by decide⟩, ⟨by decide, by decide⟩, ⟨by decide, by decide⟩,
      ⟨by decide, by decide⟩, ⟨by decide, by decide⟩, ⟨by decide, by decide⟩, trivial⟩
  exact fifo_contract hpaced _ (List.prefix_refl _)

/-- Two pops one after the other see the same entry, a pop right after the push into an empty
FIFO sees what was in the memory before, and two pushes at once into a full one count as one. -/
theorem hasty_pops :
    (exec step (reset (fun _ => 0) 0) [pushOne 1, quiet, pushOne 2, pop, pop]).presented =
        [words (entry (pushOne 1).pushA 0), words (entry (pushOne 1).pushA 0)] ∧
      (exec step (reset (fun _ => 0) 0) [pushOne 1, pop]).presented = [words 0] ∧
      ¬Contract (exec step (reset (fun _ => 0) 0) [pushOne 1, quiet, pushOne 2, pop, pop]) ∧
      ¬Contract (exec step (reset (fun _ => 0) 0) [pushOne 1, pop]) ∧
      ¬Contract
        (exec step (reset (fun _ => 0) 0) (List.replicate 16 (pushOne 1) ++ [pushBoth])) := by
  have htwo : (exec step (reset (fun _ => 0) 0) [pushOne 1, quiet, pushOne 2, pop, pop]).presented =
      [words (entry (pushOne 1).pushA 0), words (entry (pushOne 1).pushA 0)] := by decide +kernel
  have hone : (exec step (reset (fun _ => 0) 0) [pushOne 1, pop]).presented = [words 0] := by
    decide +kernel
  refine ⟨htwo, hone, fun h => ?_, fun h => ?_, fun h => ?_⟩
  · have hpre := h.presented
    revert hpre
    decide +kernel
  · have hpre := h.presented
    revert hpre
    decide +kernel
  · have hsum := h.conserved
    revert hsum
    decide +kernel

end WatchedFifo
end TetraBs.Phy
