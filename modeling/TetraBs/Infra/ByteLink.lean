import TetraBs.Infra.Axis
import TetraBs.Lib.Serializer

/-! What the two PS-to-FPGA framers share: the AXI4-Stream slave with a byte consumer behind it,
the lanes of a word in the order of the wire, and frames as words up to `tlast`. -/
namespace TetraBs.Infra
open TetraBs.Bits TetraBs.Run TetraBs.Serial

structure SlaveInput where
  tdata : Word
  tvalid : Bool
  tlast : Bool
  tkeep : BitVec 4
  byteReady : Bool

def SlaveInput.beat (i : SlaveInput) : Beat := ⟨i.tdata, i.tkeep, i.tlast⟩

/-- Lane 3 is 31:24, the first byte on the wire. -/
def laneByte (w : Word) (l : Nat) : Byte := w.extractLsb' (8 * l) 8

/-- The bytes of the kept lanes below lane `l`, first lane first. -/
def lanesBelow (w : Word) (keep : BitVec 4) : Nat → List Byte
  | 0 => []
  | l + 1 => (if keep.getLsbD l then [laneByte w l] else []) ++ lanesBelow w keep l

theorem lanesBelow_kept {w : Word} {keep : BitVec 4} {l : Nat} (h : keep.getLsbD l = true) :
    lanesBelow w keep (l + 1) = laneByte w l :: lanesBelow w keep l := by
  simp [lanesBelow, h]

theorem lanesBelow_skipped {w : Word} {keep : BitVec 4} {l : Nat} (h : keep.getLsbD l = false) :
    lanesBelow w keep (l + 1) = lanesBelow w keep l := by
  simp [lanesBelow, h]

theorem lanesBelow_four (w : Word) (keep : BitVec 4) : lanesBelow w keep 4 = keptBytes w keep := by
  simp [lanesBelow, keptBytes, laneByte]

/-- The bytes that a beat carries. -/
def Beat.bytes (b : Beat) : List Byte := keptBytes b.tdata b.tkeep

/-- Words up to and including the first `tlast`. -/
def IsFrame : List Beat → Prop
  | [] => False
  | b :: bs => if b.tlast then bs = [] else IsFrame bs

instance IsFrame.decidable : (f : List Beat) → Decidable (IsFrame f)
  | [] => isFalse id
  | b :: bs =>
    have := IsFrame.decidable bs
    inferInstanceAs (Decidable (if b.tlast then bs = [] else IsFrame bs))

theorem isFrame_last {b : Beat} {bs : List Beat} (h : b.tlast = true) :
    IsFrame (b :: bs) ↔ bs = [] := by
  rw [IsFrame, if_pos h]

theorem isFrame_more {b : Beat} {bs : List Beat} (h : b.tlast = false) :
    IsFrame (b :: bs) ↔ IsFrame bs := by
  rw [IsFrame, h, if_neg Bool.false_ne_true]

/-- The words of a frame that has not ended. -/
def Unfinished (p : List Beat) : Prop := ∀ b ∈ p, b.tlast = false

/-- How a frame ends at the consumer. -/
inductive Outcome where
  | done | error
deriving DecidableEq

def outcomeOf : Signal Byte → Option Outcome
  | .item _ => none
  | .done => some .done
  | .error => some .error

def outcomes (es : List (Signal Byte)) : List Outcome := es.filterMap outcomeOf

theorem outcomes_append (es fs : List (Signal Byte)) :
    outcomes (es ++ fs) = outcomes es ++ outcomes fs := List.filterMap_append

theorem outcomes_items (bs : List Byte) : outcomes (bs.map .item) = [] := by
  induction bs with
  | nil => rfl
  | cons b bs ih => exact ih

theorem outcomes_raised {σ : Type*} (m : Serializer σ SlaveInput Beat Byte) (s : σ)
    (i : SlaveInput) : outcomes (m.raised s i) = outcomes (m.pulses (m.step s i)) := by
  rw [Serializer.raised, outcomes_append]
  split
  · rw [outcomes_items, List.nil_append]
  · rfl

/-! Emitting a word lane by lane. -/

/-- The lane that a state stands at, whether a lane is emitted or skipped, and the word. -/
structure Lanes (σ : Type*) where
  lane? : σ → Option Nat
  active : σ → Nat → Bool
  word : σ → Word

namespace Lanes
variable {σ : Type*} {L : Lanes σ}

/-- The byte that is still to be loaded at this lane. -/
def queue (L : Lanes σ) (s : σ) : List Byte :=
  match L.lane? s with
  | some l => if L.active s l then [laneByte (L.word s) l] else []
  | none => []

theorem queue_no_lane {s : σ} (h : L.lane? s = none) : L.queue s = [] := by
  rw [queue, h]

theorem queue_skipped {s : σ} {l : Nat} (h : L.lane? s = some l) (ha : L.active s l = false) :
    L.queue s = [] := by
  rw [queue, h]
  exact if_neg (by simp [ha])

theorem queue_active {s : σ} {l : Nat} (h : L.lane? s = some l) (ha : L.active s l = true) :
    L.queue s = [laneByte (L.word s) l] := by
  rw [queue, h]
  exact if_pos ha

theorem active_of_queue {s : σ} {l : Nat} (h : L.lane? s = some l) (hq : L.queue s ≠ []) :
    L.active s l = true := by
  cases ha : L.active s l with
  | true => rfl
  | false => exact absurd (queue_skipped h ha) hq

theorem skipped_of_queue {s : σ} {l : Nat} (h : L.lane? s = some l) (hq : L.queue s = []) :
    L.active s l = false := by
  cases ha : L.active s l with
  | false => rfl
  | true =>
    rw [queue_active h ha] at hq
    cases hq

theorem queue_cons {s : σ} {b : Byte} {q : List Byte} (h : L.queue s = b :: q) :
    ∃ l, L.lane? s = some l ∧ L.active s l = true ∧ b = laneByte (L.word s) l ∧ q = [] := by
  cases hl : L.lane? s with
  | none =>
    rw [queue_no_lane hl] at h
    cases h
  | some l =>
    have ha : L.active s l = true := active_of_queue hl (by simp [h])
    rw [queue_active hl ha] at h
    cases h
    exact ⟨l, rfl, ha, rfl, rfl⟩

/-- With a ready consumer a lane takes one edge. -/
theorem passed {step : σ → SlaveInput → σ}
    (hstep : ∀ {s l i}, L.lane? s = some l → i.byteReady = true →
      L.lane? (step s i) = if l = 0 then none else some (l - 1))
    {s : σ} {l : Nat} (h : L.lane? s = some l) {is : List SlaveInput}
    (hr : ∀ i ∈ is, i.byteReady = true) (hlen : is.length = l + 1) :
    L.lane? (exec step s is) = none := by
  induction is generalizing s l with
  | nil => cases hlen
  | cons i is ih =>
    have hnext := hstep h (hr i List.mem_cons_self)
    cases l with
    | zero =>
      rw [List.eq_nil_of_length_eq_zero (Nat.succ.inj hlen)]
      exact hnext
    | succ l =>
      exact ih hnext (fun j hj => hr j (List.mem_cons_of_mem i hj)) (Nat.succ.inj hlen)

/-- A serializer that emits its words lane by lane. An edge at a lane to be emitted loads the byte
and leaves the lane if the consumer is ready; an edge at any other state clears the register. -/
structure Feeds (L : Lanes σ) (m : Serializer σ SlaveInput Beat Byte) (Inv : σ → Prop) :
    Prop where
  ready_eq (i : SlaveInput) : m.ready i = i.byteReady
  queue_eq (s : σ) : m.queue s = L.queue s
  refill_eq (s : σ) (i : SlaveInput) :
    m.refill s i = if m.queue s = [] ∨ i.byteReady then m.queue (m.step s i) else []
  skip {s : σ} (i : SlaveInput) : Inv s → m.queue s = [] →
    m.offered (m.step s i) = none ∧ (m.queue (m.step s i) ≠ [] → m.first (m.step s i) = true)
  load {s : σ} {l : Nat} {i : SlaveInput} : L.lane? s = some l → L.active s l = true →
    i.byteReady = true → m.offered (m.step s i) = some (laneByte (L.word s) l) ∧
      (m.queue (m.step s i) ≠ [] → m.first (m.step s i) = false)
  wait {s : σ} {l : Nat} {i : SlaveInput} : L.lane? s = some l → L.active s l = true →
    i.byteReady = false → m.offered (m.step s i) = some (laneByte (L.word s) l) ∧
      m.queue (m.step s i) = m.queue s ∧ m.first (m.step s i) = m.first s
  quiet {s : σ} {l : Nat} : Inv s → L.lane? s = some l → m.pulses s = []

variable {m : Serializer σ SlaveInput Beat Byte} {Inv : σ → Prop}

theorem Feeds.loads (h : L.Feeds m Inv) : m.Loads Inv where
  idle {s} i hi hq := by
    have hrefill : m.refill s i = m.queue (m.step s i) := by
      rw [h.refill_eq, if_pos (Or.inl hq)]
    obtain ⟨hoff, hfirst⟩ := h.skip i hi hq
    exact ⟨hoff, hrefill.symm, fun hne => hfirst (hrefill ▸ hne)⟩
  go {s i b q} _ hq hr := by
    rw [h.ready_eq] at hr
    have hrefill : m.refill s i = m.queue (m.step s i) := by
      rw [h.refill_eq, if_pos (Or.inr hr)]
    rw [h.queue_eq] at hq
    obtain ⟨l, hl, ha, rfl, rfl⟩ := queue_cons hq
    obtain ⟨hoff, hfirst⟩ := h.load hl ha hr
    rw [hrefill]
    exact ⟨hoff, rfl, hfirst⟩
  wait {s i b q} _ hq hr := by
    rw [h.ready_eq] at hr
    have hrefill : m.refill s i = [] := by
      rw [h.refill_eq, if_neg (by simp [hq, hr])]
    rw [h.queue_eq] at hq
    obtain ⟨l, hl, ha, rfl, rfl⟩ := queue_cons hq
    obtain ⟨hoff, hqueue, hfirst⟩ := h.wait hl ha hr
    exact ⟨hoff, by rw [hqueue, h.queue_eq, hq], hfirst, hrefill⟩

theorem Feeds.indicates (h : L.Feeds m Inv) : m.Indicates Inv where
  single {s b q} _ hq := by
    rw [h.queue_eq] at hq
    obtain ⟨l, -, -, -, rfl⟩ := queue_cons hq
    rfl
  quiet {s} hi hq := by
    rw [h.queue_eq] at hq
    cases hl : L.lane? s with
    | none => exact absurd (queue_no_lane hl) hq
    | some l => exact h.quiet hi hl

end Lanes

/-- What the consumer is to see of a frame: its payload bytes, each once and in order, then the
end. -/
def script (payload : List Byte) : List (Signal Byte) := payload.map .item ++ [.done]

/-- Next value of a counter that stops at its maximum. -/
def saturatingInc {w : Nat} (c : BitVec w) : BitVec w :=
  if c = BitVec.allOnes w then BitVec.allOnes w else c + 1

theorem saturatingInc_toNat {w : Nat} (c : BitVec w) :
    (saturatingInc c).toNat = min (c.toNat + 1) (2 ^ w - 1) := by
  rw [saturatingInc]
  have hc := c.isLt
  split
  · rename_i h
    have h' := congrArg BitVec.toNat h
    rw [BitVec.toNat_allOnes] at h' ⊢
    omega
  · rename_i h
    have h' : c.toNat ≠ 2 ^ w - 1 := fun heq => h (BitVec.eq_of_toNat_eq (by
      rw [heq, BitVec.toNat_allOnes]))
    have hlt : c.toNat + 1 < 2 ^ w := by omega
    cases w with
    | zero =>
      simp at hlt
    | succ w =>
      have hone : (1 : BitVec (w + 1)).toNat = 1 := by simp
      rw [BitVec.toNat_add, hone, Nat.mod_eq_of_lt hlt]
      omega

/-- A counter that counts until it stops. -/
theorem saturatingInc_counts {w n : Nat} {c : BitVec w} (h : c.toNat = min n (2 ^ w - 1)) :
    (saturatingInc c).toNat = min (n + 1) (2 ^ w - 1) := by
  rw [saturatingInc_toNat, h]
  omega

end TetraBs.Infra
