import TetraBs.Phy.UlSyncDetect
import TetraBs.Lib.Run

/-! `tetra_ul_pi4dqpsk_demod`: a sample times the conjugate of the one before it, in three pipeline
stages. One step is one rising clock edge. The products and sums are integers: for samples of 16
bits the registers hold them exactly. -/
namespace TetraBs.Phy
open TetraBs.Run

structure DemodInput where
  iq : IqSample
  valid : Bool
  first : Bool
  last : Bool
  half : Bool
deriving DecidableEq

structure UlDemod where
  prev : IqSample
  hasPrev : Bool
  pendingFirst : Bool
  mulII : Int
  mulQQ : Int
  mulQI : Int
  mulIQ : Int
  validS1 : Bool
  firstS1 : Bool
  lastS1 : Bool
  halfS1 : Bool
  reZ : Int
  imZ : Int
  validS2 : Bool
  firstS2 : Bool
  lastS2 : Bool
  halfS2 : Bool
  softBit0 : BitVec 8
  softBit1 : BitVec 8
  softValid : Bool
  softFirst : Bool
  softLast : Bool
  softHalf : Bool

namespace UlDemod

def reset : UlDemod where
  prev := ⟨0, 0⟩
  hasPrev := false
  pendingFirst := false
  mulII := 0
  mulQQ := 0
  mulQI := 0
  mulIQ := 0
  validS1 := false
  firstS1 := false
  lastS1 := false
  halfS1 := false
  reZ := 0
  imZ := 0
  validS2 := false
  firstS2 := false
  lastS2 := false
  halfS2 := false
  softBit0 := 0
  softBit1 := 0
  softValid := false
  softFirst := false
  softLast := false
  softHalf := false

/-- `z[2*IQ_WIDTH -: SOFT_WIDTH]`: the top eight of 33 bits. -/
def slice (z : Int) : BitVec 8 := BitVec.ofInt 8 (z / 2 ^ 25)

def emit (s : UlDemod) (i : DemodInput) : Bool := i.valid && !i.first && s.hasPrev

def step (s : UlDemod) (i : DemodInput) : UlDemod where
  prev := if i.valid then i.iq else s.prev
  hasPrev := if i.valid && i.first then true else s.hasPrev
  pendingFirst :=
    if i.valid then if i.first then true else if s.hasPrev then false else s.pendingFirst
    else s.pendingFirst
  mulII := i.iq.i * s.prev.i
  mulQQ := i.iq.q * s.prev.q
  mulQI := i.iq.q * s.prev.i
  mulIQ := i.iq.i * s.prev.q
  validS1 := emit s i
  firstS1 := emit s i && s.pendingFirst
  lastS1 := emit s i && i.last
  halfS1 := i.half
  reZ := s.mulII + s.mulQQ
  imZ := s.mulQI - s.mulIQ
  validS2 := s.validS1
  firstS2 := s.firstS1
  lastS2 := s.lastS1
  halfS2 := s.halfS1
  softBit0 := slice s.reZ
  softBit1 := slice s.imZ
  softValid := s.validS2
  softFirst := s.firstS2
  softLast := s.lastS2
  softHalf := s.halfS2

/-! What comes out: one pair for each sample that has one before it. -/

/-- The soft values of a symbol: the imaginary part, then the real part. -/
def softPair (prev cur : IqSample) : BitVec 8 × BitVec 8 :=
  (slice (cur.q * prev.i - cur.i * prev.q), slice (cur.i * prev.i + cur.q * prev.q))

/-- The pair that the output registers show. -/
def shown (s : UlDemod) : List (BitVec 8 × BitVec 8) :=
  if s.softValid then [(s.softBit1, s.softBit0)] else []

/-- The pairs in the pipeline, oldest first. -/
def queue (s : UlDemod) : List (BitVec 8 × BitVec 8) :=
  s.shown ++ (if s.validS2 then [(slice s.imZ, slice s.reZ)] else []) ++
    (if s.validS1 then [(slice (s.mulQI - s.mulIQ), slice (s.mulII + s.mulQQ))] else [])

/-- The pairs that a run shows. -/
def outputs : UlDemod → List DemodInput → List (BitVec 8 × BitVec 8)
  | _, [] => []
  | s, i :: is => s.shown ++ outputs (s.step i) is

/-- A sample, and whether it starts a half. -/
def sample (i : DemodInput) : Option (IqSample × Bool) :=
  if i.valid then some (i.iq, i.first) else none

/-- The pairs of neighbouring samples; `prev` is the sample before them, if there is one. -/
def pairs : Option IqSample → List (IqSample × Bool) → List (BitVec 8 × BitVec 8)
  | _, [] => []
  | _, (x, true) :: xs => pairs (some x) xs
  | none, (_, false) :: xs => pairs none xs
  | some p, (x, false) :: xs => softPair p x :: pairs (some x) xs

/-- The reference for the next sample. -/
def reference (s : UlDemod) : Option IqSample := if s.hasPrev then some s.prev else none

variable {s : UlDemod} {i : DemodInput}

/-- One edge moves the pipeline on and takes up the pair of the new sample. -/
theorem queue_step (s : UlDemod) (i : DemodInput) :
    s.shown ++ (s.step i).queue =
      s.queue ++ if emit s i then [softPair s.prev i.iq] else [] := by
  rw [queue, queue, List.append_assoc, List.append_assoc, List.append_assoc]
  rfl

theorem reference_step (s : UlDemod) (i : DemodInput) (xs : List (IqSample × Bool)) :
    (if emit s i then [softPair s.prev i.iq] else []) ++ pairs (s.step i).reference xs =
      pairs s.reference ((sample i).toList ++ xs) := by
  cases hv : i.valid with
  | false => simp [emit, reference, step, sample, hv]
  | true =>
    cases hf : i.first with
    | true => simp [emit, reference, step, sample, hv, hf, pairs]
    | false =>
      cases hp : s.hasPrev with
      | false => simp [emit, reference, step, sample, hv, hf, hp, pairs]
      | true => simp [emit, reference, step, sample, hv, hf, hp, pairs]

/-- A run shows what was in the pipeline and then the pairs of its samples, but for those that are
still in the pipeline. -/
theorem outputs_queue (s : UlDemod) (is : List DemodInput) :
    outputs s is ++ (exec step s is).queue = s.queue ++ pairs s.reference (is.filterMap sample) := by
  induction is generalizing s with
  | nil => simp [outputs, exec, pairs]
  | cons i is ih =>
    have hsamples : (i :: is).filterMap sample = (sample i).toList ++ is.filterMap sample := by
      cases h : sample i with
      | none => rw [List.filterMap_cons_none h]; rfl
      | some x => rw [List.filterMap_cons_some h]; rfl
    rw [outputs, exec, List.append_assoc, ih, ← List.append_assoc, queue_step, List.append_assoc,
      reference_step, hsamples]

/-! The end of a burst. -/

/-- The pipeline is empty. -/
structure Drained (s : UlDemod) : Prop where
  validS1 : s.validS1 = false
  validS2 : s.validS2 = false
  softValid : s.softValid = false

theorem Drained.queue (h : Drained s) : s.queue = [] := by
  simp [UlDemod.queue, shown, h.validS1, h.validS2, h.softValid]

theorem Drained.step (h : Drained s) (hi : i.valid = false) : Drained (s.step i) where
  validS1 := by simp [UlDemod.step, emit, hi]
  validS2 := h.validS1
  softValid := h.validS2

theorem drained_reset : Drained reset := ⟨rfl, rfl, rfl⟩

theorem drained_three (s : UlDemod) {i₁ i₂ i₃ : DemodInput} (h₁ : i₁.valid = false)
    (h₂ : i₂.valid = false) (h₃ : i₃.valid = false) :
    Drained (((s.step i₁).step i₂).step i₃) where
  validS1 := by simp [UlDemod.step, emit, h₃]
  validS2 := by simp [UlDemod.step, emit, h₂]
  softValid := by simp [UlDemod.step, emit, h₁]

end UlDemod
end TetraBs.Phy
