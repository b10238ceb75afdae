import TetraBs.Lib.Lfsr
import TetraBs.Lib.Serializer

/-! The standalone convolutional encoder `tetra_rcpc_encoder` with its rate-2/3 puncturing. One
step is one rising clock edge. -/
namespace TetraBs.Lmac.Rcpc
open TetraBs.Run TetraBs.Serial TetraBs.ConvCode

structure Input where
  dataIn : Bool
  dataValid : Bool
  punctPattern : BitVec 3
  flush : Bool
deriving DecidableEq

structure State where
  flushActive : Bool
  flushCnt : BitVec 2
  sr : BitVec 4
  codedBits : BitVec 4
  codedValid : Bool
  bitPhase : Bool
  punctOutBits : BitVec 2
  punctValid : Bool
  punctOutCnt : Bool

def reset : State := ⟨false, 0, 0, 0, false, false, 0, false, false⟩

/-- `K - 2`: the value of `flush_cnt` at the last tail bit. -/
def TAIL_LAST : BitVec 2 := 3

/-- The pattern that selects rate 2/3. -/
def RATE_2_3 : BitVec 3 := 1

def dataInEff (s : State) (i : Input) : Bool := if s.flushActive then false else i.dataIn

def enableEnc (s : State) (i : Input) : Bool := i.dataValid || s.flushActive

def g1 (s : State) (i : Input) : Bool := dataInEff s i ^^ s.sr.getLsbD 1 ^^ s.sr.getLsbD 0

def g2 (s : State) (i : Input) : Bool :=
  dataInEff s i ^^ s.sr.getLsbD 3 ^^ s.sr.getLsbD 2 ^^ s.sr.getLsbD 0

def g3 (s : State) (i : Input) : Bool :=
  dataInEff s i ^^ s.sr.getLsbD 2 ^^ s.sr.getLsbD 1 ^^ s.sr.getLsbD 0

def g4 (s : State) (i : Input) : Bool :=
  dataInEff s i ^^ s.sr.getLsbD 3 ^^ s.sr.getLsbD 1 ^^ s.sr.getLsbD 0

/-- `{b1, b0}`. -/
def pair (b1 b0 : Bool) : BitVec 2 := BitVec.ofBool b1 ++ BitVec.ofBool b0

@[simp] theorem pair_low (b1 b0 : Bool) : (pair b1 b0).getLsbD 0 = b0 := by
  cases b1 <;> cases b0 <;> rfl

@[simp] theorem pair_high (b1 b0 : Bool) : (pair b1 b0).getLsbD 1 = b1 := by
  cases b1 <;> cases b0 <;> rfl

def step (s : State) (i : Input) : State where
  flushActive :=
    if i.flush && !s.flushActive && !i.dataValid then true
    else if s.flushActive && s.flushCnt = TAIL_LAST then false
    else s.flushActive
  flushCnt := if s.flushActive then s.flushCnt + 1 else 0
  sr := if enableEnc s i then BitVec.cons (dataInEff s i) (s.sr.extractLsb' 1 3) else s.sr
  codedBits := if enableEnc s i then pair (g4 s i) (g3 s i) ++ pair (g2 s i) (g1 s i)
    else s.codedBits
  codedValid := enableEnc s i
  bitPhase := if enableEnc s i then !s.bitPhase else s.bitPhase
  punctOutBits :=
    if i.punctPattern = RATE_2_3 ∧ enableEnc s i then
      if s.bitPhase then pair false (g1 s i) else pair (g2 s i) (g1 s i)
    else s.punctOutBits
  punctValid := i.punctPattern = RATE_2_3 ∧ enableEnc s i
  punctOutCnt :=
    if i.punctPattern = RATE_2_3 ∧ enableEnc s i then s.bitPhase else s.punctOutCnt

/-- The bits of the puncturing registers, in order. -/
def punctured (s : State) : List Bool :=
  if s.punctValid then
    if s.punctOutCnt then [s.punctOutBits.getLsbD 0]
    else [s.punctOutBits.getLsbD 0, s.punctOutBits.getLsbD 1]
  else []

/-- The punctured bits of a run. -/
def coded : Reader State Input Bool := ⟨step, fun s i => punctured (step s i)⟩

/-- The bits that enter the shift register in a run, tail bits included. -/
def entered : Reader State Input Bool :=
  ⟨step, fun s i => if enableEnc s i then [dataInEff s i] else []⟩

/-! The taps as places back: `sr[3]` is one place back, `sr[0]` four. -/

def g1Taps : List Nat := [0, 3, 4]
def g2Taps : List Nat := [0, 1, 2, 4]

/-- The shift register holds the last four bits, the phase counts them. -/
structure Tracks (s : State) (hist : List Bool) : Prop where
  sr : ∀ d < 4, s.sr.getLsbD (3 - d) = hist.getD d false
  phase : s.bitPhase = decide (hist.length % 2 = 1)

theorem tracks_reset : Tracks reset [] where
  sr d _ := by simp [reset]
  phase := rfl

variable {s : State} {i : Input} {hist : List Bool}

theorem tapSum_g1 (h : Tracks s hist) :
    g1 s i = tapSum g1Taps (dataInEff s i :: hist) := by
  have h0 := h.sr 3 (by decide)
  have h1 := h.sr 2 (by decide)
  simp only [g1, g1Taps, tapSum, List.foldr_cons, List.foldr_nil, List.getD_cons_zero,
    List.getD_cons_succ, Bool.xor_false, ← h0, ← h1, Bool.xor_assoc]

theorem tapSum_g2 (h : Tracks s hist) :
    g2 s i = tapSum g2Taps (dataInEff s i :: hist) := by
  have h0 := h.sr 3 (by decide)
  have h2 := h.sr 1 (by decide)
  have h3 := h.sr 0 (by decide)
  simp only [g2, g2Taps, tapSum, List.foldr_cons, List.foldr_nil, List.getD_cons_zero,
    List.getD_cons_succ, Bool.xor_false, ← h0, ← h2, ← h3, Bool.xor_assoc]

theorem tracks_step (h : Tracks s hist) (he : enableEnc s i = true) :
    Tracks (step s i) (dataInEff s i :: hist) where
  sr d hd := by
    simp only [step, he, if_true, BitVec.getLsbD_cons]
    cases d with
    | zero => rfl
    | succ d =>
      rw [if_neg (by omega), List.getD_cons_succ, ← h.sr d (by omega), BitVec.getLsbD_extractLsb']
      have hlt : 3 - (d + 1) < 3 := by omega
      have heq : 1 + (3 - (d + 1)) = 3 - d := by omega
      rw [heq, decide_eq_true hlt, Bool.true_and]
  phase := by
    simp only [step, he, if_true, h.phase, List.length_cons]
    rcases Nat.mod_two_eq_zero_or_one hist.length with h2 | h2
    · simp [Nat.add_mod, h2]
    · simp [Nat.add_mod, h2]

theorem tracks_idle (h : Tracks s hist) (he : enableEnc s i = false) : Tracks (step s i) hist where
  sr d hd := by
    simp only [step, he, Bool.false_eq_true, if_false]
    exact h.sr d hd
  phase := by
    simp only [step, he, Bool.false_eq_true, if_false]
    exact h.phase

theorem punctured_step (h : Tracks s hist) (hp : i.punctPattern = RATE_2_3)
    (he : enableEnc s i = true) :
    punctured (step s i) = emit g1Taps g2Taps hist (dataInEff s i) := by
  rw [emit, ← tapSum_g1 h, ← tapSum_g2 h]
  simp only [punctured, step, hp, he, h.phase, and_self, decide_true, if_true]
  rcases Nat.mod_two_eq_zero_or_one hist.length with h2 | h2
  · simp only [h2, Nat.zero_ne_one, decide_false, Bool.false_eq_true, if_false, if_true, pair_low,
      pair_high]
  · simp only [h2, Nat.one_ne_zero, decide_true, if_false, if_true, pair_low]

theorem punctured_idle (he : enableEnc s i = false) : punctured (step s i) = [] := by
  simp [punctured, step, he]

/-- From any history on, a run puts out the code word of the bits that enter. -/
theorem coded_run (h : Tracks s hist) (is : List Input)
    (hp : ∀ i ∈ is, i.punctPattern = RATE_2_3) :
    coded.outputs s is = encode g1Taps g2Taps hist (entered.outputs s is) := by
  induction is generalizing s hist with
  | nil => rfl
  | cons i is ih =>
    have hpi := hp i List.mem_cons_self
    have hps := fun j hj => hp j (List.mem_cons_of_mem i hj)
    rw [Reader.outputs, Reader.outputs]
    cases he : enableEnc s i with
    | false =>
      have hcoded : coded.out s i = [] := punctured_idle he
      have hentered : entered.out s i = [] := by simp [entered, he]
      rw [hcoded, hentered]
      exact ih (tracks_idle h he) hps
    | true =>
      have hcoded : coded.out s i = emit g1Taps g2Taps hist (dataInEff s i) :=
        punctured_step h hpi he
      have hentered : entered.out s i = [dataInEff s i] := by simp [entered, he]
      rw [hcoded, hentered, List.singleton_append, encode]
      exact congrArg _ (ih (tracks_step h he) hps)

end TetraBs.Lmac.Rcpc
