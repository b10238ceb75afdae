import TetraBs.Lmac.AachEncoder

/-! `tetra_ul_sch_hu_decoder` without the Viterbi decoder and the CRC checker it drives: what these
put out is an input of the step. One step is one rising clock edge. -/
namespace TetraBs.Lmac
open TetraBs.BitRegister TetraBs.Lfsr TetraBs.Run

inductive HuPhase where
  | idle | collect | descramble | deinterleave | feedVit | drainVit | feedCrc | done
deriving DecidableEq

structure HuInput where
  scrambInit : BitVec 32
  softBit0 : BitVec 8
  softBit1 : BitVec 8
  softValid : Bool
  vitDecodedBit : Bool
  vitDecodedValid : Bool
  vitBlockDone : Bool
  crcDone : Bool
  crcOk : Bool

/-- The scrambling sequence, made while the soft values come in. -/
structure HuSequencer where
  scrambSeq : BitVec 168
  lfsr : BitVec 32
  lfsrCnt : Nat
  lfsrRunning : Bool
deriving DecidableEq

/-- The soft values are two's complement; `vitSoft` is the port with one value per generator. -/
structure HuDecoder where
  state : HuPhase
  bufSoft : Nat → BitVec 8
  bufDeint : Nat → BitVec 8
  seq : HuSequencer
  collectCnt : Nat
  stepCnt : Nat
  deintAddr : Nat
  vitStage : Nat
  vitG : Nat
  vitKeptIdx : Nat
  vitSoft : Nat → BitVec 5
  vitInputValid : Bool
  vitOutBuf : BitVec 108
  vitOutCnt : Nat
  crcInit : Bool
  crcDataValid : Bool
  crcDoneIn : Bool
  crcDataIn : Bool
  crcFedCnt : Nat
  infoBits : BitVec 92
  infoValid : Bool
  crcOk : Bool
  decodesAttempted : BitVec 16
  decodesOk : BitVec 16

/-- The length of a block. -/
def N_TX : Nat := 168

/-- The sequence goes on by itself until it is complete. -/
def HuSequencer.advance (q : HuSequencer) : HuSequencer :=
  if q.lfsrRunning ∧ q.lfsrCnt < N_TX then
    { q with
      scrambSeq := writeBit q.scrambSeq q.lfsrCnt (lfsrFb q.lfsr)
      lfsr := lfsrNext q.lfsr
      lfsrCnt := q.lfsrCnt + 1 }
  else q

/-- The seed of a block. -/
def HuInput.seed (i : HuInput) : BitVec 32 := if i.scrambInit = 0 then 0xFFFFFFFF else i.scrambInit

namespace HuDecoder

def DEINT_A : Nat := 13
def INFO_BITS : Nat := 92
def CRC_LEN : Nat := INFO_BITS + 16
def TRELLIS_STAGES : Nat := 112
def VIT_CENTER : BitVec 5 := 16
def VIT_MAX : BitVec 5 := 31

def reset : HuDecoder where
  state := .idle
  bufSoft _ := 0
  bufDeint _ := 0
  seq := ⟨0, 0xFFFFFFFF, 0, false⟩
  collectCnt := 0
  stepCnt := 0
  deintAddr := 0
  vitStage := 0
  vitG := 0
  vitKeptIdx := 0
  vitSoft _ := 0
  vitInputValid := false
  vitOutBuf := 0
  vitOutCnt := 0
  crcInit := false
  crcDataValid := false
  crcDoneIn := false
  crcDataIn := false
  crcFedCnt := 0
  infoBits := 0
  infoValid := false
  crcOk := false
  decodesAttempted := 0
  decodesOk := 0

def store {α : Type} (mem : Nat → α) (addr : Nat) (x : α) : Nat → α :=
  fun k => if k = addr then x else mem k

/-- The soft value as an offset from the erasure, clamped. -/
def toVitSoft (sIn : BitVec 8) : BitVec 5 :=
  let diffExt := (VIT_CENTER.toNat : Int) - sIn.toInt
  if diffExt < 0 then 0 else if VIT_MAX.toNat < diffExt then VIT_MAX
  else BitVec.ofInt 5 diffExt

/-- Whether a mother bit was transmitted. -/
def vitIsKept (s : HuDecoder) : Bool :=
  let motherPosLo := s.vitStage % 2 * 4 + s.vitG
  motherPosLo = 0 || motherPosLo = 1 || motherPosLo = 4

def vitSoftActive (s : HuDecoder) : BitVec 5 :=
  if vitIsKept s then toVitSoft (s.bufDeint s.vitKeptIdx) else VIT_CENTER

/-- The pulses fall back. -/
def quiet (s : HuDecoder) : HuDecoder :=
  { s with
    vitInputValid := false, crcInit := false, crcDataValid := false, crcDoneIn := false
    infoValid := false }

/-- One value for the generator `vitG` of the stage. -/
def feed (s : HuDecoder) : HuDecoder :=
  let t := { s with vitSoft := store s.vitSoft s.vitG (vitSoftActive s) }
  let t := if vitIsKept s then { t with vitKeptIdx := s.vitKeptIdx + 1 } else t
  if s.vitG = 3 then
    let t := { t with vitInputValid := true, vitG := 0 }
    if TRELLIS_STAGES ≤ s.vitStage + 1 then { t with state := .drainVit, vitOutCnt := 0 }
    else { t with vitStage := s.vitStage + 1 }
  else { t with vitG := s.vitG + 1 }

def drain (s : HuDecoder) (i : HuInput) : HuDecoder :=
  let t :=
    if i.vitDecodedValid ∧ s.vitOutCnt < CRC_LEN then
      { s with
        vitOutBuf := writeBit s.vitOutBuf s.vitOutCnt i.vitDecodedBit
        vitOutCnt := s.vitOutCnt + 1 }
    else s
  if i.vitBlockDone ∨ (CRC_LEN ≤ s.vitOutCnt ∧ i.vitDecodedValid = false) then
    { t with state := .feedCrc, crcInit := true, crcFedCnt := 0 }
  else t

def check (s : HuDecoder) (i : HuInput) : HuDecoder :=
  if s.crcFedCnt < CRC_LEN then
    { s with
      crcDataIn := s.vitOutBuf.getLsbD s.crcFedCnt
      crcDataValid := true
      crcDoneIn := s.crcFedCnt = CRC_LEN - 1
      crcFedCnt := s.crcFedCnt + 1 }
  else if i.crcDone then
    { s with
      crcOk := i.crcOk
      infoBits := s.vitOutBuf.extractLsb' 0 92
      infoValid := true
      decodesOk := if i.crcOk then s.decodesOk + 1 else s.decodesOk
      state := .done }
  else s

/-- The branches of the state come after the free running parts and overwrite them. -/
def step (s : HuDecoder) (i : HuInput) : HuDecoder :=
  let t := { quiet s with seq := s.seq.advance }
  match s.state with
  | .idle =>
    if i.softValid then
      { t with
        seq := { t.seq with lfsr := i.seed, lfsrCnt := 0, lfsrRunning := true }
        state := .collect
        decodesAttempted := s.decodesAttempted + 1
        bufSoft := store (store s.bufSoft 0 i.softBit1) 1 i.softBit0
        collectCnt := 2 }
    else t
  | .collect =>
    if i.softValid then
      let t := { t with
        bufSoft := store (store s.bufSoft s.collectCnt i.softBit1) (s.collectCnt + 1) i.softBit0 }
      if N_TX ≤ s.collectCnt + 2 then { t with state := .descramble, stepCnt := 0, collectCnt := 0 }
      else { t with collectCnt := s.collectCnt + 2 }
    else t
  | .descramble =>
    if s.stepCnt < s.seq.lfsrCnt then
      let t :=
        if s.seq.scrambSeq.getLsbD s.stepCnt then
          { t with bufSoft := store s.bufSoft s.stepCnt (-s.bufSoft s.stepCnt) }
        else t
      if N_TX ≤ s.stepCnt + 1 then
        { t with state := .deinterleave, stepCnt := 0, deintAddr := DEINT_A }
      else { t with stepCnt := s.stepCnt + 1 }
    else t
  | .deinterleave =>
    let t := { t with bufDeint := store s.bufDeint s.stepCnt (s.bufSoft s.deintAddr) }
    if N_TX ≤ s.stepCnt + 1 then
      { t with state := .feedVit, stepCnt := 0, vitStage := 0, vitG := 0, vitKeptIdx := 0 }
    else
      { t with
        stepCnt := s.stepCnt + 1
        deintAddr :=
          if N_TX ≤ s.deintAddr + DEINT_A then s.deintAddr + DEINT_A - N_TX
          else s.deintAddr + DEINT_A }
  | .feedVit => feed t
  | .drainVit => drain t i
  | .feedCrc => check t i
  | .done => { t with seq := { t.seq with lfsrRunning := false }, state := .idle }

end HuDecoder

/-! The sequence. -/

namespace HuSequencer

/-- The bits that the descrambler has to go by. -/
def bits (q : HuSequencer) : List Bool :=
  (List.range q.lfsrCnt).map fun k => q.scrambSeq.getLsbD k

/-- The first `lfsrCnt` bits of the sequence of `seed` are there. -/
structure Tracks (seed : BitVec 32) (q : HuSequencer) : Prop where
  bound : q.lfsrCnt ≤ N_TX
  lfsr : q.lfsr = lfsrNext^[q.lfsrCnt] seed
  seq : ∀ k < q.lfsrCnt, q.scrambSeq.getLsbD k = lfsrFb (lfsrNext^[k] seed)

variable {seed : BitVec 32} {q : HuSequencer}

theorem Tracks.advance (h : Tracks seed q) : Tracks seed q.advance := by
  by_cases hrun : q.lfsrRunning ∧ q.lfsrCnt < N_TX
  · have hnext : q.advance = { q with
        scrambSeq := writeBit q.scrambSeq q.lfsrCnt (lfsrFb q.lfsr)
        lfsr := lfsrNext q.lfsr
        lfsrCnt := q.lfsrCnt + 1 } := if_pos hrun
    rw [hnext]
    refine ⟨hrun.2, ?_, fun k hk => ?_⟩
    · rw [h.lfsr, Function.iterate_succ_apply']
    · have hlt : k < q.lfsrCnt + 1 := hk
      have hfit : k < 168 := Nat.lt_of_lt_of_le hk hrun.2
      rw [getLsbD_writeBit _ _ _ hfit]
      by_cases hlast : k = q.lfsrCnt
      · rw [if_pos hlast, hlast, h.lfsr]
      · rw [if_neg hlast]
        exact h.seq k (by omega)
  · have hnext : q.advance = q := if_neg hrun
    rwa [hnext]

theorem Tracks.bits_eq (h : Tracks seed q) : q.bits = cellSequence q.lfsrCnt seed := by
  rw [bits, cellSequence, stream_eq_map]
  exact List.map_congr_left fun k hk => h.seq k (List.mem_range.1 hk)

end HuSequencer

namespace HuDecoder
variable {s : HuDecoder} {i : HuInput}

@[simp] theorem feed_seq (s : HuDecoder) : (feed s).seq = s.seq := by
  simp only [feed]
  split <;> split <;> first | rfl | (split <;> rfl)

@[simp] theorem drain_seq (s : HuDecoder) (i : HuInput) : (drain s i).seq = s.seq := by
  simp only [drain]
  split <;> split <;> rfl

@[simp] theorem check_seq (s : HuDecoder) (i : HuInput) : (check s i).seq = s.seq := by
  simp only [check]
  split
  · rfl
  · split <;> rfl

/-- Within a block the sequence goes on; its end only stops it. -/
theorem step_seq (hbusy : s.state ≠ .idle) (i : HuInput) :
    (step s i).seq = s.seq.advance ∨
      (step s i).seq = { s.seq.advance with lfsrRunning := false } := by
  cases hs : s.state with
  | idle => exact absurd hs hbusy
  | collect =>
    refine .inl ?_
    simp only [step, hs]
    split
    · split <;> rfl
    · rfl
  | descramble =>
    refine .inl ?_
    simp only [step, hs]
    split
    · split <;> split <;> rfl
    · rfl
  | deinterleave =>
    refine .inl ?_
    simp only [step, hs]
    split <;> rfl
  | feedVit => exact .inl (by simp only [step, hs, feed_seq])
  | drainVit => exact .inl (by simp only [step, hs, drain_seq])
  | feedCrc => exact .inl (by simp only [step, hs, check_seq])
  | done => exact .inr (by simp only [step, hs])

theorem tracks_start (hs : s.state = .idle) (hvalid : i.softValid = true) :
    HuSequencer.Tracks i.seed (step s i).seq := by
  simp only [step, hs, hvalid, if_true]
  exact ⟨Nat.zero_le _, rfl, fun k hk => absurd hk (Nat.not_lt_zero k)⟩

theorem tracks_step {seed : BitVec 32} (h : HuSequencer.Tracks seed s.seq)
    (hbusy : s.state ≠ .idle) (i : HuInput) : HuSequencer.Tracks seed (step s i).seq := by
  have hnext := h.advance
  rcases step_seq hbusy i with hseq | hseq
  · rwa [hseq]
  · rw [hseq]
    exact ⟨hnext.bound, hnext.lfsr, hnext.seq⟩

/-- What there is of the sequence, at any time within a block, is that of the block's seed. -/
theorem bits_eq (hs : s.state = .idle) (hvalid : i.softValid = true) {is : List HuInput}
    (hbusy : Along step (fun t _ => t.state ≠ .idle) (step s i) is) :
    (exec step s (i :: is)).seq.bits =
      cellSequence (exec step s (i :: is)).seq.lfsrCnt i.seed := by
  have hrun : HuSequencer.Tracks i.seed (exec step (step s i) is).seq :=
    exec_invariant (fun t : HuDecoder => HuSequencer.Tracks i.seed t.seq)
      (fun t j ht hj => tracks_step ht hj j) (tracks_start hs hvalid) hbusy
  exact hrun.bits_eq

end HuDecoder

end TetraBs.Lmac
