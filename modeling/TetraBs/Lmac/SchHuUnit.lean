import TetraBs.Lib.MulPerm
import TetraBs.Lib.Serializer
import TetraBs.Lmac.CrcModes
import TetraBs.Lmac.UlViterbi

/-! `tetra_ul_sch_hu_decoder` with the Viterbi decoder and the CRC checker inside it, and what it
makes of any 168 soft values. One step is one rising clock edge. -/
namespace TetraBs.Lmac
open TetraBs.BitRegister TetraBs.Lfsr TetraBs.MulPerm TetraBs.Serial

structure HuCycle where
  scrambInit : BitVec 32
  softBit0 : BitVec 8
  softBit1 : BitVec 8
  softValid : Bool
deriving DecidableEq, Inhabited

/-- The seed that a block is descrambled with if it starts now. -/
def HuCycle.seed (c : HuCycle) : BitVec 32 := if c.scrambInit = 0 then 0xFFFFFFFF else c.scrambInit

/-- The soft values in the order of the buffer. -/
def HuCycle.pair (c : HuCycle) : Option (BitVec 8 × BitVec 8) :=
  if c.softValid then some (c.softBit1, c.softBit0) else none

structure HuUnit where
  dec : HuDecoder
  vit : UlViterbi
  crc : Crc16

namespace HuUnit

def reset : HuUnit := ⟨HuDecoder.reset, UlViterbi.reset, Crc16.reset⟩

/-- The inputs of the decoder proper: the ports, `u_viterbi` and `u_crc16`. -/
def input (u : HuUnit) (c : HuCycle) : HuInput where
  scrambInit := c.scrambInit
  softBit0 := c.softBit0
  softBit1 := c.softBit1
  softValid := c.softValid
  vitDecodedBit := u.vit.decodedBit
  vitDecodedValid := u.vit.decodedValid
  vitBlockDone := u.vit.blockDone
  crcDone := u.crc.crcValid
  crcOk := u.crc.crcOk

/-- `u_viterbi` after the edge. -/
def vitNext (u : HuUnit) : UlViterbi := u.vit.step u.dec.vitSoft u.dec.vitInputValid

/-- `u_crc16` after the edge. -/
def crcNext (u : HuUnit) : Crc16 :=
  u.crc.step ⟨u.dec.crcInit, u.dec.crcDoneIn, u.dec.crcDataIn, u.dec.crcDataValid⟩

def step (u : HuUnit) (c : HuCycle) : HuUnit := ⟨u.dec.step (u.input c), u.vitNext, u.crcNext⟩

/-- A block is out while `info_valid_sys` is up. -/
def reader : Reader HuUnit HuCycle (BitVec 92 × Bool) where
  next := step
  out u _ := if u.dec.infoValid then [(u.dec.infoBits, u.dec.crcOk)] else []

/-! What a block of soft values is taken for. -/

section Meaning
variable (raw : Nat → BitVec 8) (seed : BitVec 32)

def descrambled (k : Nat) : BitVec 8 :=
  if lfsrFb (lfsrNext^[k] seed) then -raw k else raw k

def deinterleaved (j : Nat) : BitVec 8 := descrambled raw seed (place HuDecoder.DEINT_A N_TX j)

/-- Whether bit `g` of stage `t` was transmitted. -/
def kept (t g : Nat) : Bool :=
  let motherPosLo := t % 2 * 4 + g
  motherPosLo = 0 || motherPosLo = 1 || motherPosLo = 4

/-- The number of bits transmitted before bit `g` of stage `t`. -/
def keptIdx (t g : Nat) : Nat := t / 2 * 3 + if t % 2 = 0 then min g 2 else 2 + min g 1

/-- The soft values of stage `t`. -/
def mother (t g : Nat) : BitVec 5 :=
  if kept t g then HuDecoder.toVitSoft (deinterleaved raw seed (keptIdx t g))
  else HuDecoder.VIT_CENTER

def decodedBit (k : Nat) : Bool := UlViterbi.decoded (mother raw seed) k

def decodedBits (n : Nat) : List Bool := (List.range n).map (decodedBit raw seed)

def info : BitVec 92 := written 92 (decodedBit raw seed)

def infoOk : Bool := Crc16.run (decodedBits raw seed HuDecoder.CRC_LEN) = Crc16.CRC_RESIDUE

end Meaning

/-! The phases of a block. -/

variable {raw : Nat → BitVec 8} {seed : BitVec 32} {u : HuUnit} {k m n t g : Nat}

/-- No pulse is under way. -/
structure Quiet (u : HuUnit) : Prop where
  crcDoneIn : u.dec.crcDoneIn = false
  infoValid : u.dec.infoValid = false
  crcValid : u.crc.crcValid = false

/-- The Viterbi decoder waits for a block. -/
structure Rest (u : HuUnit) : Prop extends Quiet u where
  vitInputValid : u.dec.vitInputValid = false
  vit : ∀ soft, UlViterbi.Taking soft 0 u.vit

structure Ready (u : HuUnit) : Prop extends Rest u where
  state : u.dec.state = .idle

/-- `m` pairs have come. -/
structure Collecting (raw : Nat → BitVec 8) (seed : BitVec 32) (m : Nat) (u : HuUnit) : Prop
    extends Rest u where
  state : u.dec.state = .collect
  collectCnt : u.dec.collectCnt = 2 * m
  bufSoft : ∀ j < 2 * m, u.dec.bufSoft j = raw j
  seq : HuSequencer.Tracks seed u.dec.seq
  running : u.dec.seq.lfsrRunning = true
  ahead : m ≤ u.dec.seq.lfsrCnt + 1

structure Descrambling (raw : Nat → BitVec 8) (seed : BitVec 32) (k : Nat) (u : HuUnit) : Prop
    extends Rest u where
  state : u.dec.state = .descramble
  stepCnt : u.dec.stepCnt = k
  bufSoft : ∀ j < N_TX, u.dec.bufSoft j = if j < k then descrambled raw seed j else raw j
  seq : HuSequencer.Tracks seed u.dec.seq
  running : u.dec.seq.lfsrRunning = true
  ahead : k < u.dec.seq.lfsrCnt

structure Deinterleaving (raw : Nat → BitVec 8) (seed : BitVec 32) (k : Nat) (u : HuUnit) : Prop
    extends Rest u where
  state : u.dec.state = .deinterleave
  stepCnt : u.dec.stepCnt = k
  deintAddr : u.dec.deintAddr = place HuDecoder.DEINT_A N_TX k
  bufSoft : ∀ j < N_TX, u.dec.bufSoft j = descrambled raw seed j
  bufDeint : ∀ j < k, u.dec.bufDeint j = deinterleaved raw seed j

/-- Stage `t` is put together, up to bit `g`; the stages before it are taken at the next edge at
the latest. -/
structure Feeding (raw : Nat → BitVec 8) (seed : BitVec 32) (t g : Nat) (u : HuUnit) : Prop
    extends Quiet u where
  state : u.dec.state = .feedVit
  vitStage : u.dec.vitStage = t
  vitG : u.dec.vitG = g
  vitKeptIdx : u.dec.vitKeptIdx = keptIdx t g
  bufDeint : ∀ j < N_TX, u.dec.bufDeint j = deinterleaved raw seed j
  vitSoft : ∀ g' < g, u.dec.vitSoft g' = mother raw seed t g'
  next : UlViterbi.Taking (mother raw seed) t u.vitNext

/-- The last stage is out. -/
structure Fed (raw : Nat → BitVec 8) (seed : BitVec 32) (u : HuUnit) : Prop extends Quiet u where
  state : u.dec.state = .drainVit
  vitOutCnt : u.dec.vitOutCnt = 0
  decodedValid : u.vit.decodedValid = false
  blockDone : u.vit.blockDone = false
  next : UlViterbi.Full (mother raw seed) u.vitNext

/-- `n` decoded bits are stored. -/
structure Draining (raw : Nat → BitVec 8) (seed : BitVec 32) (P : UlViterbi → Prop) (n : Nat)
    (u : HuUnit) : Prop extends Quiet u where
  state : u.dec.state = .drainVit
  vitInputValid : u.dec.vitInputValid = false
  vitOutCnt : u.dec.vitOutCnt = n
  vitOutBuf : ∀ j < n, u.dec.vitOutBuf.getLsbD j = decodedBit raw seed j
  vit : P u.vit

/-- The checker has seen `k` bits after the next edge. -/
structure Checking (raw : Nat → BitVec 8) (seed : BitVec 32) (k : Nat) (u : HuUnit) : Prop where
  state : u.dec.state = .feedCrc
  crcFedCnt : u.dec.crcFedCnt = k
  vitInputValid : u.dec.vitInputValid = false
  vitOutBuf : ∀ j < HuDecoder.CRC_LEN, u.dec.vitOutBuf.getLsbD j = decodedBit raw seed j
  infoValid : u.dec.infoValid = false
  crcValid : u.crc.crcValid = false
  vit : ∀ soft, UlViterbi.Taking soft 0 u.vit
  crcOut : u.crcNext.crcOut = Crc16.run (decodedBits raw seed k)
  done : u.crcNext.crcValid = decide (k = HuDecoder.CRC_LEN)
  ok : k = HuDecoder.CRC_LEN → u.crcNext.crcOk = infoOk raw seed

structure Checked (raw : Nat → BitVec 8) (seed : BitVec 32) (u : HuUnit) : Prop where
  state : u.dec.state = .feedCrc
  crcFedCnt : u.dec.crcFedCnt = HuDecoder.CRC_LEN
  vitInputValid : u.dec.vitInputValid = false
  vitOutBuf : ∀ j < HuDecoder.CRC_LEN, u.dec.vitOutBuf.getLsbD j = decodedBit raw seed j
  infoValid : u.dec.infoValid = false
  crcDoneIn : u.dec.crcDoneIn = false
  vit : ∀ soft, UlViterbi.Taking soft 0 u.vit
  crcValid : u.crc.crcValid = true
  crcOk : u.crc.crcOk = infoOk raw seed

structure Shown (raw : Nat → BitVec 8) (seed : BitVec 32) (u : HuUnit) : Prop where
  state : u.dec.state = .done
  vitInputValid : u.dec.vitInputValid = false
  crcDoneIn : u.dec.crcDoneIn = false
  crcValid : u.crc.crcValid = false
  vit : ∀ soft, UlViterbi.Taking soft 0 u.vit
  infoValid : u.dec.infoValid = true
  infoBits : u.dec.infoBits = info raw seed
  crcOk : u.dec.crcOk = infoOk raw seed

theorem ready_reset : Ready reset where
  crcDoneIn := rfl
  infoValid := rfl
  crcValid := rfl
  vitInputValid := rfl
  vit := UlViterbi.taking_reset
  state := rfl

/-! Before the Viterbi decoder is fed. -/

/-- The states in which no pulse rises. -/
def early (s : HuPhase) : Bool :=
  match s with
  | .feedVit | .drainVit | .feedCrc => false
  | _ => true

theorem early_step {s : HuDecoder} (h : early s.state = true) (i : HuInput) :
    (s.step i).vitInputValid = false ∧ (s.step i).crcDoneIn = false ∧
      (s.step i).infoValid = false := by
  cases hs : s.state with
  | idle =>
    simp only [HuDecoder.step, hs]
    split <;> exact ⟨rfl, rfl, rfl⟩
  | collect =>
    simp only [HuDecoder.step, hs]
    split
    · split <;> exact ⟨rfl, rfl, rfl⟩
    · exact ⟨rfl, rfl, rfl⟩
  | descramble =>
    simp only [HuDecoder.step, hs]
    split
    · split <;> split <;> exact ⟨rfl, rfl, rfl⟩
    · exact ⟨rfl, rfl, rfl⟩
  | deinterleave =>
    simp only [HuDecoder.step, hs]
    split <;> exact ⟨rfl, rfl, rfl⟩
  | done =>
    simp only [HuDecoder.step, hs]
    exact ⟨rfl, rfl, rfl⟩
  | feedVit => rw [hs] at h; cases h
  | drainVit => rw [hs] at h; cases h
  | feedCrc => rw [hs] at h; cases h

/-- Without a stage to take, the Viterbi decoder goes on by itself. -/
theorem step_vit (h : u.dec.vitInputValid = false) (c : HuCycle) :
    (u.step c).vit = u.vit.step u.dec.vitSoft false := by
  rw [← h]
  rfl

theorem taking_step (hvalid : u.dec.vitInputValid = false)
    (h : ∀ soft, UlViterbi.Taking soft 0 u.vit) (c : HuCycle) (soft : Nat → Nat → BitVec 5) :
    UlViterbi.Taking soft 0 (u.step c).vit := by
  rw [step_vit hvalid]
  exact (h soft).wait _

theorem Rest.next (h : Rest u) (hs : early u.dec.state = true) (c : HuCycle) : Rest (u.step c) := by
  obtain ⟨hvalid, hdone, hinfo⟩ := early_step hs (u.input c)
  exact ⟨⟨hdone, hinfo, h.crcDoneIn⟩, hvalid, taking_step h.vitInputValid h.vit c⟩

theorem Ready.wait (h : Ready u) {c : HuCycle} (hc : c.softValid = false) : Ready (u.step c) := by
  refine ⟨h.toRest.next (by rw [h.state]; rfl) c, ?_⟩
  simp [step, HuDecoder.step, h.state, input, hc, HuDecoder.quiet]

/-- The first pair of a block starts the scrambling sequence. -/
theorem Ready.first (h : Ready u) {c : HuCycle} (hc : c.softValid = true)
    (h0 : c.softBit1 = raw 0) (h1 : c.softBit0 = raw 1) :
    Collecting raw c.seed 1 (u.step c) where
  toRest := h.toRest.next (by rw [h.state]; rfl) c
  state := by simp [step, HuDecoder.step, h.state, input, hc]
  collectCnt := by simp [step, HuDecoder.step, h.state, input, hc]
  bufSoft j hj := by
    have hbuf : (u.step c).dec.bufSoft =
        HuDecoder.store (HuDecoder.store u.dec.bufSoft 0 c.softBit1) 1 c.softBit0 := by
      simp [step, HuDecoder.step, h.state, input, hc]
    rw [hbuf, HuDecoder.store, HuDecoder.store]
    rcases (by omega : j = 0 ∨ j = 1) with rfl | rfl
    · exact h0
    · exact h1
  seq := HuDecoder.tracks_start (i := u.input c) h.state hc
  running := by simp [step, HuDecoder.step, h.state, input, hc]
  ahead := Nat.le_add_left 1 _

theorem advance_cnt {q : HuSequencer} (h : HuSequencer.Tracks seed q) (hrun : q.lfsrRunning = true) :
    q.advance.lfsrCnt = min N_TX (q.lfsrCnt + 1) ∧ q.advance.lfsrRunning = true := by
  have hbound := h.bound
  rw [HuSequencer.advance]
  by_cases hlt : q.lfsrCnt < N_TX
  · rw [if_pos ⟨hrun, hlt⟩]
    exact ⟨(Nat.min_eq_right hlt).symm, hrun⟩
  · rw [if_neg fun hc => hlt hc.2]
    exact ⟨by omega, hrun⟩

theorem Collecting.wait (h : Collecting raw seed m u) {c : HuCycle} (hc : c.softValid = false) :
    Collecting raw seed m (u.step c) := by
  obtain ⟨hcnt, hrun⟩ := advance_cnt h.seq h.running
  have hdec : (u.step c).dec = { HuDecoder.quiet u.dec with seq := u.dec.seq.advance } := by
    simp [step, HuDecoder.step, h.state, input, hc]
  have hahead := h.ahead
  have hbound := h.seq.bound
  refine ⟨h.toRest.next (by rw [h.state]; rfl) c, ?_, ?_, ?_, ?_, ?_, ?_⟩
  · rw [hdec]; exact h.state
  · rw [hdec]; exact h.collectCnt
  · rw [hdec]; exact h.bufSoft
  · rw [hdec]; exact h.seq.advance
  · rw [hdec]; exact hrun
  · rw [hdec]
    change m ≤ u.dec.seq.advance.lfsrCnt + 1
    omega

theorem Collecting.stored (h : Collecting raw seed m u) {c : HuCycle}
    (h0 : c.softBit1 = raw (2 * m)) (h1 : c.softBit0 = raw (2 * m + 1)) :
    ∀ j < 2 * (m + 1), HuDecoder.store (HuDecoder.store u.dec.bufSoft u.dec.collectCnt c.softBit1)
      (u.dec.collectCnt + 1) c.softBit0 j = raw j := by
  intro j hj
  rw [HuDecoder.store, HuDecoder.store, h.collectCnt]
  by_cases hlast : j = 2 * m + 1
  · rw [if_pos hlast, hlast, h1]
  · rw [if_neg hlast]
    by_cases hfirst : j = 2 * m
    · rw [if_pos hfirst, hfirst, h0]
    · rw [if_neg hfirst]
      exact h.bufSoft j (by omega)

theorem Collecting.pair (h : Collecting raw seed m u) (hm : m + 1 < 84) {c : HuCycle}
    (hc : c.softValid = true) (h0 : c.softBit1 = raw (2 * m))
    (h1 : c.softBit0 = raw (2 * m + 1)) : Collecting raw seed (m + 1) (u.step c) := by
  obtain ⟨hcnt, hrun⟩ := advance_cnt h.seq h.running
  have hmore : ¬N_TX ≤ u.dec.collectCnt + 2 := by
    rw [h.collectCnt, N_TX]
    omega
  have hdec : (u.step c).dec = { HuDecoder.quiet u.dec with
      seq := u.dec.seq.advance
      bufSoft := HuDecoder.store (HuDecoder.store u.dec.bufSoft u.dec.collectCnt c.softBit1)
        (u.dec.collectCnt + 1) c.softBit0
      collectCnt := u.dec.collectCnt + 2 } := by
    simp [step, HuDecoder.step, h.state, input, hc, hmore]
  have hahead := h.ahead
  have hbound := h.seq.bound
  refine ⟨h.toRest.next (by rw [h.state]; rfl) c, ?_, ?_, ?_, ?_, ?_, ?_⟩
  · rw [hdec]; exact h.state
  · rw [hdec, h.collectCnt, Nat.mul_succ]
  · rw [hdec]; exact h.stored h0 h1
  · rw [hdec]; exact h.seq.advance
  · rw [hdec]; exact hrun
  · rw [hdec]
    change m + 1 ≤ u.dec.seq.advance.lfsrCnt + 1
    simp only [N_TX] at hcnt hbound
    omega

theorem Collecting.last (h : Collecting raw seed 83 u) {c : HuCycle} (hc : c.softValid = true)
    (h0 : c.softBit1 = raw 166) (h1 : c.softBit0 = raw 167) :
    Descrambling raw seed 0 (u.step c) := by
  obtain ⟨hcnt, hrun⟩ := advance_cnt h.seq h.running
  have hfull : N_TX ≤ u.dec.collectCnt + 2 := by
    rw [h.collectCnt]
    decide
  have hdec : (u.step c).dec = { HuDecoder.quiet u.dec with
      seq := u.dec.seq.advance
      bufSoft := HuDecoder.store (HuDecoder.store u.dec.bufSoft u.dec.collectCnt c.softBit1)
        (u.dec.collectCnt + 1) c.softBit0
      state := .descramble, stepCnt := 0, collectCnt := 0 } := by
    simp [step, HuDecoder.step, h.state, input, hc, hfull]
  have hahead := h.ahead
  refine ⟨h.toRest.next (by rw [h.state]; rfl) c, ?_, ?_, ?_, ?_, ?_, ?_⟩
  · rw [hdec]
  · rw [hdec]
  · intro j hj
    rw [hdec, if_neg (Nat.not_lt_zero j)]
    exact h.stored h0 h1 j hj
  · rw [hdec]; exact h.seq.advance
  · rw [hdec]; exact hrun
  · rw [hdec]
    change 0 < u.dec.seq.advance.lfsrCnt
    simp only [N_TX] at hcnt
    omega

/-- The buffer after the edge. -/
def flipped (u : HuUnit) : Nat → BitVec 8 :=
  if u.dec.seq.scrambSeq.getLsbD u.dec.stepCnt then
    HuDecoder.store u.dec.bufSoft u.dec.stepCnt (-u.dec.bufSoft u.dec.stepCnt)
  else u.dec.bufSoft

theorem Descrambling.flipped (h : Descrambling raw seed k u) (hk : k < N_TX) :
    ∀ j < N_TX, u.flipped j = if j < k + 1 then descrambled raw seed j else raw j := by
  intro j hj
  have hbit := h.seq.seq k h.ahead
  have hnow := h.bufSoft k hk
  rw [if_neg (Nat.lt_irrefl k)] at hnow
  rw [HuUnit.flipped, h.stepCnt, hbit, hnow]
  by_cases heq : j = k
  · rw [heq, if_pos (Nat.lt_succ_self k), descrambled]
    cases lfsrFb (lfsrNext^[k] seed) with
    | true => exact if_pos rfl
    | false => exact hnow
  · have hsame : j < k + 1 ↔ j < k := by omega
    rw [if_congr hsame rfl rfl, ← h.bufSoft j hj]
    cases lfsrFb (lfsrNext^[k] seed) with
    | true => exact if_neg heq
    | false => rfl

theorem descramble_dec (hs : u.dec.state = .descramble) (hahead : u.dec.stepCnt < u.dec.seq.lfsrCnt)
    (c : HuCycle) : (u.step c).dec =
      if N_TX ≤ u.dec.stepCnt + 1 then
        { HuDecoder.quiet u.dec with
          seq := u.dec.seq.advance, bufSoft := u.flipped, state := .deinterleave, stepCnt := 0
          deintAddr := HuDecoder.DEINT_A }
      else
        { HuDecoder.quiet u.dec with
          seq := u.dec.seq.advance, bufSoft := u.flipped, stepCnt := u.dec.stepCnt + 1 } := by
  simp only [step, HuDecoder.step, hs, if_pos hahead, HuUnit.flipped]
  cases u.dec.seq.scrambSeq.getLsbD u.dec.stepCnt with
  | true => rfl
  | false => rfl

theorem Descrambling.step (h : Descrambling raw seed k u) (hk : k + 1 < N_TX) (c : HuCycle) :
    Descrambling raw seed (k + 1) (u.step c) := by
  obtain ⟨hcnt, hrun⟩ := advance_cnt h.seq h.running
  have hahead := h.ahead
  have hdec := descramble_dec h.state (by rw [h.stepCnt]; exact hahead) c
  rw [if_neg (by rw [h.stepCnt]; omega)] at hdec
  refine ⟨h.toRest.next (by rw [h.state]; rfl) c, ?_, ?_, ?_, ?_, ?_, ?_⟩
  · rw [hdec]; exact h.state
  · rw [hdec, h.stepCnt]
  · rw [hdec]; exact h.flipped (by omega)
  · rw [hdec]; exact h.seq.advance
  · rw [hdec]; exact hrun
  · rw [hdec]
    change k + 1 < u.dec.seq.advance.lfsrCnt
    omega

theorem Descrambling.last (h : Descrambling raw seed 167 u) (c : HuCycle) :
    Deinterleaving raw seed 0 (u.step c) := by
  have hdec := descramble_dec h.state (by rw [h.stepCnt]; exact h.ahead) c
  rw [if_pos (by rw [h.stepCnt]; decide)] at hdec
  refine ⟨h.toRest.next (by rw [h.state]; rfl) c, ?_, ?_, ?_, ?_, ?_⟩
  · rw [hdec]
  · rw [hdec]
  · rw [hdec]
    rfl
  · intro j hj
    have hlast : j < 167 + 1 := hj
    have hflipped := h.flipped (by decide) j hj
    rw [if_pos hlast] at hflipped
    rw [hdec]
    exact hflipped
  · exact fun j hj => absurd hj (Nat.not_lt_zero j)

theorem Deinterleaving.stored (h : Deinterleaving raw seed k u) :
    ∀ j < k + 1, HuDecoder.store u.dec.bufDeint u.dec.stepCnt (u.dec.bufSoft u.dec.deintAddr) j =
      deinterleaved raw seed j := by
  intro j hj
  have hplace : place HuDecoder.DEINT_A N_TX k < N_TX := place_lt (by decide)
  rw [HuDecoder.store, h.stepCnt, h.deintAddr, h.bufSoft _ hplace]
  by_cases heq : j = k
  · rw [if_pos heq, heq, deinterleaved]
  · rw [if_neg heq]
    exact h.bufDeint j (by omega)

theorem Deinterleaving.step (h : Deinterleaving raw seed k u) (hk : k + 1 < N_TX) (c : HuCycle) :
    Deinterleaving raw seed (k + 1) (u.step c) := by
  have hmore : ¬N_TX ≤ u.dec.stepCnt + 1 := by rw [h.stepCnt]; omega
  have hdec : (u.step c).dec = { HuDecoder.quiet u.dec with
      seq := u.dec.seq.advance
      bufDeint := HuDecoder.store u.dec.bufDeint u.dec.stepCnt (u.dec.bufSoft u.dec.deintAddr)
      stepCnt := u.dec.stepCnt + 1
      deintAddr :=
        if N_TX ≤ u.dec.deintAddr + HuDecoder.DEINT_A then
          u.dec.deintAddr + HuDecoder.DEINT_A - N_TX
        else u.dec.deintAddr + HuDecoder.DEINT_A } := by
    simp only [HuUnit.step, HuDecoder.step, h.state, if_neg hmore]
  refine ⟨h.toRest.next (by rw [h.state]; rfl) c, ?_, ?_, ?_, ?_, ?_⟩
  · rw [hdec]; exact h.state
  · rw [hdec, h.stepCnt]
  · have hlt : place HuDecoder.DEINT_A N_TX k < N_TX := place_lt (by decide)
    have hnext : (place HuDecoder.DEINT_A N_TX k + HuDecoder.DEINT_A) % N_TX =
        place HuDecoder.DEINT_A N_TX (k + 1) := mul_mod_add (k + 1)
    have haddr : (u.step c).dec.deintAddr =
        if N_TX ≤ u.dec.deintAddr + HuDecoder.DEINT_A then
          u.dec.deintAddr + HuDecoder.DEINT_A - N_TX
        else u.dec.deintAddr + HuDecoder.DEINT_A := by rw [hdec]
    rw [haddr, ← hnext, h.deintAddr]
    generalize place HuDecoder.DEINT_A N_TX k = addr at hlt ⊢
    by_cases hwrap : N_TX ≤ addr + HuDecoder.DEINT_A
    · rw [if_pos hwrap]
      simp only [N_TX, HuDecoder.DEINT_A] at hlt hwrap ⊢
      omega
    · rw [if_neg hwrap, Nat.mod_eq_of_lt (Nat.lt_of_not_le hwrap)]
  · rw [hdec]; exact h.bufSoft
  · rw [hdec]; exact h.stored

theorem Deinterleaving.last (h : Deinterleaving raw seed 167 u) (c : HuCycle) :
    Feeding raw seed 0 0 (u.step c) := by
  have hfull : N_TX ≤ u.dec.stepCnt + 1 := by rw [h.stepCnt]; decide
  have hdec : (u.step c).dec = { HuDecoder.quiet u.dec with
      seq := u.dec.seq.advance
      bufDeint := HuDecoder.store u.dec.bufDeint u.dec.stepCnt (u.dec.bufSoft u.dec.deintAddr)
      state := .feedVit, stepCnt := 0, vitStage := 0, vitG := 0, vitKeptIdx := 0 } := by
    simp only [HuUnit.step, HuDecoder.step, h.state, if_pos hfull]
  have hrest : Rest (u.step c) := h.toRest.next (by rw [h.state]; rfl) c
  refine ⟨hrest.toQuiet, ?_, ?_, ?_, ?_, ?_, fun g hg => absurd hg (Nat.not_lt_zero g), ?_⟩
  · rw [hdec]
  · rw [hdec]
  · rw [hdec]
  · rw [hdec]
    rfl
  · rw [hdec]
    exact h.stored
  · rw [vitNext, hrest.vitInputValid]
    exact (hrest.vit _).wait _

/-! Feeding the Viterbi decoder. -/

theorem keptIdx_succ (t : Nat) (hg : g < 3) :
    keptIdx t (g + 1) = keptIdx t g + if kept t g then 1 else 0 := by
  rcases Nat.mod_two_eq_zero_or_one t with h | h
  · rcases (by omega : g = 0 ∨ g = 1 ∨ g = 2) with rfl | rfl | rfl <;> simp [keptIdx, kept, h]
  · rcases (by omega : g = 0 ∨ g = 1 ∨ g = 2) with rfl | rfl | rfl <;> simp [keptIdx, kept, h]

theorem keptIdx_stage (t : Nat) : keptIdx (t + 1) 0 = keptIdx t 3 := by
  rcases Nat.mod_two_eq_zero_or_one t with h | h
  · have hdiv : (t + 1) / 2 = t / 2 := by omega
    simp [keptIdx, h, hdiv, Nat.add_mod]
  · have hdiv : (t + 1) / 2 = t / 2 + 1 := by omega
    simp [keptIdx, h, hdiv, Nat.add_mod, Nat.add_mul]

theorem not_kept_three (t : Nat) : kept t 3 = false := by
  rcases Nat.mod_two_eq_zero_or_one t with h | h <;> simp [kept, h]

theorem keptIdx_lt (ht : t < UlViterbi.NUM_STAGES) (hk : kept t g = true) : keptIdx t g < N_TX := by
  have hlt : t < 112 := ht
  rw [keptIdx, N_TX]
  rcases Nat.mod_two_eq_zero_or_one t with h | h
  · have hg : g ≤ 1 ∨ g = 4 := by
      simp [kept, h] at hk
      omega
    rw [if_pos h]
    omega
  · have hg : g = 0 := by
      simp [kept, h] at hk
      omega
    rw [if_neg (by omega)]
    omega

theorem Feeding.active (h : Feeding raw seed t g u) (ht : t < UlViterbi.NUM_STAGES) :
    HuDecoder.vitSoftActive u.dec = mother raw seed t g := by
  have hkept : HuDecoder.vitIsKept u.dec = kept t g := by
    rw [HuDecoder.vitIsKept, h.vitStage, h.vitG]
    rfl
  rw [HuDecoder.vitSoftActive, hkept, h.vitKeptIdx, mother]
  by_cases hk : kept t g = true
  · rw [if_pos hk, if_pos hk, h.bufDeint _ (keptIdx_lt ht hk)]
  · rw [if_neg hk, if_neg hk]

/-- The stage's soft values after the edge. -/
def filled (u : HuUnit) : Nat → BitVec 5 :=
  HuDecoder.store u.dec.vitSoft u.dec.vitG (HuDecoder.vitSoftActive u.dec)

theorem Feeding.filled (h : Feeding raw seed t g u) (ht : t < UlViterbi.NUM_STAGES) :
    ∀ g' < g + 1, u.filled g' = mother raw seed t g' := by
  intro g' hg'
  rw [HuUnit.filled, HuDecoder.store, h.vitG, h.active ht]
  by_cases heq : g' = g
  · rw [if_pos heq, heq]
  · rw [if_neg heq]
    exact h.vitSoft g' (by omega)

theorem Feeding.dec (h : Feeding raw seed t g u) (c : HuCycle) : (u.step c).dec =
    let d := { HuDecoder.quiet u.dec with
      seq := u.dec.seq.advance
      vitSoft := u.filled
      vitKeptIdx := keptIdx t g + if kept t g then 1 else 0 }
    if g = 3 then
      if HuDecoder.TRELLIS_STAGES ≤ t + 1 then
        { d with vitInputValid := true, vitG := 0, state := .drainVit, vitOutCnt := 0 }
      else { d with vitInputValid := true, vitG := 0, vitStage := t + 1 }
    else { d with vitG := g + 1 } := by
  have hkept : (if HuDecoder.vitIsKept u.dec then u.dec.vitKeptIdx + 1 else u.dec.vitKeptIdx) =
      keptIdx t g + if kept t g then 1 else 0 := by
    have hk : HuDecoder.vitIsKept u.dec = kept t g := by
      rw [HuDecoder.vitIsKept, h.vitStage, h.vitG]
      rfl
    rw [hk, h.vitKeptIdx]
    cases kept t g <;> rfl
  rw [← hkept, ← h.vitG, ← h.vitStage]
  simp only [HuUnit.step, HuDecoder.step, h.state, HuDecoder.feed, HuUnit.filled]
  have hk : ∀ q, HuDecoder.vitIsKept { HuDecoder.quiet u.dec with seq := q } =
      HuDecoder.vitIsKept u.dec := fun _ => rfl
  simp only [hk]
  cases HuDecoder.vitIsKept u.dec with
  | true => rfl
  | false => rfl

theorem Feeding.bit (h : Feeding raw seed t g u) (ht : t < UlViterbi.NUM_STAGES) (hg : g < 3)
    (c : HuCycle) : Feeding raw seed t (g + 1) (u.step c) := by
  have hdec := h.dec c
  dsimp only at hdec
  rw [if_neg (by omega)] at hdec
  have hvalid : (u.step c).dec.vitInputValid = false := by rw [hdec]; rfl
  refine ⟨⟨?_, ?_, h.crcDoneIn⟩, ?_, ?_, ?_, ?_, ?_, ?_, ?_⟩
  · rw [hdec]; rfl
  · rw [hdec]; rfl
  · rw [hdec]; exact h.state
  · rw [hdec]; exact h.vitStage
  · rw [hdec]
  · rw [hdec, keptIdx_succ t hg]
  · rw [hdec]; exact h.bufDeint
  · rw [hdec]; exact h.filled ht
  · rw [vitNext, hvalid]
    exact h.next.wait _

theorem Feeding.stage (h : Feeding raw seed t 3 u) (ht : t + 1 < UlViterbi.NUM_STAGES)
    (c : HuCycle) : Feeding raw seed (t + 1) 0 (u.step c) := by
  have hdec := h.dec c
  have hmore : ¬HuDecoder.TRELLIS_STAGES ≤ t + 1 := Nat.not_le.2 ht
  dsimp only at hdec
  rw [if_pos rfl, if_neg hmore, not_kept_three] at hdec
  have hvalid : (u.step c).dec.vitInputValid = true := by rw [hdec]
  have hsoft : (u.step c).dec.vitSoft = u.filled := by rw [hdec]
  refine ⟨⟨?_, ?_, h.crcDoneIn⟩, ?_, ?_, ?_, ?_, ?_, fun g hg => absurd hg (Nat.not_lt_zero g), ?_⟩
  · rw [hdec]; rfl
  · rw [hdec]; rfl
  · rw [hdec]; exact h.state
  · rw [hdec]
  · rw [hdec]
  · rw [hdec, keptIdx_stage]
    rfl
  · rw [hdec]; exact h.bufDeint
  · rw [vitNext, hvalid, hsoft, UlViterbi.step_congr _ (h.filled (by omega))]
    exact h.next.feed ht

theorem Feeding.last (h : Feeding raw seed 111 3 u) (c : HuCycle) : Fed raw seed (u.step c) := by
  have hdec := h.dec c
  dsimp only at hdec
  rw [if_pos rfl, if_pos (by decide)] at hdec
  have hvalid : (u.step c).dec.vitInputValid = true := by rw [hdec]
  have hsoft : (u.step c).dec.vitSoft = u.filled := by rw [hdec]
  refine ⟨⟨?_, ?_, h.crcDoneIn⟩, ?_, ?_, h.next.decodedValid, h.next.blockDone, ?_⟩
  · rw [hdec]; rfl
  · rw [hdec]; rfl
  · rw [hdec]
  · rw [hdec]
  · rw [vitNext, hvalid, hsoft, UlViterbi.step_congr _ (h.filled (by decide))]
    exact h.next.last

/-! Storing the decoded bits. -/

theorem drain_eq (s : HuDecoder) (i : HuInput) : HuDecoder.drain s i =
    let d := { s with
      vitOutBuf :=
        if i.vitDecodedValid ∧ s.vitOutCnt < HuDecoder.CRC_LEN then
          writeBit s.vitOutBuf s.vitOutCnt i.vitDecodedBit
        else s.vitOutBuf
      vitOutCnt :=
        if i.vitDecodedValid ∧ s.vitOutCnt < HuDecoder.CRC_LEN then s.vitOutCnt + 1
        else s.vitOutCnt }
    if i.vitBlockDone ∨ (HuDecoder.CRC_LEN ≤ s.vitOutCnt ∧ i.vitDecodedValid = false) then
      { d with state := .feedCrc, crcInit := true, crcFedCnt := 0 }
    else d := by
  rw [HuDecoder.drain]
  by_cases hv : i.vitDecodedValid = true ∧ s.vitOutCnt < HuDecoder.CRC_LEN
  · rw [if_pos hv, if_pos hv, if_pos hv]
  · rw [if_neg hv, if_neg hv, if_neg hv]

theorem drain_dec (hs : u.dec.state = .drainVit) (c : HuCycle) : (u.step c).dec =
    let d := { HuDecoder.quiet u.dec with
      seq := u.dec.seq.advance
      vitOutBuf :=
        if u.vit.decodedValid ∧ u.dec.vitOutCnt < HuDecoder.CRC_LEN then
          writeBit u.dec.vitOutBuf u.dec.vitOutCnt u.vit.decodedBit
        else u.dec.vitOutBuf
      vitOutCnt :=
        if u.vit.decodedValid ∧ u.dec.vitOutCnt < HuDecoder.CRC_LEN then u.dec.vitOutCnt + 1
        else u.dec.vitOutCnt }
    if u.vit.blockDone ∨ (HuDecoder.CRC_LEN ≤ u.dec.vitOutCnt ∧ u.vit.decodedValid = false) then
      { d with state := .feedCrc, crcInit := true, crcFedCnt := 0 }
    else d := by
  simp only [step, HuDecoder.step, hs, drain_eq]
  rfl

theorem Fed.step (h : Fed raw seed u) (c : HuCycle) :
    Draining raw seed (UlViterbi.Full (mother raw seed)) 0 (u.step c) := by
  have hdec := drain_dec h.state c
  dsimp only at hdec
  rw [h.decodedValid, h.blockDone, h.vitOutCnt, if_neg (by decide), if_neg (by decide)] at hdec
  refine ⟨⟨?_, ?_, h.crcDoneIn⟩, ?_, ?_, ?_, fun j hj => absurd hj (Nat.not_lt_zero j), h.next⟩
  · rw [hdec]; rfl
  · rw [hdec]; rfl
  · rw [hdec]; exact h.state
  · rw [hdec]; rfl
  · rw [hdec, if_neg (by decide)]

variable {P Q : UlViterbi → Prop}

theorem Draining.vitNext (h : Draining raw seed P n u) (c : HuCycle)
    (hq : ∀ x, Q (u.vit.step x false)) : Q (u.step c).vit := by
  rw [step_vit h.vitInputValid]
  exact hq _

theorem Draining.wait (h : Draining raw seed P n u) (hn : n < HuDecoder.CRC_LEN)
    (hvalid : u.vit.decodedValid = false) (hdone : u.vit.blockDone = false)
    (hq : ∀ x, Q (u.vit.step x false)) (c : HuCycle) : Draining raw seed Q n (u.step c) := by
  have hdec := drain_dec h.state c
  have hmore : ¬(false = true ∨ HuDecoder.CRC_LEN ≤ n ∧ false = false) := by
    rintro (hfalse | ⟨hge, -⟩)
    · cases hfalse
    · omega
  have hnot : ¬(false = true ∧ n < HuDecoder.CRC_LEN) := fun hc => Bool.false_ne_true hc.1
  dsimp only at hdec
  rw [hvalid, hdone, h.vitOutCnt, if_neg hmore, if_neg hnot, if_neg hnot] at hdec
  refine ⟨⟨?_, ?_, h.crcDoneIn⟩, ?_, ?_, ?_, ?_, h.vitNext c hq⟩
  · rw [hdec]; rfl
  · rw [hdec]; rfl
  · rw [hdec]; exact h.state
  · rw [hdec]; rfl
  · rw [hdec]
  · rw [hdec]; exact h.vitOutBuf

theorem Draining.stored (h : Draining raw seed P n u)
    (hbit : u.vit.decodedBit = decodedBit raw seed n) :
    ∀ j < n + 1, j < HuDecoder.CRC_LEN →
      (writeBit u.dec.vitOutBuf n u.vit.decodedBit).getLsbD j = decodedBit raw seed j := by
  intro j hj hlt
  have hfit : j < 108 := hlt
  rw [getLsbD_writeBit _ _ _ hfit, hbit]
  by_cases heq : j = n
  · rw [if_pos heq, heq]
  · rw [if_neg heq]
    exact h.vitOutBuf j (by omega)

theorem Draining.bit (h : Draining raw seed P n u) (hn : n < HuDecoder.CRC_LEN)
    (hvalid : u.vit.decodedValid = true) (hbit : u.vit.decodedBit = decodedBit raw seed n)
    (hdone : u.vit.blockDone = false) (hq : ∀ x, Q (u.vit.step x false)) (c : HuCycle) :
    Draining raw seed Q (n + 1) (u.step c) := by
  have hdec := drain_dec h.state c
  have hmore : ¬(false = true ∨ HuDecoder.CRC_LEN ≤ n ∧ true = false) := by
    rintro (hfalse | ⟨-, hfalse⟩)
    · cases hfalse
    · cases hfalse
  dsimp only at hdec
  rw [hvalid, hdone, h.vitOutCnt, if_neg hmore, if_pos ⟨rfl, hn⟩, if_pos ⟨rfl, hn⟩] at hdec
  refine ⟨⟨?_, ?_, h.crcDoneIn⟩, ?_, ?_, ?_, ?_, h.vitNext c hq⟩
  · rw [hdec]; rfl
  · rw [hdec]; rfl
  · rw [hdec]; exact h.state
  · rw [hdec]; rfl
  · rw [hdec]
  · rw [hdec]
    exact fun j hj => h.stored hbit j hj (by omega)

/-- The last bit comes with the end of the block; the checker starts. -/
theorem Draining.last (h : Draining raw seed (UlViterbi.Finished (mother raw seed)) 107 u)
    (c : HuCycle) : Checking raw seed 0 (u.step c) := by
  have hdec := drain_dec h.state c
  dsimp only at hdec
  rw [h.vit.decodedValid, h.vit.blockDone, h.vitOutCnt, if_pos (.inl rfl),
    if_pos ⟨rfl, by decide⟩, if_pos ⟨rfl, by decide⟩] at hdec
  have hinit : (u.step c).dec.crcInit = true := by rw [hdec]
  have hdone : (u.step c).dec.crcDoneIn = false := by rw [hdec]; rfl
  refine ⟨?_, ?_, ?_, ?_, ?_, h.crcDoneIn, ?_, ?_, ?_, fun h0 => absurd h0 (by decide)⟩
  · rw [hdec]
  · rw [hdec]
  · rw [hdec]; rfl
  · rw [hdec]
    exact fun j hj => h.stored h.vit.decodedBit j hj hj
  · rw [hdec]; rfl
  · exact fun soft => h.vitNext c fun x => h.vit.step x soft
  · rw [crcNext, hinit]
    rfl
  · rw [crcNext, hdone]
    rfl

/-! Checking and showing the block. -/

theorem decodedBits_succ (raw : Nat → BitVec 8) (seed : BitVec 32) (n : Nat) :
    decodedBits raw seed (n + 1) = decodedBits raw seed n ++ [decodedBit raw seed n] := by
  rw [decodedBits, List.range_succ, List.map_append]
  rfl

theorem Checking.step (h : Checking raw seed k u) (hk : k < HuDecoder.CRC_LEN) (c : HuCycle) :
    Checking raw seed (k + 1) (u.step c) := by
  have hfed : u.dec.crcFedCnt < HuDecoder.CRC_LEN := by rw [h.crcFedCnt]; exact hk
  have hdec : (u.step c).dec = { HuDecoder.quiet u.dec with
      seq := u.dec.seq.advance
      crcDataIn := u.dec.vitOutBuf.getLsbD u.dec.crcFedCnt
      crcDataValid := true
      crcDoneIn := u.dec.crcFedCnt = HuDecoder.CRC_LEN - 1
      crcFedCnt := u.dec.crcFedCnt + 1 } := by
    simp only [HuUnit.step, HuDecoder.step, h.state, HuDecoder.check, HuDecoder.quiet, if_pos hfed]
  have hcrc : (u.step c).crcNext = u.crcNext.step
      ⟨false, decide (k = HuDecoder.CRC_LEN - 1), decodedBit raw seed k, true⟩ := by
    rw [crcNext, hdec, ← h.vitOutBuf k hk, h.crcFedCnt]
    rfl
  have hnot : k ≠ HuDecoder.CRC_LEN := Nat.ne_of_lt hk
  have hrun : Lmac.crcNext (decodedBit raw seed k) u.crcNext.crcOut =
      Crc16.run (decodedBits raw seed (k + 1)) := by
    rw [h.crcOut, decodedBits_succ, Crc16.run_snoc]
  have hend : k = HuDecoder.CRC_LEN - 1 ↔ k + 1 = HuDecoder.CRC_LEN := by
    simp only [HuDecoder.CRC_LEN, HuDecoder.INFO_BITS]
    omega
  refine ⟨?_, ?_, ?_, ?_, ?_, ?_, taking_step h.vitInputValid h.vit c, ?_, ?_,
    fun hlast => ?_⟩
  · rw [hdec]; exact h.state
  · rw [hdec, h.crcFedCnt]
  · rw [hdec]; rfl
  · rw [hdec]; exact h.vitOutBuf
  · rw [hdec]; rfl
  · exact h.done.trans (decide_eq_false hnot)
  · rw [hcrc]
    exact hrun
  · rw [hcrc]
    exact decide_eq_decide.2 hend
  · have hok : (u.step c).crcNext.crcOk = (decide (k = HuDecoder.CRC_LEN - 1) &&
        decide (Lmac.crcNext (decodedBit raw seed k) u.crcNext.crcOut = Crc16.CRC_RESIDUE)) := by
      rw [hcrc]
      rfl
    rw [hok, hrun, decide_eq_true (hend.2 hlast), Bool.true_and, hlast, infoOk]

theorem Checking.last (h : Checking raw seed HuDecoder.CRC_LEN u) (c : HuCycle) :
    Checked raw seed (u.step c) := by
  have hfed : ¬u.dec.crcFedCnt < HuDecoder.CRC_LEN := by rw [h.crcFedCnt]; exact Nat.lt_irrefl _
  have hdec : (u.step c).dec = { HuDecoder.quiet u.dec with seq := u.dec.seq.advance } := by
    simp only [HuUnit.step, HuDecoder.step, h.state, HuDecoder.check, HuDecoder.quiet, input,
      if_neg hfed, h.crcValid, if_neg Bool.false_ne_true]
  refine ⟨?_, ?_, ?_, ?_, ?_, ?_, taking_step h.vitInputValid h.vit c, h.done, h.ok rfl⟩
  · rw [hdec]; exact h.state
  · rw [hdec]; exact h.crcFedCnt
  · rw [hdec]; rfl
  · rw [hdec]; exact h.vitOutBuf
  · rw [hdec]; rfl
  · rw [hdec]; rfl

theorem Checked.step (h : Checked raw seed u) (c : HuCycle) : Shown raw seed (u.step c) := by
  have hfed : ¬u.dec.crcFedCnt < HuDecoder.CRC_LEN := by rw [h.crcFedCnt]; exact Nat.lt_irrefl _
  have hdec : (u.step c).dec = { HuDecoder.quiet u.dec with
      seq := u.dec.seq.advance
      crcOk := u.crc.crcOk
      infoBits := u.dec.vitOutBuf.extractLsb' 0 92
      infoValid := true
      decodesOk := if u.crc.crcOk then u.dec.decodesOk + 1 else u.dec.decodesOk
      state := .done } := by
    simp only [HuUnit.step, HuDecoder.step, h.state, HuDecoder.check, HuDecoder.quiet, input,
      if_neg hfed, if_pos h.crcValid]
  refine ⟨?_, ?_, ?_, h.crcDoneIn, taking_step h.vitInputValid h.vit c, ?_, ?_, ?_⟩
  · rw [hdec]
  · rw [hdec]; rfl
  · rw [hdec]; rfl
  · rw [hdec]
  · rw [hdec]
    refine eq_written fun j hj => ?_
    rw [BitVec.getLsbD_extractLsb', Nat.zero_add, decide_eq_true hj, Bool.true_and]
    exact h.vitOutBuf j (Nat.lt_trans hj (by decide))
  · rw [hdec]; exact h.crcOk

theorem Shown.step (h : Shown raw seed u) (c : HuCycle) : Ready (u.step c) := by
  obtain ⟨hvalid, hdone, hinfo⟩ := early_step (s := u.dec) (by rw [h.state]; rfl) (u.input c)
  refine ⟨⟨⟨hdone, hinfo, h.crcDoneIn⟩, hvalid, taking_step h.vitInputValid h.vit c⟩, ?_⟩
  simp only [HuUnit.step, HuDecoder.step, h.state]

end HuUnit
end TetraBs.Lmac
