import TetraBs.Lib.Bits
import TetraBs.Lib.MulPerm
import TetraBs.Lib.Serializer

/-! `tetra_interleaver` and `tetra_deinterleaver`: a block is written into the buffer and then read
out of it, the one with permuted write addresses and the other with permuted read addresses. One
step is one rising clock edge. -/
namespace TetraBs.Lmac
open TetraBs.BitRegister TetraBs.MulPerm TetraBs.Serial

inductive BufferPhase where
  | fill | drain
deriving DecidableEq

structure BlockInput where
  blockSize : Nat
  dataIn : Bool
  dataInValid : Bool

/-- The registers of either module. The addresses and the counter have nine bits. -/
structure BlockBuffer where
  state : BufferPhase
  wrAddr : Nat
  rdAddr : Nat
  drainCnt : Nat
  bufData : BitVec 432
  dataOut : Bool
  dataOutValid : Bool
  blockDone : Bool

def STEP_BSCH : Nat := 11
def STEP_BNCH : Nat := 101
def STEP_SCHF : Nat := 103

def aParam (blockSize : Nat) : Nat :=
  if blockSize = 432 then STEP_SCHF else if blockSize = 216 then STEP_BNCH else STEP_BSCH

/-- `wr_next` and `rd_next`. -/
def addrNext (blockSize addr : Nat) : Nat :=
  if blockSize ≤ addr + aParam blockSize then (addr + aParam blockSize + 512 - blockSize) % 512
  else (addr + aParam blockSize) % 512

/-- `block_size - 9'd1`. -/
def lastIndex (blockSize : Nat) : Nat := (blockSize + 511) % 512

namespace BlockBuffer

def reset : BlockBuffer := ⟨.fill, 0, 0, 0, 0, false, false, false⟩

def rdBit (s : BlockBuffer) : Bool := s.bufData.getLsbD s.rdAddr

def drainDone (s : BlockBuffer) (i : BlockInput) : Bool :=
  s.state = .drain && s.drainCnt = lastIndex i.blockSize

end BlockBuffer

def interleaverFillDone (s : BlockBuffer) (i : BlockInput) : Bool :=
  s.state = .fill && i.dataInValid && s.drainCnt = lastIndex i.blockSize

/-- `drain_cnt` counts the bits in as well as the bits out. -/
def interleaverStep (s : BlockBuffer) (i : BlockInput) : BlockBuffer where
  state :=
    match s.state with
    | .fill => if interleaverFillDone s i then .drain else .fill
    | .drain => if s.drainDone i then .fill else .drain
  wrAddr :=
    match s.state with
    | .drain => aParam i.blockSize
    | .fill => if i.dataInValid then addrNext i.blockSize s.wrAddr else s.wrAddr
  drainCnt :=
    match s.state with
    | .fill =>
      if i.dataInValid then if interleaverFillDone s i then 0 else (s.drainCnt + 1) % 512
      else s.drainCnt
    | .drain => (s.drainCnt + 1) % 512
  bufData :=
    if s.state = .fill ∧ i.dataInValid then writeBit s.bufData s.wrAddr i.dataIn else s.bufData
  rdAddr :=
    match s.state with
    | .fill => 0
    | .drain => (s.rdAddr + 1) % 512
  dataOut := if s.state = .drain then s.rdBit else s.dataOut
  dataOutValid := s.state = .drain
  blockDone := s.drainDone i

def deinterleaverFillDone (s : BlockBuffer) (i : BlockInput) : Bool :=
  s.state = .fill && i.dataInValid && s.wrAddr = lastIndex i.blockSize

def deinterleaverStep (s : BlockBuffer) (i : BlockInput) : BlockBuffer where
  state :=
    match s.state with
    | .fill => if deinterleaverFillDone s i then .drain else .fill
    | .drain => if s.drainDone i then .fill else .drain
  wrAddr :=
    match s.state with
    | .drain => 0
    | .fill =>
      if i.dataInValid then
        if s.wrAddr = lastIndex i.blockSize then 0 else (s.wrAddr + 1) % 512
      else s.wrAddr
  bufData :=
    if s.state = .fill ∧ i.dataInValid then writeBit s.bufData s.wrAddr i.dataIn else s.bufData
  rdAddr :=
    match s.state with
    | .fill => aParam i.blockSize
    | .drain => addrNext i.blockSize s.rdAddr
  drainCnt :=
    match s.state with
    | .fill => 0
    | .drain => (s.drainCnt + 1) % 512
  dataOut := if s.state = .drain then s.rdBit else s.dataOut
  dataOutValid := s.state = .drain
  blockDone := s.drainDone i

/-! Blocks on their way through one of the modules. -/

inductive BlockSize where
  | bsch | bnch | schf
deriving DecidableEq

def BlockSize.bits : BlockSize → Nat
  | .bsch => 120
  | .bnch => 216
  | .schf => 432

/-- The factor of the standard. -/
def BlockSize.factor : BlockSize → Nat
  | .bsch => STEP_BSCH
  | .bnch => STEP_BNCH
  | .schf => STEP_SCHF

/-- Cycles of a block of this size; a pair is `data_in_valid` and `data_in`. -/
def BlockSize.cycles (k : BlockSize) (cs : List (Bool × Bool)) : List BlockInput :=
  cs.map fun c => { blockSize := k.bits, dataIn := c.2, dataInValid := c.1 }

def given (cs : List (Bool × Bool)) : List Bool := (cs.filter (·.1)).map (·.2)

/-- One block: the cycles up to its last bit, with any gaps, and then cycles without input for at
least as long as it takes to drain it. -/
structure Feed where
  size : BlockSize
  lead : List (Bool × Bool)
  last : Bool
  idle : List Bool
  complete : (given lead).length + 1 = size.bits
  drains : size.bits ≤ idle.length

namespace Feed

def bits (f : Feed) : List Bool := given f.lead ++ [f.last]

def filling (f : Feed) : List BlockInput := f.size.cycles (f.lead ++ [(true, f.last)])

def draining (f : Feed) : List BlockInput := f.size.cycles (f.idle.map fun b => (false, b))

end Feed

/-- The bits that a module puts out. -/
def reader (step : BlockBuffer → BlockInput → BlockBuffer) : Reader BlockBuffer BlockInput Bool where
  next := step
  out s i := if (step s i).dataOutValid then [(step s i).dataOut] else []

/-- What a module puts out while each block comes in, and after it. -/
def blocksOut (step : BlockBuffer → BlockInput → BlockBuffer) :
    BlockBuffer → List Feed → List (List Bool × List Bool)
  | _, [] => []
  | s, f :: fs =>
    let s' := (reader step).after s f.filling
    ((reader step).outputs s f.filling, (reader step).outputs s' f.draining) ::
      blocksOut step ((reader step).after s' f.draining) fs

/-- From reset, each block comes out once it is in, permuted as the standard says, and the
deinterleaver makes the original blocks of what comes out. -/
structure RoundTrip (fs : List Feed) : Prop where
  permuted : List.Forall₂ (fun f out => out.1 = [] ∧ Permuted f.size.factor f.bits out.2) fs
    (blocksOut interleaverStep .reset fs)
  returned : ∀ gs : List Feed, gs.map Feed.size = fs.map Feed.size →
    gs.map Feed.bits = (blocksOut interleaverStep .reset fs).map Prod.snd →
    blocksOut deinterleaverStep .reset gs = fs.map fun f => ([], f.bits)

theorem lastIndex_bits (k : BlockSize) : lastIndex k.bits = k.bits - 1 := by
  cases k <;> rfl

theorem aParam_bits (k : BlockSize) : aParam k.bits = k.factor := by
  cases k <;> rfl

theorem factor_coprime (k : BlockSize) : k.bits.Coprime k.factor := by
  cases k <;> decide

theorem factor_lt (k : BlockSize) : 0 < k.factor ∧ k.factor < k.bits ∧ k.bits ≤ 432 := by
  cases k <;> decide

theorem addrNext_mul (k : BlockSize) (n : Nat) :
    addrNext k.bits (k.factor * n % k.bits) = k.factor * (n + 1) % k.bits := by
  obtain ⟨hpos, hlt, hmax⟩ := factor_lt k
  have haddr : k.factor * n % k.bits < k.bits := Nat.mod_lt _ (by omega)
  rw [← mul_mod_add, addrNext, aParam_bits]
  generalize k.factor * n % k.bits = w at haddr
  split
  · rw [Nat.mod_eq_sub_mod (by omega : k.bits ≤ w + k.factor),
      Nat.mod_eq_of_lt (by omega : w + k.factor - k.bits < k.bits)]
    omega
  · rw [Nat.mod_eq_of_lt (by omega : w + k.factor < k.bits)]
    omega

/-! The drain, which both modules share up to their addresses. -/

namespace BlockBuffer

/-- An edge of the drain. -/
def drained (s : BlockBuffer) (size rdAddr wrAddr : Nat) : BlockBuffer where
  state := if s.drainCnt = lastIndex size then .fill else .drain
  wrAddr := wrAddr
  rdAddr := rdAddr
  drainCnt := (s.drainCnt + 1) % 512
  bufData := s.bufData
  dataOut := s.rdBit
  dataOutValid := true
  blockDone := s.drainCnt = lastIndex size

end BlockBuffer

variable {step : BlockBuffer → BlockInput → BlockBuffer} {s : BlockBuffer} {i : BlockInput}

theorem interleaverStep_drain (hs : s.state = .drain) : interleaverStep s i =
    s.drained i.blockSize ((s.rdAddr + 1) % 512) (aParam i.blockSize) := by
  simp [interleaverStep, BlockBuffer.drained, BlockBuffer.drainDone, hs]

theorem deinterleaverStep_drain (hs : s.state = .drain) : deinterleaverStep s i =
    s.drained i.blockSize (addrNext i.blockSize s.rdAddr) 0 := by
  simp [deinterleaverStep, BlockBuffer.drained, BlockBuffer.drainDone, hs]

/-- A module that drains a block of `size` bits from the addresses `adr 0`, `adr 1`, and so on, and
stands idle after it. -/
structure Drains (step : BlockBuffer → BlockInput → BlockBuffer) (size : Nat) (adr : Nat → Nat)
    (home : Nat) : Prop where
  fits : 0 < size ∧ size ≤ 432
  edge {s : BlockBuffer} {i : BlockInput} {c : Nat} : s.state = .drain → s.rdAddr = adr c →
    c < size → i.blockSize = size → step s i = s.drained size (adr (c + 1)) home

/-- `c` bits of the block are out. -/
structure Draining (size : Nat) (adr : Nat → Nat) (home : Nat) (buf : BitVec 432) (c : Nat)
    (s : BlockBuffer) : Prop where
  state : s.state = if c < size then .drain else .fill
  drainCnt : s.drainCnt = c
  rdAddr : s.rdAddr = adr c
  wrAddr : c = size → s.wrAddr = home
  bufData : s.bufData = buf

theorem Drains.bit {size : Nat} {adr : Nat → Nat} {home : Nat} (h : Drains step size adr home)
    {buf : BitVec 432} {c : Nat} (hs : Draining size adr home buf c s) (hc : c < size)
    (hi : i.blockSize = size) : Draining size adr home buf (c + 1) (step s i) ∧
      (reader step).out s i = [buf.getLsbD (adr c)] := by
  have hfits := h.fits
  have hlast : lastIndex size = size - 1 := by
    rw [lastIndex]
    omega
  have hedge := h.edge (hs.state.trans (if_pos hc)) hs.rdAddr hc hi
  constructor
  · rw [hedge]
    constructor
    · simp only [BlockBuffer.drained, hs.drainCnt, hlast]
      by_cases hend : c = size - 1
      · rw [if_pos hend, if_neg (by omega)]
      · rw [if_neg hend, if_pos (by omega)]
    · simp only [BlockBuffer.drained, hs.drainCnt]
      omega
    · rfl
    · exact fun _ => rfl
    · exact hs.bufData
  · simp [reader, hedge, BlockBuffer.drained, BlockBuffer.rdBit, hs.bufData, hs.rdAddr]

theorem Drains.bits {size : Nat} {adr : Nat → Nat} {home : Nat} (h : Drains step size adr home)
    {buf : BitVec 432} {c : Nat} (hs : Draining size adr home buf c s) {is : List BlockInput}
    (hlen : c + is.length = size) (his : ∀ i ∈ is, i.blockSize = size) :
    Draining size adr home buf size ((reader step).after s is) ∧
      (reader step).outputs s is =
        (List.range' c is.length).map fun k => buf.getLsbD (adr k) := by
  induction is generalizing s c with
  | nil =>
    obtain rfl : c = size := hlen
    exact ⟨hs, rfl⟩
  | cons i is ih =>
    rw [List.length_cons] at hlen
    obtain ⟨hnext, hout⟩ := h.bit hs (by omega) (his i List.mem_cons_self)
    obtain ⟨hend, hrest⟩ := ih hnext (by omega) fun j hj => his j (List.mem_cons_of_mem i hj)
    refine ⟨hend, ?_⟩
    rw [Reader.outputs, hout, List.length_cons, List.range'_succ, List.map_cons]
    exact congrArg _ hrest

theorem interleaver_drains (k : BlockSize) : Drains interleaverStep k.bits id k.factor where
  fits := ⟨by cases k <;> decide, (factor_lt k).2.2⟩
  edge := by
    intro s i c hs hrd hc hi
    have hmax := (factor_lt k).2.2
    rw [interleaverStep_drain hs, hi, aParam_bits, hrd, id, Nat.mod_eq_of_lt (by omega)]
    rfl

theorem deinterleaver_drains (k : BlockSize) :
    Drains deinterleaverStep k.bits (place k.factor k.bits) 0 where
  fits := ⟨by cases k <;> decide, (factor_lt k).2.2⟩
  edge := by
    intro s i c hs hrd hc hi
    rw [deinterleaverStep_drain hs, hi, hrd, place, addrNext_mul]
    rfl

theorem BlockSize.cycles_append (k : BlockSize) (cs ds : List (Bool × Bool)) :
    k.cycles (cs ++ ds) = k.cycles cs ++ k.cycles ds := List.map_append

theorem BlockSize.blockSize_cycles (k : BlockSize) (cs : List (Bool × Bool)) :
    ∀ i ∈ k.cycles cs, i.blockSize = k.bits := by
  intro i hi
  obtain ⟨c, -, rfl⟩ := List.mem_map.1 hi
  rfl

theorem given_append (cs ds : List (Bool × Bool)) : given (cs ++ ds) = given cs ++ given ds := by
  simp [given]

theorem given_idle (bs : List Bool) : given (bs.map fun b => (false, b)) = [] := by
  simp [given]

theorem Feed.bits_length (f : Feed) : f.bits.length = f.size.bits := by
  rw [bits, List.length_append, List.length_singleton, f.complete]

theorem reader_outputs_cons (is : List BlockInput) : (reader step).outputs s (i :: is) =
    (reader step).out s i ++ (reader step).outputs (step s i) is := rfl

theorem reader_after_cons (is : List BlockInput) :
    (reader step).after s (i :: is) = (reader step).after (step s i) is := rfl

/-! The interleaver's fill. -/

theorem interleaver_out (hs : s.state = .fill) : (reader interleaverStep).out s i = [] := by
  simp [reader, interleaverStep, hs]

theorem interleaverStep_gap (hs : s.state = .fill) (hi : i.dataInValid = false) :
    interleaverStep s i = { s with rdAddr := 0, dataOutValid := false, blockDone := false } := by
  cases s
  simp_all [interleaverStep, BlockBuffer.drainDone, interleaverFillDone]

theorem interleaverStep_bit (hs : s.state = .fill) (hi : i.dataInValid = true) :
    interleaverStep s i = {
      state := if s.drainCnt = lastIndex i.blockSize then .drain else .fill
      wrAddr := addrNext i.blockSize s.wrAddr
      rdAddr := 0
      drainCnt := if s.drainCnt = lastIndex i.blockSize then 0 else (s.drainCnt + 1) % 512
      bufData := writeBit s.bufData s.wrAddr i.dataIn
      dataOut := s.dataOut
      dataOutValid := false
      blockDone := false } := by
  simp [interleaverStep, BlockBuffer.drainDone, interleaverFillDone, hs, hi]

/-- As long as the counter does not meet the end of the block, nothing comes out. -/
theorem interleaver_quiet (k : BlockSize) (cs : List (Bool × Bool)) {d : Nat} (hd : d < 512)
    (hs : s.state = .fill) (hcnt : s.drainCnt = d)
    (hquiet : ∀ j < (given cs).length, (d + j) % 512 ≠ k.bits - 1) :
    (reader interleaverStep).outputs s (k.cycles cs) = [] ∧
      ((reader interleaverStep).after s (k.cycles cs)).state = .fill ∧
      ((reader interleaverStep).after s (k.cycles cs)).drainCnt =
        (d + (given cs).length) % 512 := by
  induction cs generalizing s d with
  | nil => exact ⟨rfl, hs, hcnt.trans (Nat.mod_eq_of_lt hd).symm⟩
  | cons c cs ih =>
    obtain ⟨valid, b⟩ := c
    rw [BlockSize.cycles, List.map_cons, reader_outputs_cons, reader_after_cons,
      interleaver_out hs, List.nil_append]
    cases valid with
    | false =>
      have hgap := interleaverStep_gap (i := ⟨k.bits, b, false⟩) hs rfl
      exact ih hd (by rw [hgap]; exact hs) (by rw [hgap]; exact hcnt) hquiet
    | true =>
      have hbit := interleaverStep_bit (i := ⟨k.bits, b, true⟩) hs rfl
      have hlen : (given ((true, b) :: cs)).length = (given cs).length + 1 := rfl
      have hmiss : ¬ s.drainCnt = lastIndex k.bits := by
        have h0 := hquiet 0 (by omega)
        rw [lastIndex_bits, hcnt]
        rwa [Nat.add_zero, Nat.mod_eq_of_lt hd] at h0
      have hrest := ih (s := interleaverStep s ⟨k.bits, b, true⟩) (d := (d + 1) % 512)
        (Nat.mod_lt _ (by decide)) (by rw [hbit]; exact if_neg hmiss)
        (by rw [hbit, ← hcnt]; exact if_neg hmiss) fun j hj => by
          have hnext := hquiet (j + 1) (by omega)
          rwa [(by omega : ((d + 1) % 512 + j) % 512 = (d + (j + 1)) % 512)]
      rwa [(by omega : ((d + 1) % 512 + (given cs).length) % 512 =
        (d + ((given cs).length + 1)) % 512)] at hrest

theorem interleaver_idle (k : BlockSize) (bs : List Bool) (hs : s.state = .fill)
    (hd : s.drainCnt < 512) :
    let is := k.cycles (bs.map fun b => (false, b))
    (reader interleaverStep).outputs s is = [] ∧
      ((reader interleaverStep).after s is).state = .fill ∧
      ((reader interleaverStep).after s is).drainCnt = s.drainCnt := by
  have hquiet := interleaver_quiet k (bs.map fun b => (false, b)) hd hs rfl
    (by simp [given_idle])
  rwa [given_idle, List.length_nil, Nat.add_zero, Nat.mod_eq_of_lt hd] at hquiet

/-- `bs` has been taken from address 0 on. -/
structure InterleaverTook (k : BlockSize) (bs : List Bool) (s : BlockBuffer) : Prop where
  state : s.state = .fill
  drainCnt : s.drainCnt = bs.length
  wrAddr : s.wrAddr = k.factor * bs.length % k.bits
  bufData : ∀ n < bs.length, s.bufData.getLsbD (k.factor * n % k.bits) = bs.getD n false

theorem interleaverTook_reset (k : BlockSize) : InterleaverTook k [] .reset :=
  ⟨rfl, rfl, rfl, fun n hn => absurd hn (Nat.not_lt_zero n)⟩

/-- A write to the next place leaves the places before it. -/
theorem writeBit_place (k : BlockSize) {x : BitVec 432} {bs : List Bool} (hlt : bs.length < k.bits)
    (hx : ∀ n < bs.length, x.getLsbD (k.factor * n % k.bits) = bs.getD n false) (b : Bool) :
    ∀ n < (bs ++ [b]).length,
      (writeBit x (k.factor * bs.length % k.bits) b).getLsbD (k.factor * n % k.bits) =
        (bs ++ [b]).getD n false := by
  obtain ⟨hpos, hfac, hmax⟩ := factor_lt k
  intro n hn
  rw [List.length_append, List.length_singleton] at hn
  have haddr : k.factor * n % k.bits < k.bits := Nat.mod_lt _ (by omega)
  rw [getLsbD_writeBit _ _ _ (by omega)]
  by_cases hlast : n = bs.length
  · subst hlast
    rw [if_pos rfl, List.getD_append_right _ _ _ _ (Nat.le_refl _), Nat.sub_self]
    rfl
  · have hne : ¬ k.factor * n % k.bits = k.factor * bs.length % k.bits := fun he =>
      hlast (mul_mod_inj (factor_coprime k) (by omega) hlt he)
    rw [if_neg hne, hx n (by omega), List.getD_append _ _ _ _ (by omega)]

theorem InterleaverTook.lead {k : BlockSize} {bs : List Bool} (h : InterleaverTook k bs s)
    (cs : List (Bool × Bool)) (hlen : bs.length + (given cs).length < k.bits) :
    InterleaverTook k (bs ++ given cs) ((reader interleaverStep).after s (k.cycles cs)) := by
  induction cs generalizing s bs with
  | nil => rwa [(by rfl : given [] = []), List.append_nil]
  | cons c cs ih =>
    obtain ⟨valid, b⟩ := c
    rw [BlockSize.cycles, List.map_cons, reader_after_cons]
    cases valid with
    | false =>
      have hgap := interleaverStep_gap (i := ⟨k.bits, b, false⟩) h.state rfl
      exact ih (by rw [hgap]; exact ⟨h.state, h.drainCnt, h.wrAddr, h.bufData⟩) hlen
    | true =>
      have hbit := interleaverStep_bit (i := ⟨k.bits, b, true⟩) h.state rfl
      have hone : given ((true, b) :: cs) = b :: given cs := rfl
      rw [hone, List.length_cons] at hlen
      have hmax := (factor_lt k).2.2
      have hmiss : ¬ s.drainCnt = lastIndex k.bits := by
        rw [lastIndex_bits, h.drainCnt]
        omega
      have hnext : InterleaverTook k (bs ++ [b]) (interleaverStep s ⟨k.bits, b, true⟩) := by
        rw [hbit]
        constructor
        · exact if_neg hmiss
        · refine (if_neg hmiss).trans ?_
          rw [h.drainCnt, List.length_append, List.length_singleton]
          exact Nat.mod_eq_of_lt (by omega)
        · simp only [h.wrAddr, addrNext_mul, List.length_append, List.length_singleton]
        · simp only [h.wrAddr]
          exact writeBit_place k (by omega) h.bufData b
      have hrest := ih hnext (by rw [List.length_append, List.length_singleton]; omega)
      rwa [List.append_assoc, List.singleton_append] at hrest

/-- The block is in, and the drain begins. -/
theorem InterleaverTook.filled {f : Feed} (h : InterleaverTook f.size [] s) :
    ∃ buf, Draining f.size.bits id f.size.factor buf 0
        ((reader interleaverStep).after s f.filling) ∧
      (∀ n < f.bits.length, buf.getLsbD (f.size.factor * n % f.size.bits) = f.bits.getD n false) ∧
      (reader interleaverStep).outputs s f.filling = [] := by
  obtain ⟨hpos, hfac, hmax⟩ := factor_lt f.size
  have hcomplete := f.complete
  have hlead := h.lead f.lead (by rw [List.length_nil]; omega)
  rw [List.nil_append] at hlead
  obtain ⟨hquiet, -, -⟩ := interleaver_quiet f.size f.lead (d := 0) (by decide) h.state
    h.drainCnt fun j hj => by omega
  have hbit := interleaverStep_bit (i := ⟨f.size.bits, f.last, true⟩) hlead.state rfl
  have hdone : ((reader interleaverStep).after s (f.size.cycles f.lead)).drainCnt =
      lastIndex f.size.bits := by
    rw [hlead.drainCnt, lastIndex_bits]
    omega
  have hafter : (reader interleaverStep).after s f.filling = interleaverStep
      ((reader interleaverStep).after s (f.size.cycles f.lead)) ⟨f.size.bits, f.last, true⟩ := by
    rw [Feed.filling, BlockSize.cycles_append, Reader.after_append]
    rfl
  refine ⟨_, ⟨?_, ?_, ?_, fun h0 => absurd h0 (by omega), rfl⟩, ?_, ?_⟩
  · rw [hafter, hbit, if_pos (by omega : 0 < f.size.bits)]
    exact if_pos hdone
  · rw [hafter, hbit]
    exact if_pos hdone
  · rw [hafter, hbit]
    rfl
  · rw [hafter, hbit]
    dsimp only
    rw [hlead.wrAddr]
    exact writeBit_place f.size (by omega) hlead.bufData f.last
  · rw [Feed.filling, BlockSize.cycles_append, Reader.outputs_append, hquiet, List.nil_append]
    exact (List.append_nil _).trans (interleaver_out hlead.state)

/-- The cycles of `idle` in which the block is drained, and those after it. -/
theorem Drains.block {f : Feed} {adr : Nat → Nat} {home : Nat}
    (hstep : Drains step f.size.bits adr home) {buf : BitVec 432}
    (h : Draining f.size.bits adr home buf 0 s) :
    let rest := f.size.cycles ((f.idle.drop f.size.bits).map fun b => (false, b))
    ∃ s', Draining f.size.bits adr home buf f.size.bits s' ∧
      (reader step).after s f.draining = (reader step).after s' rest ∧
      (reader step).outputs s f.draining =
        (List.range f.size.bits).map (fun c => buf.getLsbD (adr c)) ++
          (reader step).outputs s' rest := by
  have hsplit : f.draining = f.size.cycles ((f.idle.take f.size.bits).map fun b => (false, b)) ++
      f.size.cycles ((f.idle.drop f.size.bits).map fun b => (false, b)) := by
    rw [← BlockSize.cycles_append, ← List.map_append, List.take_append_drop, Feed.draining]
  have hlen : (f.size.cycles ((f.idle.take f.size.bits).map fun b => (false, b))).length =
      f.size.bits := by
    simp [BlockSize.cycles, f.drains]
  obtain ⟨hend, hout⟩ := hstep.bits h (by rw [hlen, Nat.zero_add])
    (f.size.blockSize_cycles ((f.idle.take f.size.bits).map fun b => (false, b)))
  refine ⟨_, hend, ?_, ?_⟩
  · rw [hsplit, Reader.after_append]
  · rw [hsplit, Reader.outputs_append, hout, hlen, List.range_eq_range']

/-- A block from reset comes out at its places counted from 0, and its bits stay counted. -/
theorem interleaver_first (f : Feed) :
    (reader interleaverStep).outputs .reset f.filling = [] ∧
      ((reader interleaverStep).after .reset (f.filling ++ f.draining)).state = .fill ∧
      ((reader interleaverStep).after .reset (f.filling ++ f.draining)).drainCnt = f.size.bits ∧
      ∃ buf : BitVec 432,
        (∀ n < f.bits.length,
          buf.getLsbD (f.size.factor * n % f.size.bits) = f.bits.getD n false) ∧
        (reader interleaverStep).outputs ((reader interleaverStep).after .reset f.filling)
          f.draining = (List.range f.size.bits).map fun c => buf.getLsbD c := by
  obtain ⟨buf, hdrain, hbuf, hquiet⟩ := (interleaverTook_reset f.size).filled
  obtain ⟨s', hend, hafter, hout⟩ := (interleaver_drains f.size).block hdrain
  have hmax := (factor_lt f.size).2.2
  obtain ⟨hidle, hstate, hcnt⟩ := interleaver_idle f.size (f.idle.drop f.size.bits)
    (hend.state.trans (if_neg (Nat.lt_irrefl _))) (hend.drainCnt.symm ▸ by omega)
  rw [Reader.after_append, hafter]
  refine ⟨hquiet, hstate, hcnt.trans hend.drainCnt, buf, hbuf, ?_⟩
  rw [hout, hidle, List.append_nil]
  rfl

/-- It is permuted as the standard says exactly if all its bits are equal. -/
theorem interleaver_first_iff (f : Feed) :
    Permuted f.size.factor f.bits ((reader interleaverStep).outputs
        ((reader interleaverStep).after .reset f.filling) f.draining) ↔
      ∃ b, f.bits = List.replicate f.size.bits b := by
  obtain ⟨-, -, -, buf, hbuf, hout⟩ := interleaver_first f
  have hlen := f.bits_length
  have hpos : 0 < f.size.bits := by cases f.size <;> decide
  -- place `i` holds the bit after bit `i`
  have hplace : ∀ i, ((List.range f.size.bits).map fun c => buf.getLsbD c)[place f.size.factor
      f.bits.length i]? = some (f.bits.getD ((i + 1) % f.size.bits) false) := by
    intro i
    have hmod : (i + 1) % f.size.bits < f.size.bits := Nat.mod_lt _ hpos
    rw [hlen, List.getElem?_map, List.getElem?_range (place_lt hpos), Option.map_some, place_eq,
      hbuf _ (hlen.symm ▸ hmod)]
  rw [hout]
  constructor
  · intro h
    have hnext : ∀ i, i + 1 < f.bits.length → f.bits[i + 1]? = f.bits[i]? := by
      intro i hi
      rw [← h.item i (by omega), hplace, Nat.mod_eq_of_lt (by omega), List.getD_eq_getElem _ _ hi,
        List.getElem?_eq_getElem hi]
    have hall : ∀ i < f.bits.length, f.bits[i]? = f.bits[0]? := by
      intro i hi
      induction i with
      | zero => rfl
      | succ i ih => exact (hnext i hi).trans (ih (by omega))
    refine ⟨f.bits.getD 0 false, List.ext_getElem? fun i => ?_⟩
    by_cases hi : i < f.bits.length
    · rw [hall i hi, List.getElem?_replicate_of_lt (hlen ▸ hi), List.getD_eq_getElem _ _ (by omega),
        List.getElem?_eq_getElem (by omega)]
    · rw [List.getElem?_eq_none (by omega), List.getElem?_eq_none (by simp; omega)]
  · rintro ⟨b, hb⟩
    refine ⟨by simp [hlen], fun i hi => ?_⟩
    have hmod : (i + 1) % f.size.bits < f.size.bits := Nat.mod_lt _ hpos
    rw [hplace, hb, List.getElem?_replicate_of_lt (hlen ▸ hi), List.getD_replicate _ hmod]

/-- The cycle that gives bit `m`. -/
theorem exists_given (cs : List (Bool × Bool)) {m : Nat} (hm : m < (given cs).length) :
    ∃ us b vs, cs = us ++ (true, b) :: vs ∧ (given us).length = m := by
  induction cs generalizing m with
  | nil => exact absurd hm (Nat.not_lt_zero m)
  | cons c cs ih =>
    obtain ⟨valid, b⟩ := c
    cases valid with
    | false =>
      obtain ⟨us, b', vs, rfl, hus⟩ := ih hm
      exact ⟨(false, b) :: us, b', vs, rfl, hus⟩
    | true =>
      cases m with
      | zero => exact ⟨[], b, cs, rfl, rfl⟩
      | succ m =>
        obtain ⟨us, b', vs, rfl, hus⟩ := ih (Nat.lt_of_succ_lt_succ hm)
        exact ⟨(true, b) :: us, b', vs, rfl, congrArg Nat.succ hus⟩

theorem interleaver_shown (hs : s.state = .drain) (is : List BlockInput) :
    (reader interleaverStep).outputs s (i :: is) ≠ [] := by
  rw [reader_outputs_cons]
  simp [reader, interleaverStep_drain hs, BlockBuffer.drained]

/-- After a block of `k` the bits of the next one are miscounted: a larger block comes out before it
is in, and any other block never comes out. -/
theorem interleaver_second (k : BlockSize) (f : Feed) (hs : s.state = .fill)
    (hcnt : s.drainCnt = k.bits) :
    ¬ ((reader interleaverStep).outputs s f.filling = [] ∧
      Permuted f.size.factor f.bits ((reader interleaverStep).outputs
        ((reader interleaverStep).after s f.filling) f.draining)) := by
  have hcomplete := f.complete
  obtain ⟨hkpos, hkfac, hkmax⟩ := factor_lt k
  obtain ⟨hpos, hfac, hmax⟩ := factor_lt f.size
  rintro ⟨hquiet, hperm⟩
  by_cases hlt : k.bits < f.size.bits
  · obtain ⟨us, b, vs, hlead, hus⟩ :=
      exists_given f.lead (m := f.size.bits - 1 - k.bits) (by omega)
    obtain ⟨-, hfill, hend⟩ := interleaver_quiet f.size us (by omega) hs hcnt
      fun j hj => by omega
    have hbit := interleaverStep_bit (i := ⟨f.size.bits, b, true⟩) hfill rfl
    have hdrain : (interleaverStep ((reader interleaverStep).after s (f.size.cycles us))
        ⟨f.size.bits, b, true⟩).state = .drain := by
      rw [hbit]
      refine if_pos ?_
      rw [hend, lastIndex_bits]
      omega
    have hrest : f.filling = f.size.cycles us ++
        ⟨f.size.bits, b, true⟩ :: f.size.cycles (vs ++ [(true, f.last)]) := by
      rw [Feed.filling, hlead, List.append_assoc, BlockSize.cycles_append]
      rfl
    rw [hrest, Reader.outputs_append, List.append_eq_nil_iff, reader_outputs_cons,
      List.append_eq_nil_iff] at hquiet
    cases vs with
    | nil => exact interleaver_shown hdrain _ hquiet.2.2
    | cons v vs => exact interleaver_shown hdrain _ hquiet.2.2
  · obtain ⟨-, hfill, hend⟩ := interleaver_quiet f.size (f.lead ++ [(true, f.last)])
      (by omega) hs hcnt fun j hj => by
        rw [given_append, List.length_append, (by rfl : (given [(true, f.last)]).length = 1)] at hj
        omega
    obtain ⟨hnone, -, -⟩ := interleaver_idle f.size f.idle hfill (by rw [hend]; omega)
    have hlen := hperm.length
    rw [f.bits_length, Feed.filling, Feed.draining, hnone, List.length_nil] at hlen
    omega

/-! The deinterleaver. -/

theorem deinterleaver_out (hs : s.state = .fill) : (reader deinterleaverStep).out s i = [] := by
  simp [reader, deinterleaverStep, hs]

theorem deinterleaverStep_gap (hs : s.state = .fill) (hi : i.dataInValid = false) :
    deinterleaverStep s i = { s with
      rdAddr := aParam i.blockSize, drainCnt := 0, dataOutValid := false, blockDone := false } := by
  cases s
  simp_all [deinterleaverStep, BlockBuffer.drainDone, deinterleaverFillDone]

theorem deinterleaverStep_bit (hs : s.state = .fill) (hi : i.dataInValid = true) :
    deinterleaverStep s i = {
      state := if s.wrAddr = lastIndex i.blockSize then .drain else .fill
      wrAddr := if s.wrAddr = lastIndex i.blockSize then 0 else (s.wrAddr + 1) % 512
      rdAddr := aParam i.blockSize
      drainCnt := 0
      bufData := writeBit s.bufData s.wrAddr i.dataIn
      dataOut := s.dataOut
      dataOutValid := false
      blockDone := false } := by
  simp [deinterleaverStep, BlockBuffer.drainDone, deinterleaverFillDone, hs, hi]

/-- `bs` has been taken in order. -/
structure DeinterleaverTook (bs : List Bool) (s : BlockBuffer) : Prop where
  state : s.state = .fill
  wrAddr : s.wrAddr = bs.length
  bufData : ∀ n < bs.length, s.bufData.getLsbD n = bs.getD n false

theorem writeBit_next {x : BitVec 432} {bs : List Bool} (hlt : bs.length < 432)
    (hx : ∀ n < bs.length, x.getLsbD n = bs.getD n false) (b : Bool) :
    ∀ n < (bs ++ [b]).length,
      (writeBit x bs.length b).getLsbD n = (bs ++ [b]).getD n false := by
  intro n hn
  rw [List.length_append, List.length_singleton] at hn
  rw [getLsbD_writeBit _ _ _ (by omega)]
  by_cases hlast : n = bs.length
  · subst hlast
    rw [if_pos rfl, List.getD_append_right _ _ _ _ (Nat.le_refl _), Nat.sub_self]
    rfl
  · rw [if_neg hlast, hx n (by omega), List.getD_append _ _ _ _ (by omega)]

theorem DeinterleaverTook.lead {k : BlockSize} {bs : List Bool} (h : DeinterleaverTook bs s)
    (cs : List (Bool × Bool)) (hlen : bs.length + (given cs).length < k.bits) :
    (reader deinterleaverStep).outputs s (k.cycles cs) = [] ∧
      DeinterleaverTook (bs ++ given cs) ((reader deinterleaverStep).after s (k.cycles cs)) := by
  induction cs generalizing s bs with
  | nil =>
    rw [(by rfl : given [] = []), List.append_nil]
    exact ⟨rfl, h⟩
  | cons c cs ih =>
    obtain ⟨valid, b⟩ := c
    rw [BlockSize.cycles, List.map_cons, reader_outputs_cons, reader_after_cons,
      deinterleaver_out h.state, List.nil_append]
    cases valid with
    | false =>
      have hgap := deinterleaverStep_gap (i := ⟨k.bits, b, false⟩) h.state rfl
      exact ih (by rw [hgap]; exact ⟨h.state, h.wrAddr, h.bufData⟩) hlen
    | true =>
      have hbit := deinterleaverStep_bit (i := ⟨k.bits, b, true⟩) h.state rfl
      have hone : given ((true, b) :: cs) = b :: given cs := rfl
      rw [hone, List.length_cons] at hlen
      have hmax := (factor_lt k).2.2
      have hmiss : ¬ s.wrAddr = lastIndex k.bits := by
        rw [lastIndex_bits, h.wrAddr]
        omega
      have hnext : DeinterleaverTook (bs ++ [b]) (deinterleaverStep s ⟨k.bits, b, true⟩) := by
        rw [hbit]
        constructor
        · exact if_neg hmiss
        · refine (if_neg hmiss).trans ?_
          rw [h.wrAddr, List.length_append, List.length_singleton]
          exact Nat.mod_eq_of_lt (by omega)
        · simp only [h.wrAddr]
          exact writeBit_next (by omega) h.bufData b
      have hrest := ih hnext (by rw [List.length_append, List.length_singleton]; omega)
      rwa [List.append_assoc, List.singleton_append] at hrest

theorem DeinterleaverTook.filled {f : Feed} (h : DeinterleaverTook [] s) :
    ∃ buf, Draining f.size.bits (place f.size.factor f.size.bits) 0 buf 0
        ((reader deinterleaverStep).after s f.filling) ∧
      (∀ n < f.bits.length, buf.getLsbD n = f.bits.getD n false) ∧
      (reader deinterleaverStep).outputs s f.filling = [] := by
  obtain ⟨hpos, hfac, hmax⟩ := factor_lt f.size
  have hcomplete := f.complete
  obtain ⟨hquiet, hlead⟩ := h.lead (k := f.size) f.lead (by rw [List.length_nil]; omega)
  rw [List.nil_append] at hlead
  have hbit := deinterleaverStep_bit (i := ⟨f.size.bits, f.last, true⟩) hlead.state rfl
  have hdone : ((reader deinterleaverStep).after s (f.size.cycles f.lead)).wrAddr =
      lastIndex f.size.bits := by
    rw [hlead.wrAddr, lastIndex_bits]
    omega
  have hafter : (reader deinterleaverStep).after s f.filling = deinterleaverStep
      ((reader deinterleaverStep).after s (f.size.cycles f.lead)) ⟨f.size.bits, f.last, true⟩ := by
    rw [Feed.filling, BlockSize.cycles_append, Reader.after_append]
    rfl
  refine ⟨_, ⟨?_, ?_, ?_, fun h0 => absurd h0 (by omega), rfl⟩, ?_, ?_⟩
  · rw [hafter, hbit, if_pos (by omega : 0 < f.size.bits)]
    exact if_pos hdone
  · rw [hafter, hbit]
  · rw [hafter, hbit]
    simp only [aParam_bits, place, Nat.zero_add, Nat.mul_one, Nat.mod_eq_of_lt hfac]
  · rw [hafter, hbit]
    dsimp only
    rw [hlead.wrAddr]
    exact writeBit_next (by omega) hlead.bufData f.last
  · rw [Feed.filling, BlockSize.cycles_append, Reader.outputs_append, hquiet, List.nil_append]
    exact (List.append_nil _).trans (deinterleaver_out hlead.state)

/-- Every block comes out of the deinterleaver as it is collected from its places. -/
theorem deinterleaver_blocks (fs : List Feed) (h : DeinterleaverTook [] s) :
    blocksOut deinterleaverStep s fs =
      fs.map fun f => ([], collect f.size.factor false f.bits) := by
  induction fs generalizing s with
  | nil => rfl
  | cons f fs ih =>
    obtain ⟨buf, hdrain, hbuf, hquiet⟩ := h.filled (f := f)
    obtain ⟨s', hend, hafter, hout⟩ := (deinterleaver_drains f.size).block hdrain
    have hpos : 0 < f.size.bits := by cases f.size <;> decide
    have hhome : DeinterleaverTook [] s' :=
      ⟨hend.state.trans (if_neg (Nat.lt_irrefl _)), hend.wrAddr rfl,
        fun n hn => absurd hn (Nat.not_lt_zero n)⟩
    obtain ⟨hidle, hrest⟩ := hhome.lead (k := f.size)
      ((f.idle.drop f.size.bits).map fun b => (false, b)) (by rw [given_idle]; exact hpos)
    rw [given_idle, List.append_nil] at hrest
    rw [blocksOut, hquiet, hafter, ih hrest, hout, hidle, List.append_nil, List.map_cons, collect,
      f.bits_length]
    refine congrArg (· :: _) (congrArg (Prod.mk []) (List.map_congr_left fun c _ => ?_))
    exact hbuf _ (f.bits_length.symm ▸ place_lt hpos)

/-- Blocks that are permuted as the standard says come back. -/
theorem collect_permuted {fs gs : List Feed} {outs : List (List Bool × List Bool)}
    (h : List.Forall₂ (fun f out => out.1 = [] ∧ Permuted f.size.factor f.bits out.2) fs outs)
    (hsize : gs.map Feed.size = fs.map Feed.size) (hbits : gs.map Feed.bits = outs.map Prod.snd) :
    (gs.map fun g => (([] : List Bool), collect g.size.factor false g.bits)) =
      fs.map fun f => ([], f.bits) := by
  induction h generalizing gs with
  | nil =>
    rw [List.map_eq_nil_iff.1 hsize]
    rfl
  | @cons f out fs outs hone _ ih =>
    obtain ⟨g, gs, rfl, hg, hgs⟩ := List.map_eq_cons_iff.1 hsize
    rw [List.map_cons, List.map_cons, List.cons.injEq] at hbits
    rw [List.map_cons, List.map_cons, ih hgs hbits.2, hg, hbits.1, hone.2.collect_eq]

theorem RoundTrip.of_permuted {fs : List Feed}
    (h : List.Forall₂ (fun f out => out.1 = [] ∧ Permuted f.size.factor f.bits out.2) fs
      (blocksOut interleaverStep .reset fs)) : RoundTrip fs where
  permuted := h
  returned gs hsize hbits := by
    rw [deinterleaver_blocks gs ⟨rfl, rfl, fun n hn => absurd hn (Nat.not_lt_zero n)⟩]
    exact collect_permuted h hsize hbits

/-- Only one block makes the round trip after a reset, and only if all its bits are equal. -/
theorem round_trip_iff (fs : List Feed) : RoundTrip fs ↔
    fs = [] ∨ ∃ f b, fs = [f] ∧ f.bits = List.replicate f.size.bits b := by
  constructor
  · intro h
    cases fs with
    | nil => exact .inl rfl
    | cons f fs =>
      have hperm := h.permuted
      rw [blocksOut, List.forall₂_cons] at hperm
      obtain ⟨b, hb⟩ := (interleaver_first_iff f).1 hperm.1.2
      refine .inr ⟨f, b, ?_, hb⟩
      cases fs with
      | nil => rfl
      | cons g fs =>
        obtain ⟨-, hstate, hcnt, -⟩ := interleaver_first f
        have hsecond := hperm.2
        rw [blocksOut, List.forall₂_cons, ← Reader.after_append] at hsecond
        exact absurd hsecond.1 (interleaver_second f.size g hstate hcnt)
  · rintro (rfl | ⟨f, b, rfl, hb⟩)
    · exact .of_permuted .nil
    · exact .of_permuted (.cons ⟨(interleaver_first f).1, (interleaver_first_iff f).2 ⟨b, hb⟩⟩ .nil)

/-- A block of 120 bits whose first bit is set. -/
def oneBitFeed : Feed where
  size := .bsch
  lead := (true, true) :: List.replicate 118 (true, false)
  last := false
  idle := List.replicate 120 false
  complete := by decide
  drains := by decide

theorem one_bit_misplaced : ¬ RoundTrip [oneBitFeed] := by
  intro h
  have hperm := h.permuted
  rw [blocksOut, List.forall₂_cons] at hperm
  obtain ⟨b, hb⟩ := (interleaver_first_iff oneBitFeed).1 hperm.1.2
  have hfirst : oneBitFeed.bits[0]? = some true := by decide
  have hlast : oneBitFeed.bits[119]? = some false := by decide
  rw [hb, List.getElem?_replicate_of_lt (by decide)] at hfirst hlast
  exact absurd (hfirst.symm.trans hlast) (by decide)

end TetraBs.Lmac
