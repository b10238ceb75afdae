import TetraBs.Lmac.AachEncoder
import TetraBs.Lmac.SchHuDecoder
import TetraBs.Lmac.Scrambler

/-! The standalone scrambler against the sequence of the integrated modules. The standalone module
shifts a Galois register to the right with the mask of the other direction and shows the bit that
leaves, the others show the feedback bit of a Fibonacci register. -/
namespace TetraBs.Lmac
open TetraBs.Bits TetraBs.Lfsr TetraBs.Run TetraBs.Serial

/-- Bit `k` of the two sequences of a seed differs by the parity of the seed under mask `k`. -/
def checks : List (BitVec 32) :=
  [0xDB710640, 0x6D930AC0, 0xDB261580, 0x6D3D2D41, 0xDA7A5A83, 0x6F85B347, 0xDF0B668F, 0x6567CB5E,
    0xCACF96BD, 0x4EEE2B3B, 0x9DDC5676, 0xE0C9AAAC, 0x1AE25319, 0x35C4A632, 0x6B894C64, 0xD71298C9,
    0x755437D2, 0xEAA86FA5, 0x0E21D90B, 0x1C43B216, 0x3887642D, 0x710EC85B, 0xE21D90B7, 0x1F4A272F,
    0x3E944E5E, 0x7D289CBC, 0xFA513978, 0x2FD374B1, 0x5FA6E962, 0xBF4DD2C5, 0xA5EAA3CB, 0x90A441D7]

/-- The checks whose sum is a single bit of the seed. -/
def checkSums : List (BitVec 32) :=
  [0x8C3DEEAB, 0x9B1C311C, 0x396260D9, 0xFEF92F19, 0xF2A85CD3, 0xEA0ABB47, 0xDB4F746F, 0x35F90494,
    0xE7CFE783, 0x4CF8234C, 0x15CDA833, 0x2B9B5066, 0x5736A0CC, 0x2250AF33, 0xC89CB0CD, 0x125E8DD0,
    0xA880F50B, 0xD266065C, 0x27ABE0F2, 0x4F57C1E4, 0x12926D63, 0xA919346D, 0x5D686A3B, 0x36ED3ADD,
    0x6DDA75BA, 0x578905DF, 0xAF120BBE, 0x517E159D, 0xA2FC2B3A, 0xC69FBA3E, 0x8265769D, 0x87AD0170]

/-- The seed passes the first `n` of the checks. -/
def Passes (n : Nat) (seed : BitVec 32) : Prop := ∀ m ∈ checks.take n, masked m seed = false

/-- Every single bit of a seed tells whether the checks are right about it. -/
theorem checks_single : ∀ j < 32, List.zipWith xor (cellSequence 32 (BitVec.twoPow 32 j))
    (Scrambler.sequence 32 (BitVec.twoPow 32 j)) = checks.map fun m => m.getLsbD j := by
  decide +kernel

theorem checks_span : ∀ j < 32, select checks (checkSums.getD j 0#32) = BitVec.twoPow 32 j := by
  decide +kernel

theorem linear_lfsr : Linear lfsrNext lfsrFb := linear_fib lfsrTaps

theorem linear_scrambler : Linear (galStep Scrambler.POLY_MASK) fun r => r.getLsbD 0 :=
  linear_gal Scrambler.POLY_MASK

theorem check_eq {k : Nat} (hk : k < 32) (seed : BitVec 32) :
    (lfsrFb (lfsrNext^[k] seed) ^^ ((galStep Scrambler.POLY_MASK)^[k] seed).getLsbD 0) =
      masked (checks.getD k 0#32) seed := by
  have hdiff := (linear_lfsr.bit k).add (linear_scrambler.bit k)
  refine hdiff.ext (functional_masked _) (fun j hj => ?_) seed
  rw [masked_twoPow _ hj]
  have hbits := congrArg (fun l => l.getD k false) (checks_single j hj)
  have hlen : checks.length = 32 := rfl
  simpa [cellSequence, Scrambler.sequence, stream_eq_map, List.getD_eq_getElem?_getD, hk, hlen]
    using hbits

/-- The sequences of a seed agree on `n` bits exactly if the seed passes `n` checks. -/
theorem sequence_eq_iff (n : Nat) (seed : BitVec 32) :
    Scrambler.sequence n seed = cellSequence n seed ↔ Passes n seed := by
  rw [Scrambler.sequence, cellSequence, stream_eq_iff]
  have hlen : checks.length = 32 := rfl
  constructor
  · intro h m hm
    obtain ⟨k, hk, rfl⟩ := List.getElem_of_mem hm
    rw [List.length_take, hlen] at hk
    have hcheck := check_eq (k := k) (by omega) seed
    rw [List.getD_eq_getElem _ _ (by omega), h k (by omega), Bool.xor_self] at hcheck
    rw [List.getElem_take]
    exact hcheck.symm
  · intro h k hk
    by_cases hk32 : k < 32
    · have hmem : checks.getD k 0#32 ∈ checks.take n := by
        rw [List.getD_eq_getElem _ _ (by omega)]
        exact List.mem_take_iff_getElem.2 ⟨k, by omega, rfl⟩
      have hcheck := check_eq hk32 seed
      rw [h _ hmem] at hcheck
      have hxor : ∀ a b : Bool, (a ^^ b) = false → b = a := by decide
      exact hxor _ _ hcheck
    · -- more bits than checks: only the zero seed passes them all
      have hzero : seed = 0#32 := eq_zero_of_masked checks_span fun m hm => h m (by
        rwa [List.take_of_length_le (by omega)])
      rw [hzero]
      exact (linear_scrambler.bit k).zero.trans (linear_lfsr.bit k).zero.symm

/-- From 32 bits on only the zero seed passes. -/
theorem passes_long {n : Nat} (hn : 32 ≤ n) (seed : BitVec 32) : Passes n seed ↔ seed = 0#32 := by
  have hall : checks.take n = checks := List.take_of_length_le hn
  rw [Passes, hall]
  constructor
  · exact eq_zero_of_masked checks_span
  · rintro rfl m -
    exact (functional_masked m).zero

theorem zipWith_xor_inj {ds us vs : List Bool} (hu : us.length = ds.length)
    (hv : ds.length ≤ vs.length) :
    List.zipWith xor ds us = List.zipWith xor ds vs ↔ us = vs.take ds.length := by
  induction ds generalizing us vs with
  | nil =>
    have hnil : us = [] := List.length_eq_zero_iff.1 hu
    simp [hnil]
  | cons d ds ih =>
    cases us with
    | nil => cases hu
    | cons u us =>
      cases vs with
      | nil => exact absurd hv (Nat.not_succ_le_zero _)
      | cons v vs =>
        rw [List.zipWith_cons_cons, List.zipWith_cons_cons, List.length_cons, List.take_succ_cons,
          List.cons.injEq, List.cons.injEq, Bool.xor_right_inj,
          ih (Nat.succ.inj hu) (Nat.le_of_succ_le_succ hv)]

theorem cellSequence_take {n N : Nat} (h : n ≤ N) (seed : BitVec 32) :
    (cellSequence N seed).take n = cellSequence n seed := by
  rw [cellSequence, cellSequence, stream_eq_map, stream_eq_map, ← List.map_take, List.take_range,
    Nat.min_eq_left h]

/-! Runs of the modules. -/

/-- The scrambler loads `seed` and then takes data. -/
structure Scrambler.Run (seed : BitVec 32) (load : ScramblerInput) (js : List ScramblerInput) :
    Prop where
  loads : load.loadInit = true
  init : load.lfsrInit = seed
  data : ∀ j ∈ js, j.loadInit = false

/-- The encoder takes a start and is busy with that block up to its last cycle. -/
structure SchEncoder.Block (a : Nat) {k n : Nat} (s : SchEncoder k n) (i : SchInput k)
    (is : List (SchInput k)) : Prop where
  idle : s.state = .idle
  start : i.encodeStart = true
  busy : Along (SchEncoder.step a) (fun t _ => t.state ≠ .idle) (SchEncoder.step a s i) is
  last : (exec (SchEncoder.step a) s (i :: is)).state = .finish

structure AachEncoder.Block (s : AachEncoder) (i : AachInput) (is : List AachInput) : Prop where
  idle : s.state = .idle
  start : i.encodeStart = true
  busy : Along AachEncoder.step (fun t _ => t.state ≠ .idle) (AachEncoder.step s i) is
  last : (exec AachEncoder.step s (i :: is)).state = .done

/-- The decoder takes the first soft values of a block and is busy with it. -/
structure HuDecoder.Block (s : HuDecoder) (i : HuInput) (is : List HuInput) : Prop where
  idle : s.state = .idle
  start : i.softValid = true
  busy : Along HuDecoder.step (fun t _ => t.state ≠ .idle) (HuDecoder.step s i) is

variable {seed : BitVec 32} {load : ScramblerInput} {js : List ScramblerInput}

/-- What the scrambler xors onto its data is the start of a longer sequence exactly if the seed
passes the checks of as many bits. -/
theorem Scrambler.Run.agrees_iff (h : Scrambler.Run seed load js) (u : Scrambler) {N : Nat}
    (hlen : (Scrambler.dataBits js).length ≤ N) :
    Scrambler.scrambled.outputs u (load :: js) =
        List.zipWith xor (Scrambler.dataBits js) (cellSequence N seed) ↔
      Passes (Scrambler.dataBits js).length seed := by
  rw [Scrambler.scrambled_load u h.loads h.data, h.init,
    zipWith_xor_inj (Scrambler.sequence_length _ _) (by rwa [cellSequence_length]),
    cellSequence_take hlen, sequence_eq_iff]

/-- What `tetra_scrambler` does to its data with a seed is what the mask of `tetra_sch_f_encoder`,
the mask of `tetra_aach_encoder` or the bits that the SCH/HU descrambler goes by would do, exactly
if the seed passes the checks of as many bits. -/
theorem scramblers_agree_iff (h : Scrambler.Run seed load js) (hseed : seed ≠ 0)
    (u : Scrambler) :
    (∀ (s : SchEncoder 268 432) (i : SchInput 268) (is : List (SchInput 268)),
      SchEncoder.Block 103 s i is → i.scrambleInit = seed →
      (Scrambler.dataBits js).length ≤ 432 →
      (Scrambler.scrambled.outputs u (load :: js) = List.zipWith xor (Scrambler.dataBits js)
          (msbBits (exec schFStep s (i :: is)).mask 432) ↔
        Passes (Scrambler.dataBits js).length seed)) ∧
    (∀ (s : AachEncoder) (i : AachInput) (is : List AachInput),
      AachEncoder.Block s i is → AachEncoder.lfsrInit i = seed →
      (Scrambler.dataBits js).length ≤ 30 →
      (Scrambler.scrambled.outputs u (load :: js) = List.zipWith xor (Scrambler.dataBits js)
          (msbBits (exec AachEncoder.step s (i :: is)).mask 30) ↔
        Passes (Scrambler.dataBits js).length seed)) ∧
    (∀ (s : HuDecoder) (i : HuInput) (is : List HuInput),
      HuDecoder.Block s i is → i.scrambInit = seed →
      (Scrambler.dataBits js).length ≤ (exec HuDecoder.step s (i :: is)).seq.lfsrCnt →
      (Scrambler.scrambled.outputs u (load :: js) = List.zipWith xor (Scrambler.dataBits js)
          (exec HuDecoder.step s (i :: is)).seq.bits ↔
        Passes (Scrambler.dataBits js).length seed)) := by
  refine ⟨?_, ?_, ?_⟩
  · rintro s i is hblock rfl hlen
    rw [schFStep, SchEncoder.mask_eq 103 (by decide) hblock.idle hblock.start hblock.busy
      hblock.last]
    exact h.agrees_iff u hlen
  · rintro s i is hblock rfl hlen
    rw [AachEncoder.mask_eq hblock.idle hblock.start hblock.busy hblock.last]
    exact h.agrees_iff u hlen
  · rintro s i is hblock rfl hlen
    have hinit : i.seed = i.scrambInit := if_neg hseed
    rw [HuDecoder.bits_eq hblock.idle hblock.start hblock.busy, hinit]
    exact h.agrees_iff u hlen

/-! One cell: MCC 262, MNC 1010, colour code 1. -/

def cellAach : AachInput := ⟨0, 0, 0, 1, 262, 1010, false, false, 0, true⟩

def cellSeed : BitVec 32 := AachEncoder.lfsrInit cellAach

def cellBlock : SchInput 268 := ⟨true, 0, cellSeed⟩

def cellSoft : HuInput := ⟨cellSeed, 0, 0, true, false, false, false, false, false⟩

theorem cellSeed_ne_zero : cellSeed ≠ 0 := AachEncoder.lfsrInit_ne_zero cellAach

def cellLoad : ScramblerInput := ⟨cellSeed, true, false, false⟩

/-- Thirty data bits. -/
def cellData : List ScramblerInput := List.replicate 30 ⟨0, false, false, true⟩

theorem cellRun : Scrambler.Run cellSeed cellLoad cellData where
  loads := rfl
  init := rfl
  data := by decide

theorem cellBlock_block :
    SchEncoder.Block 103 (SchEncoder.reset 268 432) cellBlock (List.replicate 989 cellBlock) where
  idle := rfl
  start := rfl
  busy := by decide +kernel
  last := by decide +kernel

theorem cellAach_block :
    AachEncoder.Block AachEncoder.reset cellAach (List.replicate 30 cellAach) where
  idle := rfl
  start := rfl
  busy := by decide +kernel
  last := by decide +kernel

theorem cellSoft_block :
    HuDecoder.Block HuDecoder.reset cellSoft (List.replicate 40 cellSoft) where
  idle := rfl
  start := rfl
  busy := by decide +kernel

theorem cellData_length : (Scrambler.dataBits cellData).length = 30 := by decide

theorem cellSoft_count :
    30 ≤ (exec HuDecoder.step HuDecoder.reset (cellSoft :: List.replicate 40 cellSoft)).seq.lfsrCnt := by
  decide +kernel

theorem scramblers_agree_iff_cell :
    (Scrambler.scrambled.outputs Scrambler.reset (cellLoad :: cellData) =
        List.zipWith xor (Scrambler.dataBits cellData) (msbBits (exec schFStep
          (SchEncoder.reset 268 432) (cellBlock :: List.replicate 989 cellBlock)).mask 432) ↔
      Passes (Scrambler.dataBits cellData).length cellSeed) ∧
    (Scrambler.scrambled.outputs Scrambler.reset (cellLoad :: cellData) =
        List.zipWith xor (Scrambler.dataBits cellData) (msbBits (exec AachEncoder.step
          AachEncoder.reset (cellAach :: List.replicate 30 cellAach)).mask 30) ↔
      Passes (Scrambler.dataBits cellData).length cellSeed) ∧
    (Scrambler.scrambled.outputs Scrambler.reset (cellLoad :: cellData) =
        List.zipWith xor (Scrambler.dataBits cellData) (exec HuDecoder.step
          HuDecoder.reset (cellSoft :: List.replicate 40 cellSoft)).seq.bits ↔
      Passes (Scrambler.dataBits cellData).length cellSeed) := by
  have hlen := cellData_length
  refine ⟨?_, ?_, ?_⟩
  · exact (scramblers_agree_iff cellRun cellSeed_ne_zero _).1 _ cellBlock _ cellBlock_block rfl
      (by omega)
  · exact (scramblers_agree_iff cellRun cellSeed_ne_zero _).2.1 _ cellAach _ cellAach_block rfl
      (by omega)
  · exact (scramblers_agree_iff cellRun cellSeed_ne_zero _).2.2 _ cellSoft _ cellSoft_block rfl
      (Nat.le_trans (Nat.le_of_eq hlen) cellSoft_count)

/-- With the seed of this cell the fourth bit is the first to differ. -/
theorem scramblers_differ :
    cellSeed ≠ 0 ∧
    Scrambler.scrambled.outputs Scrambler.reset (cellLoad :: cellData) ≠
        List.zipWith xor (Scrambler.dataBits cellData) (msbBits (exec schFStep
          (SchEncoder.reset 268 432) (cellBlock :: List.replicate 989 cellBlock)).mask 432) ∧
    Scrambler.scrambled.outputs Scrambler.reset (cellLoad :: cellData) ≠
        List.zipWith xor (Scrambler.dataBits cellData) (msbBits (exec AachEncoder.step
          AachEncoder.reset (cellAach :: List.replicate 30 cellAach)).mask 30) ∧
    Scrambler.scrambled.outputs Scrambler.reset (cellLoad :: cellData) ≠
        List.zipWith xor (Scrambler.dataBits cellData) (exec HuDecoder.step
          HuDecoder.reset (cellSoft :: List.replicate 40 cellSoft)).seq.bits := by
  refine ⟨cellSeed_ne_zero, ?_, ?_, ?_⟩
  · decide +kernel
  · decide +kernel
  · decide +kernel

end TetraBs.Lmac

/-! Seeds of `tetra_scrambler`. The register shifts to the right with the mask of the other
direction, whose top bits are zero: a step loses the top bit, and some seeds run empty. -/
namespace TetraBs.Lmac
open TetraBs.Lfsr TetraBs.Run TetraBs.Serial

namespace Scrambler

/-- Each of these registers steps to the next one, and the last one to zero. -/
def fadingChain : List (BitVec 32) :=
  [0x82A5FB41, 0x4593E017, 0x2608EDBC, 0x130476DE, 0x09823B6F]

/-- The seed is a sum of them: 31 seeds, and zero. -/
def Fades (seed : BitVec 32) : Prop :=
  ∃ c < 32, select fadingChain (BitVec.ofNat 5 c) = seed

instance (seed : BitVec 32) : Decidable (Fades seed) :=
  inferInstanceAs (Decidable (∃ c < 32, _))

theorem fades_zero : Fades 0#32 := by decide +kernel

theorem Fades.iterate {seed : BitVec 32} (h : Fades seed) :
    (galStep POLY_MASK)^[5] seed = 0#32 := by
  have hall : ∀ c < 32, (galStep POLY_MASK)^[5] (select fadingChain (BitVec.ofNat 5 c)) = 0#32 := by
    decide +kernel
  obtain ⟨c, hc, rfl⟩ := h
  exact hall c hc

/-- Of the two registers that a step can come from, those that do step there fade too. -/
theorem Fades.back {r : BitVec 32} (h : Fades (galStep POLY_MASK r)) : Fades r := by
  have heven : ∀ c < 32, ∀ y, select fadingChain (BitVec.ofNat 5 c) = y →
      galStep POLY_MASK (y <<< 1) = y → Fades (y <<< 1) := by
    simp only [forall_eq']
    decide +kernel
  have hodd : ∀ c < 32, ∀ y, select fadingChain (BitVec.ofNat 5 c) = y →
      galStep POLY_MASK ((y ^^^ POLY_MASK) <<< 1 ||| 1#32) = y →
        Fades ((y ^^^ POLY_MASK) <<< 1 ||| 1#32) := by
    simp only [forall_eq']
    decide +kernel
  obtain ⟨c, hc, hy⟩ := h
  rcases galStep_from POLY_MASK r with hr | hr
  · rw [hr]
    exact heven c hc _ hy (congrArg (galStep POLY_MASK) hr).symm
  · rw [hr]
    exact hodd c hc _ hy (congrArg (galStep POLY_MASK) hr).symm

theorem dies_iff (seed : BitVec 32) : (∃ n, (galStep POLY_MASK)^[n] seed = 0#32) ↔ Fades seed :=
  iterate_reaches_iff fades_zero (fun _ => Fades.back) fun _ => Fades.iterate

theorem exec_lfsr (s : Scrambler) {js : List ScramblerInput} (h : ∀ j ∈ js, j.loadInit = false) :
    (exec step s js).lfsr = (galStep POLY_MASK)^[(dataBits js).length] s.lfsr := by
  induction js generalizing s with
  | nil => rfl
  | cons j js ih =>
    have hj := h j List.mem_cons_self
    rw [exec, ih _ fun k hk => h k (List.mem_cons_of_mem j hk)]
    cases hv : j.dataValid with
    | false =>
      have hlfsr : (step s j).lfsr = s.lfsr := by simp [step, hj, hv]
      have hdata : dataBits (j :: js) = dataBits js := by simp [dataBits, taken, hv]
      rw [hlfsr, hdata]
    | true =>
      have hlfsr : (step s j).lfsr = galStep POLY_MASK s.lfsr := by simp [step, hj, hv]
      have hdata : dataBits (j :: js) = j.dataIn :: dataBits js := by
        simp [dataBits, taken, hj, hv]
      rw [hlfsr, hdata, List.length_cons, Function.iterate_succ_apply]

variable {seed : BitVec 32} {load load' : ScramblerInput} {js js' : List ScramblerInput}

theorem Run.lfsr_eq (h : Run seed load js) (s : Scrambler) :
    (exec step s (load :: js)).lfsr = (galStep POLY_MASK)^[(dataBits js).length] seed := by
  have hload : (step s load).lfsr = seed := by simp [step, h.loads, h.init]
  rw [exec, exec_lfsr _ h.data, hload]

/-- Cycles that take `n` bits. -/
def idleData (n : Nat) : List ScramblerInput := List.replicate n ⟨0, false, false, true⟩

theorem run_idleData (seed : BitVec 32) (n : Nat) :
    Run seed ⟨seed, true, false, false⟩ (idleData n) where
  loads := rfl
  init := rfl
  data j hj := by rw [List.eq_of_mem_replicate hj]

theorem dataBits_idleData (n : Nat) : (dataBits (idleData n)).length = n := by
  have hall : (idleData n).filter taken = idleData n :=
    List.filter_eq_self.2 fun j hj => by
      rw [List.eq_of_mem_replicate hj]
      rfl
  rw [dataBits, hall, List.length_map, idleData, List.length_replicate]

theorem zipWith_xor_twice {ds vs : List Bool} (h : vs.length = ds.length) :
    List.zipWith xor (List.zipWith xor ds vs) vs = ds := by
  induction ds generalizing vs with
  | nil => rfl
  | cons d ds ih => cases vs with
    | nil => cases h
    | cons v vs =>
      rw [List.zipWith_cons_cons, List.zipWith_cons_cons, ih (Nat.succ.inj h), Bool.xor_assoc,
        Bool.xor_self, Bool.xor_false]

/-- What was scrambled is the data again after a second run with the seed, from whatever states and
with whatever idle cycles. -/
theorem Run.twice (h : Run seed load js) (h' : Run seed load' js') (s s' : Scrambler)
    (hdata : dataBits js' = scrambled.outputs s (load :: js)) :
    scrambled.outputs s' (load' :: js') = dataBits js := by
  rw [scrambled_load s h.loads h.data, h.init] at hdata
  have hlen : (dataBits js').length = (dataBits js).length := by
    rw [hdata, List.length_zipWith, sequence_length, Nat.min_self]
  rw [scrambled_load s' h'.loads h'.data, h'.init, hlen, hdata,
    zipWith_xor_twice (sequence_length _ _)]

/-- A scrambler that serves a seed for ever: its register stays off zero however many bits it
takes, and scrambling twice gives the data back. -/
structure Lasts (seed : BitVec 32) : Prop where
  alive : ∀ (s : Scrambler) (load : ScramblerInput) (js : List ScramblerInput),
    Run seed load js → (exec step s (load :: js)).lfsr ≠ 0#32
  twice : ∀ (s s' : Scrambler) (load load' : ScramblerInput) (js js' : List ScramblerInput),
    Run seed load js → Run seed load' js' → dataBits js' = scrambled.outputs s (load :: js) →
      scrambled.outputs s' (load' :: js') = dataBits js

/-- All seeds but zero and 31 others last. -/
theorem lasts_iff (seed : BitVec 32) : Lasts seed ↔ ¬Fades seed := by
  rw [← dies_iff]
  constructor
  · rintro h ⟨n, hn⟩
    have hrun := run_idleData seed n
    have halive := h.alive reset _ _ hrun
    rw [hrun.lfsr_eq, dataBits_idleData] at halive
    exact halive hn
  · intro h
    refine ⟨fun s load js hrun hzero => h ?_, fun s s' load load' js js' hrun hrun' hdata => ?_⟩
    · rw [hrun.lfsr_eq] at hzero
      exact ⟨_, hzero⟩
    · exact hrun.twice hrun' s s' hdata

/-- One bit, and the register is empty. -/
theorem seed_runs_empty :
    Run 0x09823B6F#32 ⟨0x09823B6F#32, true, false, false⟩ (idleData 1) ∧
      (exec step reset (⟨0x09823B6F#32, true, false, false⟩ :: idleData 1)).lfsr = 0#32 :=
  ⟨run_idleData _ 1, by decide +kernel⟩

end Scrambler
end TetraBs.Lmac
