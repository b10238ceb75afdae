import TetraBs.Lib.Lfsr
import TetraBs.Lib.Serializer

/-! The standalone scrambler `tetra_scrambler`. One step is one rising clock edge. -/
namespace TetraBs.Lmac
open TetraBs.Lfsr TetraBs.Serial

structure ScramblerInput where
  lfsrInit : BitVec 32
  loadInit : Bool
  dataIn : Bool
  dataValid : Bool
deriving DecidableEq

structure Scrambler where
  lfsr : BitVec 32
  dataOut : Bool
  dataOutValid : Bool
deriving DecidableEq

namespace Scrambler

def reset : Scrambler := ⟨0xFFFFFFFF, false, false⟩

def POLY_MASK : BitVec 32 := 0x04C11DB7

def lfsrOut (s : Scrambler) : Bool := s.lfsr.getLsbD 0

/-- The edge takes a data bit. -/
def taken (i : ScramblerInput) : Bool := i.dataValid && !i.loadInit

def step (s : Scrambler) (i : ScramblerInput) : Scrambler where
  lfsr :=
    if i.loadInit then i.lfsrInit
    else if i.dataValid then galStep POLY_MASK s.lfsr
    else s.lfsr
  dataOut := if taken i then i.dataIn ^^ lfsrOut s else s.dataOut
  dataOutValid := taken i

/-- The bits that come out. -/
def scrambled : Reader Scrambler ScramblerInput Bool :=
  ⟨step, fun s i => if (step s i).dataOutValid then [(step s i).dataOut] else []⟩

/-- The bits that go in. -/
def dataBits (is : List ScramblerInput) : List Bool := (is.filter taken).map (·.dataIn)

/-- The scrambling sequence of a seed. -/
def sequence (n : Nat) (seed : BitVec 32) : List Bool :=
  stream (galStep POLY_MASK) (fun r => r.getLsbD 0) n seed

theorem sequence_length (n : Nat) (seed : BitVec 32) : (sequence n seed).length = n :=
  stream_length _ _ n seed

theorem scrambled_run (s : Scrambler) {is : List ScramblerInput}
    (hload : ∀ i ∈ is, i.loadInit = false) :
    scrambled.outputs s is =
      List.zipWith xor (dataBits is) (sequence (dataBits is).length s.lfsr) := by
  induction is generalizing s with
  | nil => rfl
  | cons i is ih =>
    have hi := hload i List.mem_cons_self
    have hrest := ih (step s i) fun j hj => hload j (List.mem_cons_of_mem i hj)
    have hnext : scrambled.next s i = step s i := rfl
    rw [Reader.outputs, hnext, hrest]
    cases hv : i.dataValid with
    | false =>
      have hlfsr : (step s i).lfsr = s.lfsr := by simp [step, hi, hv]
      have hdata : dataBits (i :: is) = dataBits is := by simp [dataBits, taken, hv]
      have hout : scrambled.out s i = [] := by simp [scrambled, step, taken, hv]
      rw [hout, hlfsr, hdata, List.nil_append]
    | true =>
      have hlfsr : (step s i).lfsr = galStep POLY_MASK s.lfsr := by simp [step, hi, hv]
      have hdata : dataBits (i :: is) = i.dataIn :: dataBits is := by
        simp [dataBits, taken, hi, hv]
      have hout : scrambled.out s i = [i.dataIn ^^ lfsrOut s] := by
        simp [scrambled, step, taken, hi, hv]
      rw [hout, hlfsr, hdata, List.length_cons]
      rfl

/-- From any state, a load and then data. -/
theorem scrambled_load (s : Scrambler) {load : ScramblerInput} {is : List ScramblerInput}
    (hinit : load.loadInit = true) (hload : ∀ i ∈ is, i.loadInit = false) :
    scrambled.outputs s (load :: is) =
      List.zipWith xor (dataBits is) (sequence (dataBits is).length load.lfsrInit) := by
  have hout : scrambled.out s load = [] := by simp [scrambled, step, taken, hinit]
  have hlfsr : (step s load).lfsr = load.lfsrInit := by simp [step, hinit]
  have hnext : scrambled.next s load = step s load := rfl
  rw [Reader.outputs, hout, hnext, List.nil_append, scrambled_run _ hload, hlfsr]

end Scrambler

end TetraBs.Lmac
