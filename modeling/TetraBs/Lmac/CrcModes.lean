import TetraBs.Lib.Crc
import TetraBs.Lib.Run
import TetraBs.Lmac.BlockEncoder

/-! `tetra_crc16`, and the register that it holds after an intact block. One step is one rising
clock edge. -/
namespace TetraBs.Lmac
open TetraBs.Bits TetraBs.Crc

structure Crc16 where
  crcOut : BitVec 16
  crcValid : Bool
  crcOk : Bool
deriving DecidableEq

structure Crc16Input where
  init : Bool
  doneIn : Bool
  dataIn : Bool
  dataValid : Bool
deriving DecidableEq

namespace Crc16

def CRC_RESIDUE : BitVec 16 := 0x1D0F

def reset : Crc16 := ⟨0xFFFF, false, false⟩

def step (s : Crc16) (i : Crc16Input) : Crc16 where
  crcOut :=
    if i.init then 0xFFFF else if i.dataValid then crcNext i.dataIn s.crcOut else s.crcOut
  crcValid := i.doneIn
  crcOk :=
    i.doneIn && (if i.dataValid then crcNext i.dataIn s.crcOut else s.crcOut) = CRC_RESIDUE

/-- The register after the bits of a block. -/
def run (bits : List Bool) : BitVec 16 := bits.foldl (fun crc b => crcNext b crc) 0xFFFF

theorem run_snoc (bits : List Bool) (b : Bool) : run (bits ++ [b]) = crcNext b (run bits) := by
  rw [run, List.foldl_concat]
  rfl

/-- The same register seen from the other end. -/
theorem reverse_crcNext (b : Bool) (crc : BitVec 16) :
    (crcNext b crc).reverse = feed 0x8408 crc.reverse b := by
  have htop : crc.reverse.getLsbD 0 = crc.getLsbD 15 := by
    rw [BitVec.getLsbD_reverse]
    rfl
  have hshift : ∀ j, crc.reverse.getLsbD (1 + j) =
      (decide (j < 15) && crc.getLsbD (14 - j)) := by
    intro j
    rw [BitVec.getLsbD_reverse, BitVec.getMsbD]
    by_cases hj : j < 15
    · simp [hj, (by omega : 1 + j < 16), (by omega : 16 - 1 - (1 + j) = 14 - j)]
    · rw [decide_eq_false (by omega : ¬1 + j < 16), decide_eq_false hj, Bool.false_and,
        Bool.false_and]
  have hpoly : ∀ j < 16, (0x1021#16).getLsbD (15 - j) = (0x8408#16).getLsbD j := by decide
  rw [crcNext, feed, htop]
  refine BitVec.eq_of_getLsbD_eq fun j hj => ?_
  rw [BitVec.getLsbD_reverse, BitVec.getMsbD, (by omega : 16 - 1 - j = 15 - j)]
  have hlow : (crc <<< 1).getLsbD (15 - j) = (decide (j < 15) && crc.getLsbD (14 - j)) := by
    rw [BitVec.getLsbD_shiftLeft]
    by_cases hlt : j < 15
    · rw [decide_eq_true (by omega : 15 - j < 16), decide_eq_false (by omega : ¬15 - j < 1),
        decide_eq_true hlt, (by omega : 15 - j - 1 = 14 - j)]
      rfl
    · simp [hlt, (by omega : 15 - j < 1)]
  have hbit := hpoly j hj
  rw [BitVec.getLsbD_xor, hlow]
  cases b <;> cases crc.getLsbD 15 <;> simp [hshift, hj, hbit]

theorem reverse_run (bits : List Bool) :
    (run bits).reverse = Crc.run 0x8408 (BitVec.allOnes 16) bits := by
  have hall : ∀ crc : BitVec 16, (bits.foldl (fun crc b => crcNext b crc) crc).reverse =
      Crc.run 0x8408 crc.reverse bits := by
    induction bits with
    | nil => exact fun _ => rfl
    | cons b bits ih =>
      intro crc
      rw [List.foldl_cons, ih, reverse_crcNext]
      rfl
  exact hall 0xFFFF

/-- The bits of a block and its check bits: the inverted register, highest bit first. -/
def checked (bits : List Bool) : List Bool := bits ++ msbBits (~~~run bits) 16

theorem run_checked (bits : List Bool) : run (checked bits) = CRC_RESIDUE := by
  have hres : Crc.residue (0x8408 : BitVec 16) = CRC_RESIDUE.reverse := by decide +kernel
  have hnot : (~~~run bits).reverse = ~~~(run bits).reverse := by
    refine BitVec.eq_of_getLsbD_eq fun j hj => ?_
    rw [BitVec.getLsbD_reverse, BitVec.getLsbD_not, BitVec.getLsbD_reverse, BitVec.getMsbD_not]
  have hcrc : (~~~run bits).reverse = Crc.crc 0x8408 bits := by
    rw [hnot, reverse_run, Crc.crc]
  have hrun := (run_eq_residue_iff (by decide) bits _).2 hcrc
  rw [← msbBits_eq_lsbBits_reverse, ← checked, ← reverse_run, hres] at hrun
  rw [← BitVec.reverse_reverse_eq (x := run (checked bits)), hrun, BitVec.reverse_reverse_eq]

end Crc16
end TetraBs.Lmac

/-! The two modes of `tetra_crc16` against each other: what one presents as check bits, what the
other accepts, and the error bursts that it refuses. -/
namespace TetraBs.Lmac
open TetraBs.Bits TetraBs.Crc TetraBs.Run

namespace Crc16

/-- The data bits of a run of cycles. -/
def strobed (is : List Crc16Input) : List Bool := (is.filter (·.dataValid)).map (·.dataIn)

/-- One cycle of `init_sys`, then the bits, some cycles apart or not, with `done_in_sys` in the
last cycle: on the last bit, or after it. -/
structure Session (bits : List Bool) (is : List Crc16Input) : Prop where
  init : ∃ i rest, is = i :: rest ∧ i.init = true ∧ ∀ j ∈ rest, j.init = false
  carries : strobed is.tail = bits
  done : ∃ before i, is = before ++ [i] ∧ i.doneIn = true ∧ ∀ j ∈ before, j.doneIn = false

def play (s : Crc16) (is : List Crc16Input) : Crc16 := exec step s is

theorem exec_crcOut (s : Crc16) {is : List Crc16Input} (h : ∀ i ∈ is, i.init = false) :
    (exec step s is).crcOut = (strobed is).foldl (fun crc b => crcNext b crc) s.crcOut := by
  induction is generalizing s with
  | nil => rfl
  | cons i is ih =>
    have hi := h i List.mem_cons_self
    rw [exec, ih _ fun j hj => h j (List.mem_cons_of_mem _ hj)]
    cases hv : i.dataValid with
    | true => simp [step, hi, hv, strobed]
    | false => simp [step, hi, hv, strobed]

/-- The flag is about the register as it is shown with it. -/
theorem step_crcOk (s : Crc16) {i : Crc16Input} (hinit : i.init = false) :
    (step s i).crcOk = (i.doneIn && (step s i).crcOut = CRC_RESIDUE) := by
  simp [step, hinit]

variable {bits : List Bool} {is : List Crc16Input}

theorem Session.crcOut (h : Session bits is) (s : Crc16) : (play s is).crcOut = run bits := by
  obtain ⟨i, rest, his, hi, hrest⟩ := h.init
  have hbits := h.carries
  have hstart : (step s i).crcOut = 0xFFFF := if_pos hi
  rw [his, List.tail_cons] at hbits
  rw [play, his, exec, exec_crcOut _ hrest, hstart, hbits, run]

theorem Session.crcValid (h : Session bits is) (s : Crc16) : (play s is).crcValid = true := by
  obtain ⟨before, i, his, hdone, -⟩ := h.done
  rw [play, his, exec_snoc]
  exact hdone

theorem Session.crcOk (h : Session bits is) (hne : bits ≠ []) (s : Crc16) :
    (play s is).crcOk = decide (run bits = CRC_RESIDUE) := by
  obtain ⟨before, i, his, hdone, -⟩ := h.done
  obtain ⟨i', rest, his', -, hrest⟩ := h.init
  have hlast : i.init = false := by
    cases before with
    | nil =>
      have htail : is.tail = [] := by rw [his]; rfl
      have hbits := h.carries
      rw [htail] at hbits
      exact absurd hbits.symm hne
    | cons b before =>
      rw [his, List.cons_append] at his'
      obtain ⟨-, htail⟩ := List.cons.inj his'
      exact hrest i (htail ▸ List.mem_append_right _ List.mem_cons_self)
  have hout := h.crcOut s
  rw [play, his, exec_snoc] at hout ⊢
  rw [step_crcOk _ hlast, hout, hdone, Bool.true_and]

/-- The register runs empty on its own bits. -/
theorem run_append_own (bits : List Bool) : run (bits ++ msbBits (run bits) 16) = 0 := by
  have hown : (run (bits ++ msbBits (run bits) 16)).reverse = 0 := by
    rw [reverse_run, run_append, ← reverse_run, msbBits_eq_lsbBits_reverse, run_lsbBits]
  rw [← BitVec.reverse_reverse_eq (x := run (bits ++ msbBits (run bits) 16)), hown]
  decide

/-- What the receiver would take: the register inverted. -/
theorem Session.accepts (h : Session (checked bits) is) (s : Crc16) :
    (play s is).crcOk = true := by
  have hne : checked bits ≠ [] := by
    intro hnil
    have hlen := congrArg List.length hnil
    rw [checked, List.length_append, msbBits_length] at hlen
    exact absurd hlen (Nat.succ_ne_zero _)
  rw [h.crcOk hne, run_checked]
  exact decide_eq_true rfl

/-- Whatever the message and the spacing, the receiver refuses the bits that the transmitter
presents: it presents the register itself, not the register inverted. -/
theorem modes_disagree {bits : List Bool} {tx rx : List Crc16Input} (s s' : Crc16)
    (htx : Session bits tx) (hrx : Session (bits ++ msbBits (play s tx).crcOut 16) rx) :
    (play s tx).crcValid = true ∧ (play s' rx).crcValid = true ∧
      (play s' rx).crcOk = false := by
  have hout := htx.crcOut s
  have hne : bits ++ msbBits (play s tx).crcOut 16 ≠ [] := by
    intro hnil
    have hlen := congrArg List.length hnil
    rw [List.length_append, msbBits_length] at hlen
    exact absurd hlen (Nat.succ_ne_zero _)
  have hzero : run (bits ++ msbBits (play s tx).crcOut 16) = 0 := by
    rw [hout, run_append_own]
  have hresidue : (0 : BitVec 16) ≠ CRC_RESIDUE := by decide
  refine ⟨htx.crcValid s, hrx.crcValid s', ?_⟩
  rw [hrx.crcOk hne, hzero]
  exact decide_eq_false hresidue

/-- The bits back to back, and `done_in_sys` in the cycle after the last one. -/
def doneAfter (bits : List Bool) : List Crc16Input :=
  ⟨true, false, false, false⟩ :: (bits.map fun b => ⟨false, false, b, true⟩) ++
    [⟨false, true, false, false⟩]

theorem strobed_map (bits : List Bool) :
    strobed (bits.map fun b => (⟨false, false, b, true⟩ : Crc16Input)) = bits := by
  induction bits with
  | nil => rfl
  | cons b bits ih =>
    rw [strobed] at ih ⊢
    rw [List.map_cons, List.filter_cons_of_pos rfl, List.map_cons, ih]

/-- Every message has a session. -/
theorem session_doneAfter (bits : List Bool) : Session bits (doneAfter bits) := by
  refine ⟨⟨_, _, rfl, rfl, ?_⟩, ?_, ⟨_, _, rfl, rfl, ?_⟩⟩
  · intro j hj
    rw [List.append_eq, List.mem_append, List.mem_map, List.mem_singleton] at hj
    rcases hj with ⟨b, -, rfl⟩ | rfl
    · rfl
    · rfl
  · have hcut : (doneAfter bits).tail =
        (bits.map fun b => (⟨false, false, b, true⟩ : Crc16Input)) ++
          [⟨false, true, false, false⟩] := rfl
    have happend : strobed ((doneAfter bits).tail) =
        strobed (bits.map fun b => (⟨false, false, b, true⟩ : Crc16Input)) := by
      rw [hcut, strobed, List.filter_append]
      simp [strobed]
    rw [happend, strobed_map]
  · intro j hj
    rw [List.mem_cons, List.mem_map] at hj
    rcases hj with rfl | ⟨b, -, rfl⟩
    · rfl
    · rfl

/-- One bit, with `done_in_sys` on it. -/
def doneOn : List Crc16Input := [⟨true, false, false, false⟩, ⟨false, true, true, true⟩]

theorem session_doneOn : Session [true] doneOn := by
  refine ⟨⟨_, _, rfl, rfl, ?_⟩, rfl, ⟨[⟨true, false, false, false⟩], _, rfl, rfl, ?_⟩⟩
  · intro j hj
    rw [List.mem_singleton.1 hj]
  · intro j hj
    rw [List.mem_singleton.1 hj]

theorem modes_disagree_one_bit :
    (play reset doneOn).crcValid = true ∧
      (play reset (doneAfter ([true] ++ msbBits (play reset doneOn).crcOut 16))).crcValid = true ∧
      (play reset (doneAfter ([true] ++ msbBits (play reset doneOn).crcOut 16))).crcOk = false :=
  modes_disagree reset reset session_doneOn (session_doneAfter _)

theorem one_bit_refused :
    Session [true] doneOn ∧
      Session ([true] ++ msbBits (play reset doneOn).crcOut 16)
        (doneAfter ([true] ++ msbBits (play reset doneOn).crcOut 16)) ∧
      (play (play reset doneOn)
        (doneAfter ([true] ++ msbBits (play reset doneOn).crcOut 16))).crcOk ≠ true := by
  refine ⟨session_doneOn, session_doneAfter _, ?_⟩
  decide

/-! Error bursts. -/

/-- The register after flipped bits is off by what the flips leave in an empty one. -/
theorem reverse_run_flip {bits e : List Bool} (hlen : e.length = bits.length) :
    (run (List.zipWith (· ^^ ·) bits e)).reverse = (run bits).reverse ^^^ Crc.run 0x8408 0 e := by
  have hflip := run_flip (0x8408 : BitVec 16) (BitVec.allOnes 16) 0 hlen
  have hpreset : BitVec.allOnes 16 ^^^ 0 = BitVec.allOnes 16 := BitVec.xor_zero
  rw [hpreset] at hflip
  rw [reverse_run, reverse_run, hflip]

/-- A burst no longer than the register moves it. -/
theorem run_flip_ne {bits e : List Bool} (hlen : e.length = bits.length) (hburst : Burst 16 e)
    (hne : true ∈ e) : run (List.zipWith (· ^^ ·) bits e) ≠ run bits := by
  intro hsame
  have htop : (0x8408 : BitVec 16).getLsbD (16 - 1) = true := by decide
  have hoff := reverse_run_flip hlen
  rw [hsame] at hoff
  have hzero := congrArg ((run bits).reverse ^^^ ·) hoff
  simp only [← BitVec.xor_assoc, BitVec.xor_self, BitVec.zero_xor] at hzero
  exact hburst.run_ne_zero htop hne hzero.symm

/-- Of two bit strings that differ in a burst of at most 16 bits the receiver takes at most one,
in whatever sessions they come. -/
theorem bursts_refused {bits e : List Bool} {is js : List Crc16Input} (s s' : Crc16)
    (his : Session bits is) (hok : (play s is).crcOk = true) (hlen : e.length = bits.length)
    (hburst : Burst 16 e) (hne : true ∈ e) (hjs : Session (List.zipWith (· ^^ ·) bits e) js) :
    (play s' js).crcValid = true ∧ (play s' js).crcOk = false := by
  have hbits : bits ≠ [] := by
    intro hnil
    rw [hnil] at hlen
    rw [List.length_eq_zero_iff.1 hlen] at hne
    cases hne
  have hflipped : List.zipWith (· ^^ ·) bits e ≠ [] := by
    intro hnil
    have hzero := congrArg List.length hnil
    rw [List.length_zipWith, hlen, Nat.min_self] at hzero
    exact hbits (List.length_eq_zero_iff.1 hzero)
  have hmoved := run_flip_ne hlen hburst hne
  rw [his.crcOk hbits, decide_eq_true_eq] at hok
  rw [hok] at hmoved
  refine ⟨hjs.crcValid s', ?_⟩
  rw [hjs.crcOk hflipped]
  exact decide_eq_false hmoved

/-- The check bits of the one-bit message 1, and sixteen of the seventeen bits flipped. -/
theorem bursts_refused_one_bit :
    (play reset (doneAfter (List.zipWith (· ^^ ·) (checked [true])
        (List.replicate 16 true ++ [false])))).crcValid = true ∧
      (play reset (doneAfter (List.zipWith (· ^^ ·) (checked [true])
        (List.replicate 16 true ++ [false])))).crcOk = false :=
  bursts_refused (e := List.replicate 16 true ++ [false]) reset reset
    (session_doneAfter (checked [true])) ((session_doneAfter (checked [true])).accepts reset)
    (by decide) ⟨0, List.replicate 16 true, 1, rfl, by decide⟩ (by decide) (session_doneAfter _)

end Crc16
end TetraBs.Lmac
