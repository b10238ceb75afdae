import TetraBs.Lmac.SchHuRuns
import TetraBs.Lmac.SchHuUnit
import Mathlib.Data.List.Induction

/-! The reference encoding of the SCH/HU, and how clear the soft values must be for the Viterbi
decoder to find the block. -/
namespace TetraBs.Lmac.SchHu
open TetraBs.Bits TetraBs.BitRegister TetraBs.Crc TetraBs.ConvCode TetraBs.MulPerm TetraBs.Viterbi

/-! The encoding. -/

/-- The generators of the mother code, as places back. -/
def genTaps (g : Nat) : List Nat :=
  match g with
  | 0 => [0, 1, 4]
  | 1 => [0, 2, 3, 4]
  | 2 => [0, 1, 2, 4]
  | _ => [0, 1, 3, 4]

/-- The first `t` bits, newest first. -/
def hist (bits : List Bool) (t : Nat) : List Bool := (bits.take t).reverse

def motherBit (bits : List Bool) (t g : Nat) : Bool := tapSum (genTaps g) (hist bits (t + 1))

/-- The transmitted bits of stage `t`. -/
def stage (bits : List Bool) (t : Nat) : List Bool :=
  ((List.range 4).filter (HuUnit.kept t)).map (motherBit bits t)

def punctured (bits : List Bool) : List Bool := (List.range bits.length).flatMap (stage bits)

/-- The information bits, the check bits and the tail. -/
def typeTwo (info : BitVec 92) : List Bool :=
  Crc16.checked (lsbBits info) ++ List.replicate UlViterbi.TAIL false

def coded (info : BitVec 92) : List Bool := punctured (typeTwo info)

/-- The bits in the air. -/
def reference (info : BitVec 92) (seed : BitVec 32) : List Bool :=
  List.zipWith xor (spread HuDecoder.DEINT_A false (coded info)) (cellSequence N_TX seed)

variable {bits : List Bool} {t g : Nat}

theorem hist_succ (ht : t < bits.length) :
    hist bits (t + 1) = bits.getD t false :: hist bits t := by
  rw [hist, List.take_add_one, List.getElem?_eq_getElem ht, List.reverse_append,
    List.getD_eq_getElem _ _ ht]
  rfl

theorem filter_kept (t : Nat) :
    (List.range 4).filter (HuUnit.kept t) = if t % 2 = 0 then [0, 1] else [0] := by
  have hkept : HuUnit.kept t = HuUnit.kept (t % 2) := by
    funext g
    rw [HuUnit.kept, HuUnit.kept, Nat.mod_mod]
  rw [hkept]
  rcases Nat.mod_two_eq_zero_or_one t with h | h <;> rw [h] <;> decide

theorem stage_eq (bits : List Bool) (t : Nat) : stage bits t =
    if t % 2 = 0 then [motherBit bits t 0, motherBit bits t 1] else [motherBit bits t 0] := by
  rw [stage, filter_kept]
  split <;> rfl

theorem stages_length (bits : List Bool) (n : Nat) :
    ((List.range n).flatMap (stage bits)).length = HuUnit.keptIdx n 0 := by
  induction n with
  | zero => rfl
  | succ n ih =>
    rw [List.range_succ, List.flatMap_append, List.length_append, ih, List.flatMap_singleton,
      stage_eq]
    rcases Nat.mod_two_eq_zero_or_one n with h | h
    · rw [if_pos h]
      simp [HuUnit.keptIdx, h, Nat.add_mod]
      omega
    · rw [if_neg (by omega)]
      simp [HuUnit.keptIdx, h, Nat.add_mod]
      omega

/-- Where a transmitted bit stands. -/
theorem punctured_get (ht : t < bits.length) (hg : g < 4) (hk : HuUnit.kept t g = true) :
    (punctured bits).getD (HuUnit.keptIdx t g) false = motherBit bits t g := by
  have hsplit : List.range bits.length =
      List.range t ++ t :: List.range' (t + 1) (bits.length - t - 1) := by
    have hcut : List.range' 0 t ++ List.range' (0 + t) (bits.length - t) =
        List.range' 0 (t + (bits.length - t)) := List.range'_append_1
    rw [Nat.zero_add, (by omega : t + (bits.length - t) = bits.length)] at hcut
    rw [List.range_eq_range', ← hcut, List.range_eq_range']
    congr 1
    rw [← List.range'_succ]
    congr 1
    omega
  have hlen := stages_length bits t
  have hidx : HuUnit.keptIdx t g = HuUnit.keptIdx t 0 + g ∧ g < (stage bits t).length ∧
      (stage bits t).getD g false = motherBit bits t g := by
    rw [stage_eq]
    rcases Nat.mod_two_eq_zero_or_one t with h | h
    · rw [if_pos h]
      rcases (by omega : g = 0 ∨ g = 1 ∨ g = 2 ∨ g = 3) with rfl | rfl | rfl | rfl <;>
        simp [HuUnit.keptIdx, HuUnit.kept, h] at hk ⊢
    · rw [if_neg (by omega)]
      rcases (by omega : g = 0 ∨ g = 1 ∨ g = 2 ∨ g = 3) with rfl | rfl | rfl | rfl <;>
        simp [HuUnit.keptIdx, HuUnit.kept, h] at hk ⊢
  obtain ⟨hat, hin, hbit⟩ := hidx
  rw [punctured, hsplit, List.flatMap_append, List.flatMap_cons, hat,
    List.getD_append_right _ _ _ _ (by omega), hlen, Nat.add_sub_cancel_left,
    List.getD_append _ _ _ _ hin, hbit]

theorem stage_append (h : t < bits.length) (bits' : List Bool) :
    stage (bits ++ bits') t = stage bits t := by
  have hhist : hist (bits ++ bits') (t + 1) = hist bits (t + 1) := by
    rw [hist, hist, List.take_append_of_le_length h]
  have hbit : motherBit (bits ++ bits') t = motherBit bits t := by
    funext g
    rw [motherBit, motherBit, hhist]
  rw [stage, stage, hbit]

/-- The code is that of the encoders of the other signalling channels. -/
theorem punctured_eq_encode (bits : List Bool) :
    punctured bits = encode ConvStage.g1Taps ConvStage.g2Taps [] bits := by
  induction bits using List.reverseRecOn with
  | nil => rfl
  | append_singleton bits b ih =>
    have hold : (List.range bits.length).flatMap (stage (bits ++ [b])) = punctured bits :=
      List.flatMap_congr fun t ht => stage_append (List.mem_range.1 ht) [b]
    have hhist : hist (bits ++ [b]) (bits.length + 1) = b :: bits.reverse := by
      rw [hist, List.take_of_length_le (by simp), List.reverse_append]
      rfl
    have hnew : stage (bits ++ [b]) bits.length =
        emit ConvStage.g1Taps ConvStage.g2Taps bits.reverse b := by
      rw [stage_eq, emit, motherBit, motherBit, hhist, List.length_reverse]
      rfl
    rw [encode_append, ← ih, punctured, List.length_append, List.length_singleton,
      List.range_succ, List.flatMap_append, hold, List.flatMap_singleton, hnew, List.append_nil]
    simp [encode]

theorem typeTwo_length (info : BitVec 92) : (typeTwo info).length = UlViterbi.NUM_STAGES := by
  rw [typeTwo, Crc16.checked, List.length_append, List.length_append, lsbBits_length,
    msbBits_length, List.length_replicate]
  rfl

theorem coded_length (info : BitVec 92) : (coded info).length = N_TX := by
  rw [coded, punctured, stages_length, typeTwo_length]
  rfl

/-! The block as a path through the trellis. -/

/-- The last four bits; bit 0 is the newest. -/
def pathState (bits : List Bool) (t : Nat) : BitVec 4 := written 4 fun d => (hist bits t).getD d false

theorem pathState_zero (bits : List Bool) : pathState bits 0 = 0#4 :=
  (eq_written fun _ _ => BitVec.getLsbD_zero).symm

/-- The bit that stage `t` shifts out. -/
def shifted (bits : List Bool) (t : Nat) : Bool := (hist bits t).getD 3 false

theorem prevState_bit (s : BitVec 4) (b : Bool) {d : Nat} (hd : d < 4) :
    (UlViterbi.prevState s b).getLsbD d = if d = 3 then b else s.getLsbD (d + 1) := by
  rw [UlViterbi.prevState, BitVec.getLsbD_append]
  by_cases h3 : d = 3
  · subst h3
    simp
  · have hlt : d < 3 := by omega
    rw [if_neg h3, if_pos hlt, BitVec.getLsbD_extractLsb', decide_eq_true hlt, Bool.true_and,
      Nat.add_comm]

theorem prevState_path (ht : t < bits.length) :
    UlViterbi.prevState (pathState bits (t + 1)) (shifted bits t) = pathState bits t := by
  refine eq_written fun d hd => ?_
  rw [prevState_bit _ _ hd]
  by_cases h3 : d = 3
  · rw [if_pos h3, h3, shifted]
  · rw [if_neg h3, pathState, getLsbD_written _ (by omega), hist_succ ht]
    rfl

theorem prevState_xor (s s' : BitVec 4) (b b' : Bool) :
    UlViterbi.prevState (s ^^^ s') (b ^^ b') =
      UlViterbi.prevState s b ^^^ UlViterbi.prevState s' b' := by
  refine BitVec.eq_of_getLsbD_eq fun d hd => ?_
  rw [BitVec.getLsbD_xor, prevState_bit _ _ hd, prevState_bit _ _ hd, prevState_bit _ _ hd]
  split
  · rfl
  · exact BitVec.getLsbD_xor

theorem gP0_xor (s s' : BitVec 4) (g : Nat) :
    UlViterbi.gP0 g (s ^^^ s') = (UlViterbi.gP0 g s ^^ UlViterbi.gP0 g s') := by
  simp only [UlViterbi.gP0]
  split <;> simp only [BitVec.getLsbD_xor, Bool.xor_assoc, Bool.xor_left_comm]

/-- The bits that the encoder puts out on the path. -/
theorem gP0_path (ht : t < bits.length) (hg : g < 4) :
    (UlViterbi.gP0 g (pathState bits (t + 1)) ^^ shifted bits t) = motherBit bits t g := by
  have hbit : ∀ d < 4, (pathState bits (t + 1)).getLsbD d = (hist bits (t + 1)).getD d false :=
    fun d hd => getLsbD_written _ hd
  have hlast : shifted bits t = (hist bits (t + 1)).getD 4 false := by
    rw [hist_succ ht]
    rfl
  rw [hlast]
  rcases (by omega : g = 0 ∨ g = 1 ∨ g = 2 ∨ g = 3) with rfl | rfl | rfl | rfl <;>
    simp only [UlViterbi.gP0, motherBit, genTaps, tapSum, List.foldr_cons, List.foldr_nil,
      hbit 0 (by decide), hbit 1 (by decide), hbit 2 (by decide), hbit 3 (by decide),
      Bool.xor_false, Bool.xor_assoc]

/-! The costs of an edge. -/

theorem softCost_not (x : BitVec 5) (b : Bool) :
    UlViterbi.softCost x (!b) = UlViterbi.SOFT_MAX - UlViterbi.softCost x b := by
  have hle : x.toNat ≤ UlViterbi.SOFT_MAX := Nat.le_of_lt_succ x.isLt
  cases b with
  | false => rfl
  | true => exact (Nat.sub_sub_self hle).symm

theorem softCost_le (x : BitVec 5) (b : Bool) : UlViterbi.softCost x b ≤ UlViterbi.SOFT_MAX := by
  have hle : x.toNat ≤ UlViterbi.SOFT_MAX := Nat.le_of_lt_succ x.isLt
  cases b with
  | false => exact hle
  | true => exact Nat.sub_le _ _

/-- The metric of an edge is the sum over its four bits. -/
theorem bm_eq (soft : Nat → BitVec 5) (s : BitVec 4) (b : Bool) : UlViterbi.bm soft s b =
    UlViterbi.softCost (soft 0) (UlViterbi.gP0 0 s ^^ b) +
      UlViterbi.softCost (soft 1) (UlViterbi.gP0 1 s ^^ b) +
      UlViterbi.softCost (soft 2) (UlViterbi.gP0 2 s ^^ b) +
      UlViterbi.softCost (soft 3) (UlViterbi.gP0 3 s ^^ b) := by
  cases b with
  | false => simp only [UlViterbi.bm, UlViterbi.bm0, Bool.xor_false, Bool.false_eq_true, if_false]
  | true =>
    have h0 := softCost_le (soft 0) (UlViterbi.gP0 0 s)
    have h1 := softCost_le (soft 1) (UlViterbi.gP0 1 s)
    have h2 := softCost_le (soft 2) (UlViterbi.gP0 2 s)
    have h3 := softCost_le (soft 3) (UlViterbi.gP0 3 s)
    simp only [UlViterbi.bm, UlViterbi.bm0, Bool.xor_true, if_true, softCost_not,
      UlViterbi.BM_MAX]
    omega

theorem bm_le (soft : Nat → BitVec 5) (s : BitVec 4) (b : Bool) :
    UlViterbi.bm soft s b ≤ UlViterbi.BM_MAX := by
  have h0 := softCost_le (soft 0) (UlViterbi.gP0 0 s ^^ b)
  have h1 := softCost_le (soft 1) (UlViterbi.gP0 1 s ^^ b)
  have h2 := softCost_le (soft 2) (UlViterbi.gP0 2 s ^^ b)
  have h3 := softCost_le (soft 3) (UlViterbi.gP0 3 s ^^ b)
  rw [bm_eq, UlViterbi.BM_MAX]
  omega

/-- The soft values speak clearly for the bits: a wrong one costs 9 more at least. -/
structure Clear (bits : List Bool) (soft : Nat → Nat → BitVec 5) : Prop where
  zero : ∀ t < bits.length, ∀ g < 4, HuUnit.kept t g = true → motherBit bits t g = false →
    (soft t g).toNat ≤ 11
  one : ∀ t < bits.length, ∀ g < 4, HuUnit.kept t g = true → motherBit bits t g = true →
    20 ≤ (soft t g).toNat
  erased : ∀ t < bits.length, ∀ g < 4, HuUnit.kept t g = false → soft t g = HuDecoder.VIT_CENTER

/-- What bit `g` of an edge costs more at least, for an error of `e` in the new state and of `b` in
the bit shifted out. -/
def gain (t : Nat) (e : BitVec 4) (b : Bool) (g : Nat) : Nat :=
  if (UlViterbi.gP0 g e ^^ b) && HuUnit.kept t g then 9 else 0

/-- What it costs less at most: an erasure is no exact middle. -/
def loss (t : Nat) (e : BitVec 4) (b : Bool) (g : Nat) : Nat :=
  if (UlViterbi.gP0 g e ^^ b) && !HuUnit.kept t g then 1 else 0

theorem Clear.bit {soft : Nat → Nat → BitVec 5} (h : Clear bits soft) (ht : t < bits.length)
    (hg : g < 4) (e : BitVec 4) (b : Bool) :
    UlViterbi.softCost (soft t g) (motherBit bits t g) + gain t e b g ≤
      UlViterbi.softCost (soft t g) (motherBit bits t g ^^ (UlViterbi.gP0 g e ^^ b)) +
        loss t e b g := by
  have hle : (soft t g).toNat ≤ 31 := Nat.le_of_lt_succ (soft t g).isLt
  rw [gain, loss]
  cases UlViterbi.gP0 g e ^^ b with
  | false => simp
  | true =>
    cases hk : HuUnit.kept t g with
    | false =>
      rw [h.erased t ht g hg hk]
      cases motherBit bits t g <;> decide
    | true =>
      cases hm : motherBit bits t g with
      | false =>
        have hzero := h.zero t ht g hg hk hm
        simp [UlViterbi.softCost, UlViterbi.SOFT_MAX]
        omega
      | true =>
        have hone := h.one t ht g hg hk hm
        simp [UlViterbi.softCost, UlViterbi.SOFT_MAX]
        omega

/-- A lower bound for what an error of `e` in the state has cost before stage `t`. -/
def pot (t : Nat) (e : BitVec 4) : Nat :=
  (if t % 2 = 0 then [0, 6, 18, 15, 11, 13, 11, 13, 17, 7, 14, 21, 18, 16, 17, 11]
    else [0, 16, 13, 14, 22, 22, 20, 14, 19, 19, 15, 12, 9, 15, 18, 20]).getD e.toNat 0

theorem pot_edge_parity : ∀ p < 2, ∀ (e : BitVec 4) (b : Bool),
    pot (p + 1) e + (loss p e b 0 + loss p e b 1 + loss p e b 2 + loss p e b 3) ≤
      pot p (UlViterbi.prevState e b) + (gain p e b 0 + gain p e b 1 + gain p e b 2 + gain p e b 3) := by
  decide

theorem pot_strict_parity : ∀ p < 2,
    loss p 0 true 0 + loss p 0 true 1 + loss p 0 true 2 + loss p 0 true 3 <
      pot p (UlViterbi.prevState 0 true) +
        (gain p 0 true 0 + gain p 0 true 1 + gain p 0 true 2 + gain p 0 true 3) := by
  decide

theorem pot_le : ∀ p < 2, ∀ e : BitVec 4, pot p e ≤ 22 := by decide

theorem pot_zero : ∀ p < 2, pot p 0 = 0 := by decide

theorem pot_mod (t : Nat) (e : BitVec 4) : pot (t % 2) e = pot t e := by
  rw [pot, pot, Nat.mod_mod]

theorem kept_mod (t g : Nat) : HuUnit.kept (t % 2) g = HuUnit.kept t g := by
  rw [HuUnit.kept, HuUnit.kept, Nat.mod_mod]

theorem gain_mod (t : Nat) (e : BitVec 4) (b : Bool) (g : Nat) :
    gain (t % 2) e b g = gain t e b g := by
  rw [gain, gain, kept_mod]

theorem loss_mod (t : Nat) (e : BitVec 4) (b : Bool) (g : Nat) :
    loss (t % 2) e b g = loss t e b g := by
  rw [loss, loss, kept_mod]

theorem pot_edge (t : Nat) (e : BitVec 4) (b : Bool) :
    pot (t + 1) e + (loss t e b 0 + loss t e b 1 + loss t e b 2 + loss t e b 3) ≤
      pot t (UlViterbi.prevState e b) +
        (gain t e b 0 + gain t e b 1 + gain t e b 2 + gain t e b 3) := by
  have h := pot_edge_parity (t % 2) (Nat.mod_lt t (by decide)) e b
  have hnext : pot (t % 2 + 1) e = pot (t + 1) e := by
    rw [← pot_mod, Nat.mod_add_mod, pot_mod]
  simpa only [hnext, pot_mod, gain_mod, loss_mod] using h

theorem pot_strict (t : Nat) :
    loss t 0 true 0 + loss t 0 true 1 + loss t 0 true 2 + loss t 0 true 3 <
      pot t (UlViterbi.prevState 0 true) +
        (gain t 0 true 0 + gain t 0 true 1 + gain t 0 true 2 + gain t 0 true 3) := by
  have h := pot_strict_parity (t % 2) (Nat.mod_lt t (by decide))
  simpa only [pot_mod, gain_mod, loss_mod] using h

/-! The decoder finds the path. -/

/-- The path of the block. -/
def blockPath (bits : List Bool) : Path UlViterbi.prevState bits.length where
  path := pathState bits
  choice := shifted bits
  back _ ht := prevState_path ht

/-- What an edge costs more than the one on the path. -/
theorem Clear.edge {soft : Nat → Nat → BitVec 5} (h : Clear bits soft) (ht : t < bits.length)
    (s : BitVec 4) (b : Bool) :
    UlViterbi.costs soft t (pathState bits (t + 1)) (shifted bits t) +
        (gain t (s ^^^ pathState bits (t + 1)) (b ^^ shifted bits t) 0 +
          gain t (s ^^^ pathState bits (t + 1)) (b ^^ shifted bits t) 1 +
          gain t (s ^^^ pathState bits (t + 1)) (b ^^ shifted bits t) 2 +
          gain t (s ^^^ pathState bits (t + 1)) (b ^^ shifted bits t) 3) ≤
      UlViterbi.costs soft t s b +
        (loss t (s ^^^ pathState bits (t + 1)) (b ^^ shifted bits t) 0 +
          loss t (s ^^^ pathState bits (t + 1)) (b ^^ shifted bits t) 1 +
          loss t (s ^^^ pathState bits (t + 1)) (b ^^ shifted bits t) 2 +
          loss t (s ^^^ pathState bits (t + 1)) (b ^^ shifted bits t) 3) := by
  have hbit : ∀ g < 4,
      UlViterbi.softCost (soft t g)
            (UlViterbi.gP0 g (pathState bits (t + 1)) ^^ shifted bits t) +
          gain t (s ^^^ pathState bits (t + 1)) (b ^^ shifted bits t) g ≤
        UlViterbi.softCost (soft t g) (UlViterbi.gP0 g s ^^ b) +
          loss t (s ^^^ pathState bits (t + 1)) (b ^^ shifted bits t) g := by
    intro g hg
    have hstep := h.bit ht hg (s ^^^ pathState bits (t + 1)) (b ^^ shifted bits t)
    have hother : (motherBit bits t g ^^
        (UlViterbi.gP0 g (s ^^^ pathState bits (t + 1)) ^^ (b ^^ shifted bits t))) =
          (UlViterbi.gP0 g s ^^ b) := by
      rw [← gP0_path ht hg, gP0_xor]
      cases UlViterbi.gP0 g s <;> cases UlViterbi.gP0 g (pathState bits (t + 1)) <;>
        cases b <;> cases shifted bits t <;> rfl
    rwa [hother, ← gP0_path ht hg] at hstep
  have h0 := hbit 0 (by decide)
  have h1 := hbit 1 (by decide)
  have h2 := hbit 2 (by decide)
  have h3 := hbit 3 (by decide)
  rw [UlViterbi.costs, bm_eq, bm_eq]
  omega

theorem Clear.leads {soft : Nat → Nat → BitVec 5} (h : Clear bits soft)
    (hlen : bits.length = UlViterbi.NUM_STAGES) :
    (blockPath bits).Leads (UlViterbi.costs soft) UlViterbi.pmInit UlViterbi.PM_MAX
      fun t s => pot t (s ^^^ pathState bits t) where
  start := by
    change UlViterbi.pmInit (pathState bits 0) = 0
    rw [pathState_zero]
    rfl
  start_le s := by
    rw [pathState_zero, BitVec.xor_zero, UlViterbi.pmInit]
    by_cases hs : s = 0
    · rw [if_pos hs, hs, pot_zero 0 (by decide)]
    · rw [if_neg hs]
      exact (pot_le 0 (by decide) s).trans (by decide)
  own t := by
    change pot t (pathState bits t ^^^ pathState bits t) = 0
    rw [BitVec.xor_self, ← pot_mod]
    exact pot_zero _ (Nat.mod_lt t (by decide))
  edge t ht s b := by
    have hcost := h.edge ht s b
    have hpot := pot_edge t (s ^^^ pathState bits (t + 1)) (b ^^ shifted bits t)
    rw [prevState_xor, prevState_path ht] at hpot
    change pot (t + 1) (s ^^^ pathState bits (t + 1)) +
      UlViterbi.costs soft t (pathState bits (t + 1)) (shifted bits t) ≤
        pot t (UlViterbi.prevState s b ^^^ pathState bits t) + UlViterbi.costs soft t s b
    omega
  strict t ht := by
    have hcost := h.edge ht (pathState bits (t + 1)) (!shifted bits t)
    have hpot := pot_strict t
    have hflip : (!shifted bits t ^^ shifted bits t) = true := by
      cases shifted bits t <;> rfl
    have hprev := prevState_xor (pathState bits (t + 1)) (pathState bits (t + 1))
      (!shifted bits t) (shifted bits t)
    rw [BitVec.xor_self, hflip, prevState_path ht] at hprev
    rw [BitVec.xor_self, hflip] at hcost
    change UlViterbi.costs soft t (pathState bits (t + 1)) (shifted bits t) <
      pot t (UlViterbi.prevState (pathState bits (t + 1)) (!shifted bits t) ^^^ pathState bits t) +
        UlViterbi.costs soft t (pathState bits (t + 1)) (!shifted bits t)
    rw [← hprev]
    have hzero : (0 : BitVec 4) = 0#4 := rfl
    rw [hzero] at hpot
    omega
  fits t ht s := by
    have hsum := (blockPath bits).sum_le (fun t s b => bm_le (soft t) s b) t
    have hpot := pot_le (t % 2) (Nat.mod_lt t (by decide)) (s ^^^ pathState bits t)
    rw [pot_mod] at hpot
    rw [hlen] at ht
    simp only [UlViterbi.NUM_STAGES, UlViterbi.BM_MAX, UlViterbi.SOFT_MAX,
      UlViterbi.PM_MAX] at ht hsum ⊢
    have hcosts : UlViterbi.costs soft = fun t => UlViterbi.bm (soft t) := rfl
    rw [hcosts]
    omega

theorem Clear.decoded {soft : Nat → Nat → BitVec 5} (h : Clear bits soft)
    (hlen : bits.length = UlViterbi.NUM_STAGES) (htail : pathState bits UlViterbi.NUM_STAGES = 0#4)
    {k : Nat} (hk : k < UlViterbi.NUM_STAGES) : UlViterbi.decoded soft k = bits.getD k false := by
  have htrace := (h.leads hlen).trace (k := UlViterbi.NUM_STAGES - 1 - k) (by omega)
  have hstate : UlViterbi.traceOf soft (UlViterbi.NUM_STAGES - 1 - k) = pathState bits (k + 1) := by
    change trace UlViterbi.prevState (UlViterbi.survOf soft) bits.length
      (pathState bits bits.length) (UlViterbi.NUM_STAGES - 1 - k) =
        pathState bits (bits.length - (UlViterbi.NUM_STAGES - 1 - k)) at htrace
    rw [hlen, htail, (by omega : UlViterbi.NUM_STAGES - (UlViterbi.NUM_STAGES - 1 - k) = k + 1)] at htrace
    exact htrace
  rw [UlViterbi.decoded, hstate, pathState, getLsbD_written _ (by decide), hist_succ (by omega)]
  rfl

/-! The whole block. -/

theorem typeTwo_tail (info : BitVec 92) : pathState (typeTwo info) UlViterbi.NUM_STAGES = 0#4 := by
  refine (eq_written fun d hd => ?_).symm
  rw [BitVec.getLsbD_zero, hist, List.take_of_length_le (Nat.le_of_eq (typeTwo_length info)),
    typeTwo, List.reverse_append, List.reverse_replicate,
    List.getD_append _ _ _ _ (by rw [List.length_replicate]; exact hd), List.getD_eq_getElem?_getD,
    List.getElem?_replicate]
  split <;> rfl

theorem typeTwo_checked (info : BitVec 92) :
    (List.range HuDecoder.CRC_LEN).map (fun k => (typeTwo info).getD k false) =
      Crc16.checked (lsbBits info) := by
  have hlen : (Crc16.checked (lsbBits info)).length = HuDecoder.CRC_LEN := by
    rw [Crc16.checked, List.length_append, lsbBits_length, msbBits_length]
    rfl
  refine List.ext_getElem (by rw [List.length_map, List.length_range, hlen]) fun k hk hk' => ?_
  rw [List.getElem_map, List.getElem_range, typeTwo, List.getD_append _ _ _ _ hk',
    List.getD_eq_getElem _ _ hk']

theorem typeTwo_info (info : BitVec 92) {k : Nat} (hk : k < 92) :
    (typeTwo info).getD k false = info.getLsbD k := by
  have hlen : (lsbBits info).length = 92 := lsbBits_length info
  rw [typeTwo, Crc16.checked, List.append_assoc, List.getD_append _ _ _ _ (by omega),
    List.getD_eq_getElem _ _ (by omega)]
  simp [lsbBits]

/-- The soft values speak clearly for the coded bits of the block. -/
structure Good (raw : Nat → BitVec 8) (seed : BitVec 32) (info : BitVec 92) : Prop where
  zero : ∀ j < N_TX, (coded info).getD j false = false →
    (HuDecoder.toVitSoft (HuUnit.deinterleaved raw seed j)).toNat ≤ 11
  one : ∀ j < N_TX, (coded info).getD j false = true →
    20 ≤ (HuDecoder.toVitSoft (HuUnit.deinterleaved raw seed j)).toNat

variable {raw : Nat → BitVec 8} {seed : BitVec 32} {info : BitVec 92}

theorem Good.clear (h : Good raw seed info) : Clear (typeTwo info) (HuUnit.mother raw seed) where
  zero t ht g hg hk hm := by
    have hlt := typeTwo_length info ▸ ht
    rw [HuUnit.mother, if_pos hk]
    exact h.zero _ (HuUnit.keptIdx_lt hlt hk) ((punctured_get ht hg hk).trans hm)
  one t ht g hg hk hm := by
    have hlt := typeTwo_length info ▸ ht
    rw [HuUnit.mother, if_pos hk]
    exact h.one _ (HuUnit.keptIdx_lt hlt hk) ((punctured_get ht hg hk).trans hm)
  erased t _ g _ hk := by rw [HuUnit.mother, if_neg (Bool.eq_false_iff.1 hk)]

theorem Good.decodedBit (h : Good raw seed info) {k : Nat} (hk : k < UlViterbi.NUM_STAGES) :
    HuUnit.decodedBit raw seed k = (typeTwo info).getD k false :=
  h.clear.decoded (typeTwo_length info) (typeTwo_tail info) hk

/-- The block comes back. -/
theorem Good.info_eq (h : Good raw seed info) : HuUnit.info raw seed = info := by
  refine (eq_written fun k hk => ?_).symm
  rw [h.decodedBit (Nat.lt_trans hk (by decide)), typeTwo_info info hk]

theorem Good.infoOk (h : Good raw seed info) : HuUnit.infoOk raw seed = true := by
  have hbits : HuUnit.decodedBits raw seed HuDecoder.CRC_LEN = Crc16.checked (lsbBits info) := by
    rw [← typeTwo_checked]
    refine List.map_congr_left fun k hk => h.decodedBit ?_
    exact Nat.lt_trans (List.mem_range.1 hk) (by decide)
  rw [HuUnit.infoOk, hbits, Crc16.run_checked]
  exact decide_eq_true rfl

/-! What the decoder makes of the bits in the air. -/

theorem cellSequence_get (seed : BitVec 32) {k : Nat} (hk : k < N_TX) :
    (cellSequence N_TX seed).getD k false = Lmac.lfsrFb (Lmac.lfsrNext^[k] seed) := by
  rw [cellSequence, Lfsr.stream_eq_map, List.getD_eq_getElem _ _ (by simpa using hk)]
  simp

/-- Bit `place j` in the air is the coded bit `j`, scrambled. -/
theorem reference_get (info : BitVec 92) (seed : BitVec 32) {j : Nat} (hj : j < N_TX) :
    (reference info seed).getD (place HuDecoder.DEINT_A N_TX j) false =
      ((coded info).getD j false ^^
        Lmac.lfsrFb (Lmac.lfsrNext^[place HuDecoder.DEINT_A N_TX j] seed)) := by
  have hlen := coded_length info
  have hcop : (coded info).length.Coprime HuDecoder.DEINT_A := by
    rw [hlen]
    decide
  have hspread := permuted_spread hcop false
  have hitem := hspread.item j (by omega)
  have hplace : place HuDecoder.DEINT_A N_TX j < N_TX := place_lt (by decide)
  have hslen := hspread.length
  have hclen := cellSequence_length N_TX seed
  have hcell := cellSequence_get seed hplace
  rw [hlen] at hitem hslen
  rw [List.getD_eq_getElem _ _ (by omega)] at hcell
  rw [reference, List.getD_eq_getElem _ _ (by rw [List.length_zipWith]; omega), List.getElem_zipWith,
    hcell, List.getD_eq_getElem _ _ (by omega)]
  rw [List.getElem?_eq_getElem (by omega), List.getElem?_eq_getElem (by omega)] at hitem
  rw [Option.some.inj hitem]

/-- Soft values that depend on the bit in the air alone. -/
def received (f : Bool → BitVec 8) (bits : List Bool) (k : Nat) : BitVec 8 := f (bits.getD k false)

theorem deinterleaved_received (f : Bool → BitVec 8) (info : BitVec 92) (seed : BitVec 32) {j : Nat}
    (hj : j < N_TX) : HuUnit.deinterleaved (received f (reference info seed)) seed j =
      if Lmac.lfsrFb (Lmac.lfsrNext^[place HuDecoder.DEINT_A N_TX j] seed) then
        -f (!(coded info).getD j false)
      else f ((coded info).getD j false) := by
  rw [HuUnit.deinterleaved, HuUnit.descrambled, received, reference_get info seed hj]
  cases Lmac.lfsrFb (Lmac.lfsrNext^[place HuDecoder.DEINT_A N_TX j] seed) with
  | false => rw [if_neg Bool.false_ne_true, if_neg Bool.false_ne_true, Bool.xor_false]
  | true => rw [if_pos rfl, if_pos rfl, Bool.xor_true]

/-- Soft values that speak clearly for their bit, whether it was flipped in the air or not. -/
theorem good_received {f : Bool → BitVec 8} (hplus : (HuDecoder.toVitSoft (f false)).toNat ≤ 11)
    (hplus' : (HuDecoder.toVitSoft (-f true)).toNat ≤ 11)
    (hminus : 20 ≤ (HuDecoder.toVitSoft (f true)).toNat)
    (hminus' : 20 ≤ (HuDecoder.toVitSoft (-f false)).toNat) (info : BitVec 92) (seed : BitVec 32) :
    Good (received f (reference info seed)) seed info := by
  constructor
  · intro j hj hbit
    rw [deinterleaved_received f info seed hj, hbit]
    split
    · exact hplus'
    · exact hplus
  · intro j hj hbit
    rw [deinterleaved_received f info seed hj, hbit]
    split
    · exact hminus'
    · exact hminus

end TetraBs.Lmac.SchHu

/-! The SCH/HU decoder inverts the reference encoding, block after block. -/
namespace TetraBs.Lmac.SchHu
open TetraBs.Serial

/-- The soft value of a bit received without noise. -/
def soft (mag : Nat) (b : Bool) : BitVec 8 := if b then -BitVec.ofNat 8 mag else BitVec.ofNat 8 mag

theorem toVitSoft_soft : ∀ mag < 128, 16 ≤ mag →
    HuDecoder.toVitSoft (soft mag false) = 0 ∧
      HuDecoder.toVitSoft (soft mag true) = HuDecoder.VIT_MAX := by
  decide +kernel

theorem good_soft {mag : Nat} (hlo : 16 ≤ mag) (hhi : mag ≤ 127) (info : BitVec 92)
    (seed : BitVec 32) : Good (received (soft mag) (reference info seed)) seed info := by
  obtain ⟨hzero, hone⟩ := toVitSoft_soft mag (by omega) hlo
  have hneg : -soft mag true = soft mag false := BitVec.neg_neg
  have hneg' : -soft mag false = soft mag true := rfl
  refine good_received ?_ ?_ ?_ ?_ info seed
  · rw [hzero]; decide
  · rw [hneg, hzero]; decide
  · rw [hone]; decide
  · rw [hneg', hone]; decide

/-- A block, the seed it is scrambled with and the magnitude it is received with. -/
structure Block where
  info : BitVec 92
  seed : BitVec 32
  mag : Nat
  seed_ne : seed ≠ 0
  mag_lo : 16 ≤ mag
  mag_hi : mag ≤ 127

/-- The soft values, in the order of the air. -/
def Block.raw (b : Block) : Nat → BitVec 8 := received (soft b.mag) (reference b.info b.seed)

theorem Block.good (b : Block) : Good b.raw b.seed b.info := by
  rw [Block.raw]
  exact good_soft b.mag_lo b.mag_hi b.info b.seed

/-- The cycles bring the block's soft values, with any gaps, to a decoder set to its seed. -/
structure Block.Brought (b : Block) (cycles : List HuCycle) : Prop where
  pairs : cycles.filterMap HuCycle.pair = HuUnit.pairs b.raw 0 84
  scrambInit : ∀ c ∈ cycles, c.softValid = true → c.scrambInit = b.seed

theorem Block.Brought.carries {b : Block} {cycles : List HuCycle} (h : b.Brought cycles) :
    HuUnit.Carries b.raw b.seed cycles where
  pairs := h.pairs
  seed c hc hv := by
    have hinit := h.scrambInit c hc hv
    rw [HuCycle.seed, hinit, if_neg b.seed_ne]

/-- The block on 84 cycles. -/
def Block.cycles (b : Block) : List HuCycle :=
  (List.range' 0 84).map fun k => ⟨b.seed, b.raw (2 * k + 1), b.raw (2 * k), true⟩

theorem Block.brought (b : Block) (idle : List HuCycle) (h : ∀ c ∈ idle, c.softValid = false) :
    b.Brought (b.cycles ++ idle) := by
  have hidle : idle.filterMap HuCycle.pair = [] := by
    refine List.filterMap_eq_nil_iff.2 fun c hc => ?_
    rw [HuCycle.pair, h c hc, if_neg Bool.false_ne_true]
  constructor
  · rw [List.filterMap_append, hidle, List.append_nil, Block.cycles, List.filterMap_map,
      HuUnit.pairs, ← List.filterMap_eq_map]
    refine List.filterMap_congr fun k _ => ?_
    simp only [Function.comp, HuCycle.pair, if_true]
  · intro c hc hv
    rcases List.mem_append.1 hc with hc | hc
    · obtain ⟨k, -, rfl⟩ := List.mem_map.1 hc
      rfl
    · rw [h c hc] at hv
      cases hv

/-- A block as it is received. -/
structure Reception where
  block : Block
  cycles : List HuCycle
  brought : block.Brought cycles

def Reception.feed (r : Reception) : HuUnit.SoftFeed :=
  ⟨r.block.raw, r.block.seed, r.cycles, r.brought.carries⟩

theorem Reception.result (r : Reception) : r.feed.result = (r.block.info, true) := by
  simp only [HuUnit.SoftFeed.result, feed, r.block.good.info_eq, r.block.good.infoOk]

/-- Every block comes back with its check passed, one after the other. -/
theorem blocks_decoded (receptions : List Reception)
    (hspaced : HuUnit.Spaced HuUnit.reset (receptions.map Reception.cycles))
    (idle : List HuCycle) (hidle : ∀ c ∈ idle, c.softValid = false)
    (hlen : HuUnit.LATENCY < idle.length) :
    HuUnit.reader.outputs HuUnit.reset ((receptions.map Reception.cycles).flatten ++ idle) =
      receptions.map fun r => (r.block.info, true) := by
  have hcycles : (receptions.map Reception.feed).map HuUnit.SoftFeed.cycles =
      receptions.map Reception.cycles := by
    rw [List.map_map]
    rfl
  rw [← hcycles] at hspaced ⊢
  rw [HuUnit.run_feeds HuUnit.ready_reset hspaced hidle hlen, List.map_map]
  exact List.map_congr_left fun r _ => r.result

def idleCycles : List HuCycle := List.replicate 1118 ⟨0, 0, 0, false⟩

theorem idleCycles_quiet : ∀ c ∈ idleCycles, c.softValid = false :=
  fun _ hc => (List.eq_of_mem_replicate hc).symm ▸ rfl

theorem idleCycles_length : HuUnit.LATENCY < idleCycles.length := by
  rw [idleCycles, List.length_replicate]
  decide

theorem Block.shown (b : Block) :
    HuUnit.reader.outputs HuUnit.reset (b.cycles ++ idleCycles) ≠ [] := by
  have hbrought := b.brought [] fun c hc => absurd hc List.not_mem_nil
  rw [List.append_nil] at hbrought
  rw [hbrought.carries.complete HuUnit.ready_reset idleCycles_quiet idleCycles_length]
  exact List.cons_ne_nil _ _

def oneBlock : Block := ⟨1, 3, 16, by decide, by decide, by decide⟩

def otherBlock : Block := ⟨2, 0x12345678, 127, by decide, by decide, by decide⟩

def oneReception : Reception :=
  ⟨oneBlock, oneBlock.cycles ++ idleCycles, oneBlock.brought idleCycles idleCycles_quiet⟩

def otherReception : Reception :=
  ⟨otherBlock, otherBlock.cycles ++ idleCycles, otherBlock.brought idleCycles idleCycles_quiet⟩

/-- Two blocks with different seeds and magnitudes. -/
theorem two_blocks_decoded :
    HuUnit.reader.outputs HuUnit.reset
      (([oneReception, otherReception].map Reception.cycles).flatten ++ idleCycles) =
        [(1, true), (2, true)] :=
  blocks_decoded [oneReception, otherReception]
    ⟨oneBlock.shown, trivial⟩ idleCycles idleCycles_quiet idleCycles_length

end TetraBs.Lmac.SchHu
