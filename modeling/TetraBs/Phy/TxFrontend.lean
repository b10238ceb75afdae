import TetraBs.Lib.Run
import TetraBs.Phy.TxCic

/-! `tetra_tx_frontend` in the domain of `clk_lvds`, behind its FIFO. A period has 256 cycles: a
read in the last but one, the combs in the last one, and a step of the integrators in every
fourth. -/
namespace TetraBs.Phy
open PowerSeries TetraBs.Cic TetraBs.Run TetraBs.Signed

/-- The read side of the FIFO: its flags, and the word that a read takes. -/
structure TxInput where
  fifoEmpty : Bool
  rdRstBusy : Bool
  head : BitVec 32
deriving DecidableEq

def TxInput.ready (i : TxInput) : Bool := !i.fifoEmpty && !i.rdRstBusy

/-- `fifoDout` is the output register of the FIFO, which changes with a read only. -/
structure TxFrontend where
  fifoDout : BitVec 32 := 0
  i : TxChannel := {}
  q : TxChannel := {}
  lvdsCnt : BitVec 8 := 0
  intgEnD1 : Bool := false
  txValidLvds : Bool := false

/-- `{i_in, q_in}`. -/
def iHalf (x : BitVec 32) : BitVec 16 := x.extractLsb' 16 16
def qHalf (x : BitVec 32) : BitVec 16 := x.extractLsb' 0 16

namespace TxFrontend

def reset : TxFrontend := {}

def fifoRdEn (s : TxFrontend) (i : TxInput) : Bool := s.lvdsCnt = 254 && i.ready
def combLoad (s : TxFrontend) : Bool := s.lvdsCnt = 255
def intgEn (s : TxFrontend) : Bool := s.lvdsCnt.extractLsb' 0 2 = 0
def first (s : TxFrontend) : Bool := s.lvdsCnt = 0

def step (s : TxFrontend) (i : TxInput) : TxFrontend where
  fifoDout := if s.fifoRdEn i then i.head else s.fifoDout
  i := s.i.step s.combLoad s.intgEn s.first s.intgEnD1 (iHalf s.fifoDout)
  q := s.q.step s.combLoad s.intgEn s.first s.intgEnD1 (qHalf s.fifoDout)
  lvdsCnt := s.lvdsCnt + 1
  intgEnD1 := s.intgEn
  txValidLvds := s.intgEnD1

/-- The state before cycle `c`. -/
def run (inp : ℕ → TxInput) (c : ℕ) : TxFrontend := clocked (fun _ => step) reset inp c

/-- The cycle of period `n` in which a read can be. -/
def readCycle (n : ℕ) : ℕ := 256 * n + 254

/-- The sample popped in period `n`, or zero. -/
def popped (inp : ℕ → TxInput) (n : ℕ) : BitVec 32 :=
  if (inp (readCycle n)).ready then (inp (readCycle n)).head else 0

/-- What the combs load in period `n`. -/
def held (inp : ℕ → TxInput) (n : ℕ) : BitVec 32 := (run inp (readCycle n + 1)).fifoDout

theorem run_fifoDout (inp : ℕ → TxInput) (c : ℕ) : (run inp (c + 1)).fifoDout =
    if (run inp c).fifoRdEn (inp c) then (inp c).head else (run inp c).fifoDout := rfl

/-! The counter. -/

theorem run_lvdsCnt (inp : ℕ → TxInput) (c : ℕ) : (run inp c).lvdsCnt.toNat = c % 256 := by
  induction c with
  | zero => rfl
  | succ c ih =>
    show ((run inp c).lvdsCnt + 1).toNat = _
    rw [BitVec.toNat_add, ih]
    show (c % 256 + 1) % 256 = _
    omega

section
variable (inp : ℕ → TxInput) (c : ℕ)

theorem lvdsCnt_eq_iff {k : ℕ} (hk : k < 256) :
    (run inp c).lvdsCnt = BitVec.ofNat 8 k ↔ c % 256 = k := by
  rw [← run_lvdsCnt inp c]
  constructor
  · intro h
    rw [h, BitVec.toNat_ofNat]
    exact Nat.mod_eq_of_lt hk
  · intro h
    apply BitVec.eq_of_toNat_eq
    rw [h, BitVec.toNat_ofNat]
    exact (Nat.mod_eq_of_lt hk).symm

theorem combLoad_iff : (run inp c).combLoad = true ↔ c % 256 = 255 :=
  decide_eq_true_iff.trans (lvdsCnt_eq_iff inp c (by decide : 255 < 256))

theorem first_iff : (run inp c).first = true ↔ c % 256 = 0 :=
  decide_eq_true_iff.trans (lvdsCnt_eq_iff inp c (by decide : 0 < 256))

theorem intgEn_eq : (run inp c).intgEn = decide (c % 4 = 0) := by
  apply decide_eq_decide.2
  have hlow : ((run inp c).lvdsCnt.extractLsb' 0 2).toNat = c % 4 := by
    rw [BitVec.extractLsb'_toNat, run_lvdsCnt, Nat.shiftRight_zero]
    omega
  rw [← hlow]
  exact ⟨fun h => congrArg BitVec.toNat h, fun h => BitVec.eq_of_toNat_eq h⟩

theorem run_intgEnD1 : (run inp c).intgEnD1 = decide (c % 4 = 1) := by
  cases c with
  | zero => rfl
  | succ c =>
    show (run inp c).intgEn = _
    rw [intgEn_eq]
    apply decide_eq_decide.2
    omega

theorem run_txValidLvds : (run inp c).txValidLvds = decide (c % 4 = 2) := by
  cases c with
  | zero => rfl
  | succ c =>
    show (run inp c).intgEnD1 = _
    rw [run_intgEnD1]
    apply decide_eq_decide.2
    omega

/-- A step of the integrators comes with the last comb at the start of a period and with zero
otherwise. -/
theorem inPeriod (h : (run inp c).intgEn = true) :
    TxChannel.InPeriod (run inp c).first (c / 256) ((c + 3) / 4) := by
  rw [intgEn_eq, decide_eq_true_iff] at h
  cases hf : (run inp c).first with
  | false =>
    have hne : ¬c % 256 = 0 := fun h0 => by
      rw [(first_iff inp c).2 h0] at hf
      cases hf
    show ¬64 ∣ (c + 3) / 4
    omega
  | true =>
    have hzero := (first_iff inp c).1 hf
    show (c + 3) / 4 = 64 * (c / 256)
    omega

end

/-! The channels. -/

/-- The values of one half of the words. -/
def values (half : BitVec 32 → BitVec 16) (w : ℕ → BitVec 32) (n : ℕ) : ℤ := (half (w n)).toInt

theorem values_fits (half : BitVec 32 → BitVec 16) (w : ℕ → BitVec 32) (n : ℕ) :
    Signed.Fits 16 (values half w n) := fits_toInt _

/-- Registers that step as one of the two channels does. -/
theorem channel_holds (inp : ℕ → TxInput) (half : BitVec 32 → BitVec 16)
    (ch : TxFrontend → TxChannel) (h0 : ch reset = {})
    (hstep : ∀ s i, ch (step s i) =
      (ch s).step s.combLoad s.intgEn s.first s.intgEnD1 (half s.fifoDout)) (c : ℕ) :
    (ch (run inp c)).Holds (values half (held inp)) (c / 256) ((c + 3) / 4) := by
  induction c with
  | zero =>
    rw [run, clocked, h0]
    exact TxChannel.holds_reset _
  | succ c ih =>
    have hload : (run inp c).combLoad = true →
        (half (run inp c).fifoDout).toInt = values half (held inp) (c / 256) := by
      intro hl
      have hc := (combLoad_iff inp c).1 hl
      rw [values, held, readCycle, show 256 * (c / 256) + 254 + 1 = c by omega]
    have hnext := ih.step (values_fits half _) hload (inPeriod inp c) (run inp c).intgEnD1
    have hm : c / 256 + (run inp c).combLoad.toNat = (c + 1) / 256 := by
      cases hl : (run inp c).combLoad with
      | false =>
        have hne : ¬c % 256 = 255 := fun h => by
          rw [(combLoad_iff inp c).2 h] at hl
          cases hl
        rw [Bool.toNat_false]
        omega
      | true =>
        have hc := (combLoad_iff inp c).1 hl
        rw [Bool.toNat_true]
        omega
    have hn : (c + 3) / 4 + (run inp c).intgEn.toNat = (c + 1 + 3) / 4 := by
      rw [intgEn_eq]
      by_cases h : c % 4 = 0
      · rw [decide_eq_true h, Bool.toNat_true]
        omega
      · rw [decide_eq_false h, Bool.toNat_false]
        omega
    rw [hm, hn, ← hstep] at hnext
    exact hnext

theorem i_holds (inp : ℕ → TxInput) (c : ℕ) :
    (run inp c).i.Holds (values iHalf (held inp)) (c / 256) ((c + 3) / 4) :=
  channel_holds inp iHalf TxFrontend.i rfl (fun _ _ => rfl) c

theorem q_holds (inp : ℕ → TxInput) (c : ℕ) :
    (run inp c).q.Holds (values qHalf (held inp)) (c / 256) ((c + 3) / 4) :=
  channel_holds inp qHalf TxFrontend.q rfl (fun _ _ => rfl) c

/-- The output after step `j` of the integrators. -/
theorem channel_output {inp : ℕ → TxInput} {half : BitVec 32 → BitVec 16} {s s' : TxChannel} {j : ℕ}
    {x : BitVec 16}
    (hs : s.Holds (values half (held inp)) ((4 * j + 1) / 256) ((4 * j + 1 + 3) / 4))
    (hstep : s' = s.step (run inp (4 * j + 1)).combLoad (run inp (4 * j + 1)).intgEn
      (run inp (4 * j + 1)).first (run inp (4 * j + 1)).intgEnD1 x) :
    s'.txLvds = TxChannel.output (values half (held inp)) (j + 1) := by
  have hen : (run inp (4 * j + 1)).intgEnD1 = true := by
    rw [run_intgEnD1]
    exact decide_eq_true (by omega)
  have htx : s'.txLvds = TxChannel.sat (s.intg (Fin.last 4)) := by
    rw [hstep]
    exact if_pos hen
  rw [htx, hs.sat]
  congr 1
  omega

/-! Underruns. -/

/-- Outputs as documented, an underrun being a zero. -/
structure Interpolates (inp : ℕ → TxInput) : Prop where
  valid (c : ℕ) : (run inp c).txValidLvds = decide (c % 4 = 2)
  i (j : ℕ) : (run inp (4 * j + 2)).i.txLvds = TxChannel.output (values iHalf (popped inp)) (j + 1)
  q (j : ℕ) : (run inp (4 * j + 2)).q.txLvds = TxChannel.output (values qHalf (popped inp)) (j + 1)

structure NeverWraps (inp : ℕ → TxInput) : Prop where
  i (c : ℕ) : (run inp c).i.Exact (run inp c).intgEn (run inp c).first
  q (c : ℕ) : (run inp c).q.Exact (run inp c).intgEn (run inp c).first

/-- Whenever nothing is popped the FIFO's output is zero: no sample came yet, or the last one was
zero. -/
def ZeroOnUnderrun (inp : ℕ → TxInput) : Prop :=
  ∀ n, (inp (readCycle n)).ready = false → (run inp (readCycle n)).fifoDout = 0

theorem neverWraps (inp : ℕ → TxInput) : NeverWraps inp where
  i c := (i_holds inp c).exact (values_fits iHalf _) (inPeriod inp c)
  q c := (q_holds inp c).exact (values_fits qHalf _) (inPeriod inp c)

theorem held_eq (inp : ℕ → TxInput) (n : ℕ) : held inp n =
    if (inp (readCycle n)).ready then (inp (readCycle n)).head
    else (run inp (readCycle n)).fifoDout := by
  have hcnt : (run inp (readCycle n)).lvdsCnt = 254 :=
    (lvdsCnt_eq_iff inp _ (by decide : 254 < 256)).2 (by rw [readCycle]; omega)
  have hrd : (run inp (readCycle n)).fifoRdEn (inp (readCycle n)) = (inp (readCycle n)).ready := by
    rw [fifoRdEn, decide_eq_true hcnt, Bool.true_and]
  rw [held, run_fifoDout, hrd]

theorem held_eq_popped {inp : ℕ → TxInput} (h : ZeroOnUnderrun inp) : held inp = popped inp := by
  funext n
  rw [held_eq, popped]
  cases hr : (inp (readCycle n)).ready with
  | false => rw [if_neg Bool.false_ne_true, if_neg Bool.false_ne_true, h n hr]
  | true => rw [if_pos rfl, if_pos rfl]

theorem i_output (inp : ℕ → TxInput) (j : ℕ) :
    (run inp (4 * j + 2)).i.txLvds = TxChannel.output (values iHalf (held inp)) (j + 1) :=
  channel_output (i_holds inp (4 * j + 1)) rfl

theorem q_output (inp : ℕ → TxInput) (j : ℕ) :
    (run inp (4 * j + 2)).q.txLvds = TxChannel.output (values qHalf (held inp)) (j + 1) :=
  channel_output (q_holds inp (4 * j + 1)) rfl

/-- Nothing ever wraps; and as long as underruns find a zero, the outputs are the interpolation of
the samples popped: combs, zeros, integrators. -/
theorem interpolates_of_zero {inp : ℕ → TxInput} (h : ZeroOnUnderrun inp) :
    Interpolates inp ∧ NeverWraps inp ∧
      ∀ u : ℕ → ℤ, (1 - X) ^ 5 * interpolated u =
        expand 64 (by decide) ((1 - X) ^ 5 * PowerSeries.mk u) := by
  refine ⟨⟨run_txValidLvds inp, fun j => ?_, fun j => ?_⟩, neverWraps inp, interpolated_spec⟩
  · rw [i_output, held_eq_popped h]
  · rw [q_output, held_eq_popped h]

/-- A sample in every period. -/
def noUnderrun (_ : ℕ) : TxInput := ⟨false, false, 0x7FFF8000⟩

theorem interpolates_of_zero_noUnderrun :
    Interpolates noUnderrun ∧ NeverWraps noUnderrun ∧
      ∀ u : ℕ → ℤ, (1 - X) ^ 5 * interpolated u =
        expand 64 (by decide) ((1 - X) ^ 5 * PowerSeries.mk u) :=
  interpolates_of_zero fun _ h => nomatch h

/-! One sample, and then none. -/

def oneSample (c : ℕ) : TxInput :=
  if c = 254 then ⟨false, false, 0x7FFF0000⟩ else ⟨true, false, 0⟩

theorem oneSample_dout (c : ℕ) :
    (run oneSample c).fifoDout = if c ≤ 254 then 0 else 0x7FFF0000 := by
  induction c with
  | zero => rfl
  | succ c ih =>
    rw [run_fifoDout]
    by_cases hc : c = 254
    · have hcnt : (run oneSample c).lvdsCnt = 254 :=
        (lvdsCnt_eq_iff _ c (by decide : 254 < 256)).2 (by omega)
      have hrd : (run oneSample c).fifoRdEn (oneSample c) = true := by
        rw [fifoRdEn, decide_eq_true hcnt, oneSample, if_pos hc]
        rfl
      rw [if_pos hrd, oneSample, if_pos hc, if_neg (by omega)]
    · have hrd : (run oneSample c).fifoRdEn (oneSample c) = false := by
        rw [fifoRdEn, oneSample, if_neg hc]
        exact Bool.and_false _
      rw [hrd, if_neg Bool.false_ne_true, ih]
      by_cases hle : c ≤ 254
      · rw [if_pos hle, if_pos (by omega)]
      · rw [if_neg hle, if_neg (by omega)]

/-- The FIFO's output is loaded again in every period: long after the only sample the output stands
at its value and not at zero. -/
theorem oneSample_stands : ¬Interpolates oneSample := by
  intro h
  have hheld : values iHalf (held oneSample) = fun _ => 32767 := by
    funext n
    rw [values, held, oneSample_dout, if_neg (by rw [readCycle]; omega)]
    rfl
  have hpopped : ∀ n, 1 ≤ n → coeff n (expand 64 (by decide)
      (PowerSeries.mk (values iHalf (popped oneSample)))) = 0 := by
    intro n hn
    rw [coeff_expand]
    split
    · rename_i hdvd
      have hlate : ¬readCycle (n / 64) = 254 := by
        rw [readCycle]
        omega
      have hempty : oneSample (readCycle (n / 64)) = ⟨true, false, 0⟩ := if_neg hlate
      rw [coeff_mk, values, popped, hempty]
      rfl
    · rfl
  have hcode : coeff 901 (X ^ 389 * interpolated fun _ => 32767) = 64 ^ 4 * 32767 := by
    rw [coeff_X_pow_mul', if_pos (by decide), interpolated, pow_succ, mul_assoc,
      coeff_boxcars_mul_eq (d := 0) (fun n _ => coeff_boxcar_expand_const _ _ n) (by decide)]
    rfl
  have hclaim : coeff 901 (X ^ 389 * interpolated (values iHalf (popped oneSample))) = 0 := by
    rw [coeff_X_pow_mul', if_pos (by decide), interpolated,
      coeff_boxcars_mul_eq hpopped (by decide), mul_zero]
  have hout := (i_output oneSample 900).symm.trans (h.i 900)
  rw [TxChannel.output, TxChannel.output, hheld, hcode, hclaim] at hout
  exact absurd hout (by decide)

end TxFrontend
end TetraBs.Phy
