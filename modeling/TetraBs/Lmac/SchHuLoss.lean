import TetraBs.Lmac.SchHuCode

/-! When the Viterbi decoder loses a block: another path is cheaper before the block is through. -/
namespace TetraBs.Lmac.SchHu
open TetraBs.Bits TetraBs.BitRegister TetraBs.MulPerm TetraBs.Viterbi

variable {soft : Nat → Nat → BitVec 5} {bits : List Bool} {n t : Nat}

/-! The traced path. -/

/-- The path that the trace back follows. -/
def tracedPath (soft : Nat → Nat → BitVec 5) :
    Path UlViterbi.prevState UlViterbi.NUM_STAGES where
  path t := UlViterbi.traceOf soft (UlViterbi.NUM_STAGES - t)
  choice t := UlViterbi.survOf soft t (UlViterbi.traceOf soft (UlViterbi.NUM_STAGES - (t + 1)))
  back t ht := by
    have hnext : UlViterbi.NUM_STAGES - t = UlViterbi.NUM_STAGES - (t + 1) + 1 := by omega
    have hstage : UlViterbi.NUM_STAGES - 1 - (UlViterbi.NUM_STAGES - (t + 1)) = t := by omega
    rw [hnext]
    change UlViterbi.prevState _ _ = UlViterbi.prevState _ (UlViterbi.survOf soft
      (UlViterbi.NUM_STAGES - 1 - (UlViterbi.NUM_STAGES - (t + 1))) _)
    rw [hstage]
    rfl

theorem tracedPath_bit (ht : t < UlViterbi.NUM_STAGES) :
    ((tracedPath soft).path (t + 1)).getLsbD 0 = UlViterbi.decoded soft t := by
  have hidx : UlViterbi.NUM_STAGES - (t + 1) = UlViterbi.NUM_STAGES - 1 - t := by omega
  change (UlViterbi.traceOf soft (UlViterbi.NUM_STAGES - (t + 1))).getLsbD 0 = _
  rw [hidx]
  rfl

/-- The older bits of a state are the bits of the state before. -/
theorem tracedPath_shift (ht : t < UlViterbi.NUM_STAGES) {d : Nat} (hd : d < 3) :
    ((tracedPath soft).path (t + 1)).getLsbD (d + 1) = ((tracedPath soft).path t).getLsbD d := by
  have hback := (tracedPath soft).back t ht
  rw [← hback, prevState_bit _ _ (by omega), if_neg (by omega)]

theorem tracedPath_zero_bits (h : ∀ k < n, UlViterbi.decoded soft k = false)
    (hn : n ≤ UlViterbi.NUM_STAGES) {t d : Nat} (ht : t ≤ n) (hd : d < 4) (hdt : d < t) :
    ((tracedPath soft).path t).getLsbD d = false := by
  induction d generalizing t with
  | zero =>
    obtain ⟨t, rfl⟩ : ∃ t', t = t' + 1 := ⟨t - 1, by omega⟩
    rw [tracedPath_bit (by omega)]
    exact h t (by omega)
  | succ d ih =>
    obtain ⟨t, rfl⟩ : ∃ t', t = t' + 1 := ⟨t - 1, by omega⟩
    rw [tracedPath_shift (by omega) (by omega)]
    exact ih (by omega) (by omega) (by omega)

/-- From the zero state, zeros lead to the zero state. -/
theorem tracedPath_zero (h : ∀ k < n, UlViterbi.decoded soft k = false)
    (hn : n ≤ UlViterbi.NUM_STAGES) (h0 : (tracedPath soft).path 0 = 0#4) {t : Nat} (ht : t ≤ n) :
    (tracedPath soft).path t = 0#4 := by
  induction t with
  | zero => exact h0
  | succ t ih =>
    refine BitVec.eq_of_getLsbD_eq fun d hd => ?_
    rw [BitVec.getLsbD_zero]
    cases d with
    | zero =>
      rw [tracedPath_bit (by omega)]
      exact h t (by omega)
    | succ d => rw [tracedPath_shift (by omega) (by omega), ih (by omega), BitVec.getLsbD_zero]

/-! The path of a block of zeros. -/

def zeroPath (n : Nat) : Path UlViterbi.prevState n where
  path _ := 0#4
  choice _ := false
  back _ _ := by decide

theorem tracedPath_sum (h : ∀ k < n, UlViterbi.decoded soft k = false)
    (hn : n ≤ UlViterbi.NUM_STAGES) (h0 : (tracedPath soft).path 0 = 0#4) {t : Nat} (ht : t ≤ n) :
    (tracedPath soft).sum (UlViterbi.costs soft) t =
      (zeroPath n).sum (UlViterbi.costs soft) t := by
  induction t with
  | zero => rfl
  | succ t ih =>
    have hstate := tracedPath_zero h hn h0 ht
    have hprev := tracedPath_zero h hn h0 (Nat.le_of_succ_le ht)
    have hchoice : (tracedPath soft).choice t = false := by
      have hback := (tracedPath soft).back t (by omega)
      have htop := prevState_bit ((tracedPath soft).path (t + 1)) ((tracedPath soft).choice t)
        (d := 3) (by decide)
      rw [hback, hprev, if_pos rfl] at htop
      exact htop.symm
    rw [Path.sum, Path.sum, ih (by omega), hstate, hchoice]
    rfl

/-- A path to the zero state that is cheaper than the zeros keeps the decoder from them. -/
theorem lost_of_cheaper {w : List Bool} (hlen : n ≤ w.length) (hn : n ≤ UlViterbi.NUM_STAGES)
    (h4 : 4 ≤ n) (hend : pathState w n = 0#4)
    (hfit : (blockPath w).sum (UlViterbi.costs soft) n < UlViterbi.PM_MAX)
    (hcheap : (blockPath w).sum (UlViterbi.costs soft) n <
      (zeroPath n).sum (UlViterbi.costs soft) n) :
    ¬∀ k < n, UlViterbi.decoded soft k = false := by
  intro h
  have hlast : (tracedPath soft).path n = 0#4 := by
    refine BitVec.eq_of_getLsbD_eq fun d hd => ?_
    rw [BitVec.getLsbD_zero]
    exact tracedPath_zero_bits h hn (Nat.le_refl n) hd (by omega)
  have hstart : UlViterbi.pmInit ((tracedPath soft).path 0) ≤ UlViterbi.PM_MAX := by
    rw [UlViterbi.pmInit]
    split
    · exact Nat.zero_le _
    · exact Nat.le_refl _
  have hown := (tracedPath soft).metrics_eq (UlViterbi.costs soft) hstart hn fun t _ => rfl
  have hother : metrics UlViterbi.prevState UlViterbi.PM_MAX UlViterbi.pmInit
      (UlViterbi.costs soft) n (pathState w n) ≤ UlViterbi.pmInit ((blockPath w).path 0) +
        (blockPath w).sum (UlViterbi.costs soft) n :=
    (blockPath w).metrics_le (UlViterbi.costs soft) UlViterbi.pmInit hlen
  have hzero : UlViterbi.pmInit ((blockPath w).path 0) = 0 := by
    change UlViterbi.pmInit (pathState w 0) = 0
    rw [pathState_zero]
    rfl
  rw [hlast] at hown
  rw [hend, hzero, Nat.zero_add, hown] at hother
  -- the traced path has not saturated, so it starts in the zero state
  have h0 : (tracedPath soft).path 0 = 0#4 := by
    by_contra hne
    have hmax : UlViterbi.pmInit ((tracedPath soft).path 0) = UlViterbi.PM_MAX := if_neg hne
    rw [hmax] at hother
    omega
  rw [tracedPath_sum h hn h0 (Nat.le_refl n)] at hother
  rcases min_le_iff.1 hother with hsat | hsum
  · exact absurd hfit (Nat.not_lt.2 hsat)
  · exact absurd hcheap (Nat.not_lt.2 ((Nat.le_add_left _ _).trans hsum))

/-! Paths against the zeros, when the bits that differ speak too softly. -/

/-- The bits of an edge that differ from the zeros: `f` counts them. -/
def edgeSum (f : Nat → BitVec 4 → Bool → Nat → Nat) (w : List Bool) (t : Nat) : Nat :=
  f t (pathState w (t + 1)) (shifted w t) 0 + f t (pathState w (t + 1)) (shifted w t) 1 +
    f t (pathState w (t + 1)) (shifted w t) 2 + f t (pathState w (t + 1)) (shifted w t) 3

def pathSum (f : Nat → BitVec 4 → Bool → Nat → Nat) (w : List Bool) : Nat → Nat
  | 0 => 0
  | t + 1 => pathSum f w t + edgeSum f w t

/-- Where the path differs from the zeros, a transmitted bit costs at most 7 more. -/
structure Faint (w : List Bool) (n : Nat) (soft : Nat → Nat → BitVec 5) : Prop where
  kept : ∀ t < n, ∀ g < 4, HuUnit.kept t g = true →
    (UlViterbi.gP0 g (pathState w (t + 1)) ^^ shifted w t) = true → 12 ≤ (soft t g).toNat
  erased : ∀ t < n, ∀ g < 4, HuUnit.kept t g = false → soft t g = HuDecoder.VIT_CENTER

theorem Faint.bit {w : List Bool} (h : Faint w n soft) (ht : t < n) {g : Nat} (hg : g < 4) :
    9 * UlViterbi.softCost (soft t g) (UlViterbi.gP0 g (pathState w (t + 1)) ^^ shifted w t) +
        9 * loss t (pathState w (t + 1)) (shifted w t) g ≤
      9 * UlViterbi.softCost (soft t g) false +
        7 * gain t (pathState w (t + 1)) (shifted w t) g := by
  have hle : (soft t g).toNat ≤ 31 := Nat.le_of_lt_succ (soft t g).isLt
  rw [gain, loss]
  cases hd : UlViterbi.gP0 g (pathState w (t + 1)) ^^ shifted w t with
  | false => simp
  | true =>
    cases hk : HuUnit.kept t g with
    | false =>
      rw [h.erased t ht g hg hk]
      decide
    | true =>
      have hkept := h.kept t ht g hg hk hd
      simp [UlViterbi.softCost, UlViterbi.SOFT_MAX]
      omega

theorem Faint.sum {w : List Bool} (h : Faint w n soft) (ht : t ≤ n) :
    9 * (blockPath w).sum (UlViterbi.costs soft) t + 9 * pathSum loss w t ≤
      9 * (zeroPath n).sum (UlViterbi.costs soft) t + 7 * pathSum gain w t := by
  induction t with
  | zero => exact Nat.le_refl _
  | succ t ih =>
    have hprev := ih (by omega)
    have h0 := h.bit (t := t) (by omega) (g := 0) (by decide)
    have h1 := h.bit (t := t) (by omega) (g := 1) (by decide)
    have h2 := h.bit (t := t) (by omega) (g := 2) (by decide)
    have h3 := h.bit (t := t) (by omega) (g := 3) (by decide)
    have hown : UlViterbi.costs soft t (pathState w (t + 1)) (shifted w t) = _ := bm_eq _ _ _
    have hzero : UlViterbi.costs soft t 0#4 false = UlViterbi.softCost (soft t 0) false +
        UlViterbi.softCost (soft t 1) false + UlViterbi.softCost (soft t 2) false +
          UlViterbi.softCost (soft t 3) false := bm_eq _ _ _
    change 9 * ((blockPath w).sum (UlViterbi.costs soft) t +
        UlViterbi.costs soft t (pathState w (t + 1)) (shifted w t)) +
          9 * (pathSum loss w t + edgeSum loss w t) ≤
      9 * ((zeroPath n).sum (UlViterbi.costs soft) t + UlViterbi.costs soft t 0#4 false) +
        7 * (pathSum gain w t + edgeSum gain w t)
    rw [hown, hzero, edgeSum, edgeSum]
    omega

/-- Zeros are lost when the erasures on another path outweigh what it costs more. -/
theorem Faint.lost {w : List Bool} (h : Faint w n soft) (hlen : n ≤ w.length)
    (hn : n ≤ UlViterbi.NUM_STAGES) (h4 : 4 ≤ n) (hend : pathState w n = 0#4)
    (hgain : 7 * pathSum gain w n < 9 * pathSum loss w n) :
    ¬∀ k < n, UlViterbi.decoded soft k = false := by
  have hsum := h.sum (Nat.le_refl n)
  have hbound := (blockPath w).sum_le (fun t s b => bm_le (soft t) s b) n
  have hcosts : UlViterbi.costs soft = fun t => UlViterbi.bm (soft t) := rfl
  refine lost_of_cheaper hlen hn h4 hend ?_ (by omega)
  rw [hcosts]
  simp only [UlViterbi.NUM_STAGES, UlViterbi.BM_MAX, UlViterbi.SOFT_MAX,
    UlViterbi.PM_MAX] at hn hbound ⊢
  omega

/-! A block that is lost. -/

/-- Bits that the decoder prefers to the first 88 zeros: of the many bits of the mother code in
which they differ, few are transmitted. -/
def strayBits : List Bool := msbBits 0xF58F58F58F58F58F58F590#88 88

/-- A seed whose scrambling sequence leaves the bits in question as they are. -/
def lostSeed : BitVec 32 := 0x0D340103

theorem stray_end : pathState strayBits 88 = 0#4 := by decide +kernel

theorem stray_gain : 7 * pathSum gain strayBits 88 < 9 * pathSum loss strayBits 88 := by
  decide +kernel

theorem zeros_mother : ∀ t < 88, ∀ g < 4, motherBit (typeTwo 0) t g = false := by decide +kernel

theorem stray_unscrambled : ∀ t < 88, ∀ g < 4, HuUnit.kept t g = true →
    (UlViterbi.gP0 g (pathState strayBits (t + 1)) ^^ shifted strayBits t) = true →
      Lmac.lfsrFb (Lmac.lfsrNext^[place HuDecoder.DEINT_A N_TX (HuUnit.keptIdx t g)] lostSeed) =
        false := by
  decide +kernel

/-- Soft values of 4 at most lose the block. -/
theorem block_lost {f : Bool → BitVec 8} (hf : 12 ≤ (HuDecoder.toVitSoft (f false)).toNat) :
    HuUnit.info (received f (reference 0 lostSeed)) lostSeed ≠ 0 := by
  intro h
  have hlen : 88 ≤ strayBits.length := by rw [strayBits, msbBits_length]
  have hfaint : Faint strayBits 88
      (HuUnit.mother (received f (reference 0 lostSeed)) lostSeed) := by
    constructor
    · intro t ht g hg hk hd
      have hidx : HuUnit.keptIdx t g < N_TX := HuUnit.keptIdx_lt (Nat.lt_trans ht (by decide)) hk
      have hbit : (coded 0).getD (HuUnit.keptIdx t g) false = false := by
        have htt : t < (typeTwo 0).length := by
          rw [typeTwo_length]
          exact Nat.lt_trans ht (by decide)
        exact (punctured_get htt hg hk).trans (zeros_mother t ht g hg)
      rw [HuUnit.mother, if_pos hk, deinterleaved_received f 0 lostSeed hidx,
        stray_unscrambled t ht g hg hk hd, if_neg Bool.false_ne_true, hbit]
      exact hf
    · intro t _ g _ hk
      rw [HuUnit.mother, if_neg (Bool.eq_false_iff.1 hk)]
  refine hfaint.lost hlen (by decide) (by decide) stray_end stray_gain fun k hk => ?_
  have hzero := congrArg (fun x => x.getLsbD k) h
  rw [HuUnit.info] at hzero
  rw [getLsbD_written _ (Nat.lt_trans hk (by decide)),
    (by rfl : (0 : BitVec 92).getLsbD k = (0#92).getLsbD k), BitVec.getLsbD_zero] at hzero
  exact hzero

end TetraBs.Lmac.SchHu
