import Mathlib.Order.Nat
import TetraBs.Lib.Run
import TetraBs.Phy.UlBurstCapture

/-! Detector and capture on the same samples: which sample the capture takes for the last one of the
training sequence. -/
namespace TetraBs.Phy
open TetraBs.History TetraBs.Run

structure UlFrontend where
  det : UlSyncDetect
  cap : UlBurstCapture

namespace UlFrontend

def step (HOLDOFF : BitVec 8) (s : UlFrontend) (i : UlIqInput) : UlFrontend where
  det := s.det.step HOLDOFF i
  cap := s.cap.step i.iq i.valid s.det.syncFound s.det.bestPhase

/-- The state before cycle `t`. -/
def run (HOLDOFF : BitVec 8) (ring : BitVec 9 → IqSample) (inp : Nat → UlIqInput) (t : Nat) :
    UlFrontend :=
  clocked (fun _ => step HOLDOFF) ⟨.reset, .reset ring⟩ inp t

/-- The samples before cycle `t`. -/
def samples (inp : Nat → UlIqInput) : Nat → List IqSample
  | 0 => []
  | t + 1 => if (inp t).valid then samples inp t ++ [(inp t).iq] else samples inp t

end UlFrontend

open UlFrontend

section
variable (HOLDOFF : BitVec 8) (ring : BitVec 9 → IqSample) (inp : Nat → UlIqInput)

theorem run_tracks (t : Nat) : (run HOLDOFF ring inp t).det.Tracks (samples inp t) := by
  induction t with
  | zero => exact UlSyncDetect.tracks_reset
  | succ t ih =>
    rw [samples]
    cases hv : (inp t).valid with
    | true => exact ih.push HOLDOFF hv
    | false => exact ih.idle HOLDOFF hv

theorem run_recording (t : Nat) : (run HOLDOFF ring inp t).cap.Recording (samples inp t) := by
  induction t with
  | zero => exact UlBurstCapture.recording_reset ring
  | succ t ih => exact ih.step _ _ _ _

/-- The detector fires in cycle `c`, and the capture accepts the pulse in the next one. -/
def Accepted (c : Nat) : Prop :=
  (run HOLDOFF ring inp c).det.syncFire (inp c) = true ∧
    (run HOLDOFF ring inp (c + 1)).cap.state = .idle

/-- The winning phase when the detector fires in cycle `c`. -/
def winner (c : Nat) : BitVec 2 := (run HOLDOFF ring inp c).det.bestPhaseW

/-- The newest sample of the winning phase at that time. -/
def lastOfWindow (c : Nat) : Int := newest (samples inp c).length (winner HOLDOFF ring inp c)

/-- The burst of the pulse fired in cycle `c` is cut around the sample `m`: when the samples after it
have come, the 86 outputs are the samples from 57 symbols before `m` to 42 symbols after it. -/
def CutAround (c : Nat) (m : Int) : Prop :=
  ∀ u, c + 1 < u → (∀ v, c + 1 < v → v < u → (run HOLDOFF ring inp v).cap.state = .waitPost) →
    (run HOLDOFF ring inp u).cap.state = .streamCb1 →
    ∀ k < 2 * UlBurstCapture.HALF_SYMS, ∀ j : Nat, (j : Int) = m + UlBurstCapture.offset k →
      ∃ x, (samples inp (u + k + 2))[j]? = some x ∧
        (run HOLDOFF ring inp (u + k + 2)).cap.Presents x k

/-- The window of the winning correlator ends with the sample that the capture takes as its anchor, and
the burst is cut around it. -/
structure Aligned (c : Nat) : Prop where
  window : ∀ j < 15, ((run HOLDOFF ring inp c).det.sreg (winner HOLDOFF ring inp c)).extractLsb'
    (2 * j) 2 = dibitAt (samples inp c) (lastOfWindow HOLDOFF ring inp c - 4 * j)
  anchor : (run HOLDOFF ring inp (c + 2)).cap.anchorIdx =
    BitVec.ofInt 9 (lastOfWindow HOLDOFF ring inp c)
  cut : CutAround HOLDOFF ring inp c (lastOfWindow HOLDOFF ring inp c)

end

/-- The anchor that the capture computes for the phase `p` when the `n`-th sample is the newest. -/
theorem anchor_value (n : Nat) (p : BitVec 2) :
    BitVec.ofNat 9 (n + 1) - (BitVec.ofNat 2 (n + 1) + 3 - p).setWidth 9 - 1 =
      BitVec.ofInt 9 (n - (n - p.toNat : Int) % 4) := by
  have hp := p.isLt
  obtain ⟨d, hd⟩ : ∃ d : Nat, ((n - p.toNat : Int) % 4) = d :=
    ⟨((n - p.toNat : Int) % 4).toNat, by omega⟩
  have hdelta : (BitVec.ofNat 2 (n + 1) + 3 - p).setWidth 9 = BitVec.ofNat 9 d := by
    have hthree : (3 : BitVec 2).toNat = 3 := rfl
    refine BitVec.eq_of_toNat_eq ?_
    simp only [BitVec.toNat_setWidth, BitVec.toNat_sub, BitVec.toNat_add, BitVec.toNat_ofNat, hthree]
    omega
  have hsum : (n : Int) - d = n + -(d : Int) := by omega
  rw [hd, hdelta, hsum, BitVec.ofInt_add, BitVec.ofInt_neg, BitVec.ofInt_natCast,
    BitVec.ofInt_natCast, BitVec.ofNat_add]
  bv_omega

/-- It is the newest sample of the phase, unless the `n`-th has the phase itself. -/
theorem anchor_eq_iff (n : Nat) (p : BitVec 2) :
    BitVec.ofInt 9 (n - (n - p.toNat : Int) % 4) = BitVec.ofInt 9 (newest n p) ↔
      p ≠ BitVec.ofNat 2 n := by
  have hp := p.isLt
  constructor
  · rintro heq rfl
    have hzero : (n - (BitVec.ofNat 2 n).toNat : Int) % 4 = 0 := by
      rw [BitVec.toNat_ofNat]
      omega
    have hsub : (n : Int) - 4 = n + -4 := by omega
    rw [hzero, newest_own, hsub, Int.sub_zero, BitVec.ofInt_add, BitVec.ofInt_natCast] at heq
    have hneg : BitVec.ofInt 9 (-4) = -4 := by decide
    rw [hneg] at heq
    bv_omega
  · intro hne
    have hphase : p.toNat ≠ n % 4 := by
      intro heq
      exact hne (BitVec.eq_of_toNat_eq (by rw [heq, BitVec.toNat_ofNat]))
    have hsame : (n : Int) - (n - p.toNat : Int) % 4 = newest n p := by
      unfold newest
      omega
    rw [hsame]

section
variable {HOLDOFF : BitVec 8} {ring : BitVec 9 → IqSample} {inp : Nat → UlIqInput} {c : Nat}

theorem Accepted.anchor (h : Accepted HOLDOFF ring inp c) :
    (run HOLDOFF ring inp (c + 2)).cap.Waiting (BitVec.ofInt 9
      ((samples inp c).length -
        ((samples inp c).length - (winner HOLDOFF ring inp c).toNat : Int) % 4)) 0 := by
  obtain ⟨hfire, hidle⟩ := h
  have hvalid : (inp c).valid = true := by
    simp only [UlSyncDetect.syncFire, Bool.and_eq_true] at hfire
    exact hfire.1.1
  have hrec := run_recording HOLDOFF ring inp (c + 1)
  have hlen : (samples inp (c + 1)).length = (samples inp c).length + 1 := by simp [samples, hvalid]
  have hfound : (run HOLDOFF ring inp (c + 1)).det.syncFound = true := hfire
  have hbest : (run HOLDOFF ring inp (c + 1)).det.bestPhase = winner HOLDOFF ring inp c :=
    if_pos hfire
  have hstep : (run HOLDOFF ring inp (c + 2)).cap = (run HOLDOFF ring inp (c + 1)).cap.step
      (inp (c + 1)).iq (inp (c + 1)).valid true (winner HOLDOFF ring inp c) := by
    rw [← hfound, ← hbest]
    rfl
  have hwait := UlBurstCapture.waiting_accept (inp (c + 1)).iq (inp (c + 1)).valid
    (winner HOLDOFF ring inp c) hidle
  rwa [UlBurstCapture.anchorCalc, UlBurstCapture.delta, hrec.wp, hrec.phaseCnt, hlen, anchor_value,
    ← hstep] at hwait

theorem samples_length_succ (inp : Nat → UlIqInput) (t : Nat) : (samples inp (t + 1)).length =
    if (inp t).valid then (samples inp t).length + 1 else (samples inp t).length := by
  rw [samples]
  split
  · rw [List.length_append, List.length_singleton]
  · rfl

theorem samples_mono (inp : Nat → UlIqInput) (t k : Nat) :
    (samples inp t).length ≤ (samples inp (t + k)).length ∧
      (samples inp (t + k)).length ≤ (samples inp t).length + k := by
  induction k with
  | zero => exact ⟨Nat.le_refl _, Nat.le_refl _⟩
  | succ k ih =>
    rw [← Nat.add_assoc, samples_length_succ]
    split <;> omega

theorem samples_kept (inp : Nat → UlIqInput) {t j : Nat} (hj : j < (samples inp t).length) :
    (samples inp (t + 1))[j]? = some (samples inp t)[j] := by
  rw [samples]
  split
  · rw [List.getElem?_append_left hj, List.getElem?_eq_getElem hj]
  · rw [List.getElem?_eq_getElem hj]

/-- The wait, and the first streaming cycle after it. -/
theorem waiting_run {a : BitVec 9} (hstart : (run HOLDOFF ring inp (c + 2)).cap.Waiting a 0)
    {u : Nat} (hu : c + 2 ≤ u)
    (hwait : ∀ v, c + 1 < v → v < u → (run HOLDOFF ring inp v).cap.state = .waitPost) :
    ((run HOLDOFF ring inp u).cap.state = .waitPost → (run HOLDOFF ring inp u).cap.Waiting a
        ((samples inp u).length - (samples inp (c + 2)).length)) ∧
      ((run HOLDOFF ring inp u).cap.state = .streamCb1 →
        (run HOLDOFF ring inp u).cap.Streaming a 0 ∧
          (samples inp u).length = (samples inp (c + 2)).length + UlBurstCapture.POST_WAIT_SMP) := by
  induction u, hu using Nat.le_induction with
  | base =>
    refine ⟨fun _ => by rwa [Nat.sub_self], fun hno => ?_⟩
    rw [hstart.state] at hno
    cases hno
  | succ u hu ih =>
    obtain ⟨hbefore, -⟩ := ih fun v hv hvu => hwait v hv (by omega)
    have hnow := hbefore (hwait u (by omega) (by omega))
    obtain ⟨hstay, hgo⟩ := hnow.step (inp u).iq (inp u).valid
      (run HOLDOFF ring inp u).det.syncFound (run HOLDOFF ring inp u).det.bestPhase
    have hle := (samples_mono inp (c + 2) (u - (c + 2))).1
    rw [(by omega : c + 2 + (u - (c + 2)) = u)] at hle
    have hcount : (if (inp u).valid then (samples inp u).length - (samples inp (c + 2)).length + 1
        else (samples inp u).length - (samples inp (c + 2)).length) =
          (samples inp (u + 1)).length - (samples inp (c + 2)).length := by
      rw [samples_length_succ inp u]
      split <;> omega
    rw [hcount] at hstay hgo
    refine ⟨hstay, fun hstream => ?_⟩
    obtain ⟨hfirst, hlen⟩ := hgo hstream
    refine ⟨hfirst, ?_⟩
    simp only [UlBurstCapture.POST_WAIT_SMP] at hlen ⊢
    omega

theorem streaming_run {a : BitVec 9} {u : Nat} (h : (run HOLDOFF ring inp u).cap.Streaming a 0)
    {k : Nat} (hk : k < 2 * UlBurstCapture.HALF_SYMS) :
    (run HOLDOFF ring inp (u + k)).cap.Streaming a k := by
  induction k with
  | zero => exact h
  | succ k ih => exact ((ih (by omega)).step _ _ _ _ (by omega)).2 hk

/-- A capture that starts with the number of `m` as its anchor cuts the burst around `m`. -/
theorem cutAround_of_anchor {m : Int} (hm : m < (samples inp c).length)
    (hnear : (samples inp c).length ≤ m + 4) (hvalid : (inp c).valid = true)
    (hstart : (run HOLDOFF ring inp (c + 2)).cap.Waiting (BitVec.ofInt 9 m) 0) :
    CutAround HOLDOFF ring inp c m := by
  intro u hu hwait hstream k hk j hj
  obtain ⟨hfirst, hlen⟩ := (waiting_run hstart (by omega) hwait).2 hstream
  have hissued := ((streaming_run hfirst hk).step (inp (u + k)).iq (inp (u + k)).valid
    (run HOLDOFF ring inp (u + k)).det.syncFound (run HOLDOFF ring inp (u + k)).det.bestPhase
    hk).1
  have hpresents := hissued.step (inp (u + k + 1)).iq (inp (u + k + 1)).valid
    (run HOLDOFF ring inp (u + k + 1)).det.syncFound
    (run HOLDOFF ring inp (u + k + 1)).det.bestPhase
  -- the sample is in the ring: it has come, and fewer than 512 have come since
  have hone := samples_length_succ inp c
  rw [if_pos hvalid] at hone
  have hgap : (samples inp (c + 1)).length ≤ (samples inp (c + 2)).length ∧
      (samples inp (c + 2)).length ≤ (samples inp (c + 1)).length + 1 := samples_mono inp (c + 1) 1
  have hread := samples_mono inp u (k + 1)
  rw [← Nat.add_assoc] at hread
  obtain ⟨hlow, hhigh⟩ := UlBurstCapture.offset_bounds hk
  simp only [UlBurstCapture.HALF_SYMS] at hk
  simp only [UlBurstCapture.POST_WAIT_SMP] at hlen
  have hj1 : j < (samples inp (u + k + 1)).length := by omega
  have hj2 : (samples inp (u + k + 1)).length ≤ j + 2 ^ 9 := by omega
  have haddr : BitVec.ofInt 9 m + BitVec.ofInt 9 (UlBurstCapture.offset k) = BitVec.ofNat 9 j := by
    rw [← BitVec.ofInt_add, ← hj, BitVec.ofInt_natCast]
  have hring := (run_recording HOLDOFF ring inp (u + k + 1)).ring j hj1 hj2
  refine ⟨_, samples_kept inp hj1, ?_⟩
  rw [← hring, ← haddr]
  exact hpresents

/-- The accepted pulse of cycle `c` is aligned exactly if the sample that comes in with it does not have
the winning phase. -/
theorem Accepted.aligned_iff (h : Accepted HOLDOFF ring inp c) :
    Aligned HOLDOFF ring inp c ↔
      winner HOLDOFF ring inp c ≠ (run HOLDOFF ring inp c).det.phaseCnt := by
  have htracks := run_tracks HOLDOFF ring inp c
  have hvalid : (inp c).valid = true := by
    have hfire := h.1
    simp only [UlSyncDetect.syncFire, Bool.and_eq_true] at hfire
    exact hfire.1.1
  have hstart := h.anchor
  rw [htracks.phaseCnt, ← anchor_eq_iff, ← lastOfWindow]
  constructor
  · intro haligned
    rw [← hstart.anchorIdx, haligned.anchor]
  · intro heq
    rw [heq] at hstart
    have hlt := newest_lt (samples inp c).length (winner HOLDOFF ring inp c)
    have hnear : ((samples inp c).length : Int) ≤ lastOfWindow HOLDOFF ring inp c + 4 := by
      unfold lastOfWindow newest
      omega
    exact ⟨fun j hj => htracks.sreg _ j hj, hstart.anchorIdx,
      cutAround_of_anchor hlt hnear hvalid hstart⟩

end

/-- Over every stream of samples: all accepted pulses are aligned exactly if none of them comes with a
sample of the winning phase itself, which the correlator has not yet taken up. -/
theorem ul_timing_aligned_iff (HOLDOFF : BitVec 8) (ring : BitVec 9 → IqSample)
    (inp : Nat → UlIqInput) :
    (∀ c, Accepted HOLDOFF ring inp c → Aligned HOLDOFF ring inp c) ↔
      ∀ c, Accepted HOLDOFF ring inp c →
        (run HOLDOFF ring inp c).det.bestPhaseW ≠ (run HOLDOFF ring inp c).det.phaseCnt :=
  forall_congr' fun _ => imp_congr_right fun h => h.aligned_iff

/-- Zeros, under a threshold that is lowered after the first four samples. -/
def loweredThreshold (t : Nat) : UlIqInput where
  iq := ⟨0, 0⟩
  valid := true
  resetPeak := false
  corrThreshold := if t < 4 then 15 else 0

/-- The pulse fired with the fifth sample is taken for that sample, one symbol late. -/
theorem lowered_threshold_misaligned :
    ¬ ∀ inp c, Accepted 50 (fun _ => ⟨0, 0⟩) inp c → Aligned 50 (fun _ => ⟨0, 0⟩) inp c := by
  intro h
  have haccepted : Accepted 50 (fun _ => ⟨0, 0⟩) loweredThreshold 4 :=
    ⟨by decide +kernel, by decide +kernel⟩
  have haligned := haccepted.aligned_iff.1 (h _ _ haccepted)
  exact absurd haligned (by decide +kernel)

end TetraBs.Phy
