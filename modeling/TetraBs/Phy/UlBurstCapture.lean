import TetraBs.Lib.History
import TetraBs.Phy.UlSyncDetect

/-! `tetra_ul_burst_capture`: the samples of an uplink burst, cut from a ring buffer around the
anchor that the detector's pulse gives. One step is one rising clock edge. -/
namespace TetraBs.Phy
open TetraBs.History

inductive CapturePhase where
  | idle | waitPost | streamCb1 | streamCb2
deriving DecidableEq

structure UlBurstCapture where
  ring : BitVec 9 → IqSample
  wp : BitVec 9
  phaseCnt : BitVec 2
  state : CapturePhase
  anchorIdx : BitVec 9
  cb1Base : BitVec 9
  postCnt : Nat
  streamIdx : Nat
  rdEn : Bool
  rdFirst : Bool
  rdLast : Bool
  rdHalf : Bool
  rdAddr : BitVec 9
  iqOut : IqSample
  iqValid : Bool
  iqFirst : Bool
  iqLast : Bool
  iqHalf : Bool
  burstsCaptured : BitVec 16

namespace UlBurstCapture

/-- The ring is not reset. -/
def reset (ring : BitVec 9 → IqSample) : UlBurstCapture :=
  ⟨ring, 0, 0, .idle, 0, 0, 0, 0, false, false, false, false, 0, ⟨0, 0⟩, false, false, false, false,
    0⟩

def SPS : Nat := 4
def HALF_SYMS : Nat := 43
def CB1_PRE_SMP : Nat := 228
def POST_WAIT_SMP : Nat := 172

def delta (s : UlBurstCapture) (bestPhase : BitVec 2) : BitVec 2 := s.phaseCnt + 3 - bestPhase

def anchorCalc (s : UlBurstCapture) (bestPhase : BitVec 2) : BitVec 9 :=
  s.wp - (delta s bestPhase).setWidth 9 - 1

/-- The address that is issued in a streaming state. -/
def streamAddr (base : BitVec 9) (idx : Nat) : BitVec 9 := base + BitVec.ofNat 9 (idx * SPS)

/-- What every cycle does: it records the sample, reads what was issued, and withdraws the pulses. -/
def tick (s : UlBurstCapture) (iq : IqSample) (valid : Bool) : UlBurstCapture :=
  { s with
    ring := if valid then Function.update s.ring s.wp iq else s.ring
    wp := if valid then s.wp + 1 else s.wp
    phaseCnt := if valid then s.phaseCnt + 1 else s.phaseCnt
    iqOut := if s.rdEn then s.ring s.rdAddr else s.iqOut
    iqValid := s.rdEn
    iqFirst := s.rdFirst
    iqLast := s.rdLast
    iqHalf := s.rdHalf
    rdEn := false
    rdFirst := false
    rdLast := false }

def step (s : UlBurstCapture) (iq : IqSample) (valid syncFound : Bool) (bestPhase : BitVec 2) :
    UlBurstCapture :=
  match s.state with
  | .idle =>
    if syncFound then
      { tick s iq valid with
        anchorIdx := anchorCalc s bestPhase
        cb1Base := anchorCalc s bestPhase - BitVec.ofNat 9 CB1_PRE_SMP
        postCnt := POST_WAIT_SMP
        state := .waitPost }
    else tick s iq valid
  | .waitPost =>
    if valid then
      if s.postCnt ≤ 1 then { tick s iq valid with streamIdx := 0, state := .streamCb1 }
      else { tick s iq valid with postCnt := s.postCnt - 1 }
    else tick s iq valid
  | .streamCb1 =>
    let last := s.streamIdx = HALF_SYMS - 1
    { tick s iq valid with
      rdAddr := streamAddr s.cb1Base s.streamIdx
      rdEn := true
      rdFirst := decide (s.streamIdx = 0)
      rdHalf := false
      streamIdx := if last then 0 else s.streamIdx + 1
      state := if last then .streamCb2 else .streamCb1 }
  | .streamCb2 =>
    let last := s.streamIdx = HALF_SYMS - 1
    { tick s iq valid with
      rdAddr := streamAddr s.anchorIdx s.streamIdx
      rdEn := true
      rdFirst := decide (s.streamIdx = 0)
      rdLast := decide last
      rdHalf := true
      streamIdx := if last then s.streamIdx else s.streamIdx + 1
      burstsCaptured := if last then s.burstsCaptured + 1 else s.burstsCaptured
      state := if last then .idle else .streamCb2 }

variable {s : UlBurstCapture} (iq : IqSample) (valid syncFound : Bool) (bestPhase : BitVec 2)

/-! The recording side, the same in every state. -/

/-- The capture after the samples `xs`. -/
structure Recording (xs : List IqSample) (s : UlBurstCapture) : Prop where
  ring : Records s.ring xs
  wp : s.wp = BitVec.ofNat 9 xs.length
  phaseCnt : s.phaseCnt = BitVec.ofNat 2 xs.length

theorem recording_reset (ring : BitVec 9 → IqSample) : Recording [] (reset ring) :=
  ⟨records_nil ring, rfl, rfl⟩

variable (s) in
/-- The fields that no state touches. -/
theorem step_tick : (step s iq valid syncFound bestPhase).ring = (tick s iq valid).ring ∧
    (step s iq valid syncFound bestPhase).wp = (tick s iq valid).wp ∧
    (step s iq valid syncFound bestPhase).phaseCnt = (tick s iq valid).phaseCnt ∧
    (step s iq valid syncFound bestPhase).iqOut = (tick s iq valid).iqOut ∧
    (step s iq valid syncFound bestPhase).iqValid = s.rdEn ∧
    (step s iq valid syncFound bestPhase).iqFirst = s.rdFirst ∧
    (step s iq valid syncFound bestPhase).iqLast = s.rdLast ∧
    (step s iq valid syncFound bestPhase).iqHalf = s.rdHalf := by
  unfold step
  cases s.state with
  | idle => cases syncFound <;> exact ⟨rfl, rfl, rfl, rfl, rfl, rfl, rfl, rfl⟩
  | waitPost =>
    dsimp only
    split
    · split <;> exact ⟨rfl, rfl, rfl, rfl, rfl, rfl, rfl, rfl⟩
    · exact ⟨rfl, rfl, rfl, rfl, rfl, rfl, rfl, rfl⟩
  | streamCb1 => exact ⟨rfl, rfl, rfl, rfl, rfl, rfl, rfl, rfl⟩
  | streamCb2 => exact ⟨rfl, rfl, rfl, rfl, rfl, rfl, rfl, rfl⟩

theorem Recording.step {xs : List IqSample} (h : Recording xs s) :
    Recording (if valid then xs ++ [iq] else xs)
      (UlBurstCapture.step s iq valid syncFound bestPhase) := by
  obtain ⟨hring, hwp, hphase, -⟩ := step_tick s iq valid syncFound bestPhase
  cases valid with
  | false => exact ⟨by rw [hring]; exact h.ring, by rw [hwp]; exact h.wp,
      by rw [hphase]; exact h.phaseCnt⟩
  | true =>
    refine ⟨?_, ?_, ?_⟩
    · rw [hring, tick, h.wp]
      exact h.ring.push iq
    · simp [hwp, tick, h.wp, BitVec.ofNat_add]
    · simp [hphase, tick, h.phaseCnt, BitVec.ofNat_add]

/-! One burst. -/

/-- The pulse was accepted with the anchor `a`; since then `n` samples have come. -/
structure Waiting (a : BitVec 9) (n : Nat) (s : UlBurstCapture) : Prop where
  state : s.state = .waitPost
  anchorIdx : s.anchorIdx = a
  cb1Base : s.cb1Base = a - 228
  postCnt : s.postCnt + n = POST_WAIT_SMP
  pos : 1 ≤ s.postCnt

/-- The `k`-th of the 86 addresses is to be issued. -/
structure Streaming (a : BitVec 9) (k : Nat) (s : UlBurstCapture) : Prop where
  state : s.state = if k < HALF_SYMS then .streamCb1 else .streamCb2
  anchorIdx : s.anchorIdx = a
  cb1Base : s.cb1Base = a - 228
  streamIdx : s.streamIdx = if k < HALF_SYMS then k else k - HALF_SYMS

/-- Where the `k`-th sample lies from the anchor: 43 symbols from 57 before it, then 43 from the
anchor on. -/
def offset (k : Nat) : Int := if k < HALF_SYMS then 4 * k - 228 else 4 * (k - HALF_SYMS : Nat)

theorem offset_bounds {k : Nat} (hk : k < 2 * HALF_SYMS) :
    (k : Int) - 314 ≤ offset k ∧ offset k ≤ 168 := by
  unfold offset
  split
  · simp only [HALF_SYMS] at *
    omega
  · simp only [HALF_SYMS] at *
    omega

theorem waiting_accept (hs : s.state = .idle) : Waiting (anchorCalc s bestPhase) 0
    (step s iq valid true bestPhase) := by
  rw [step, hs]
  exact ⟨rfl, rfl, rfl, rfl, (by decide : 1 ≤ POST_WAIT_SMP)⟩

theorem Waiting.step {a : BitVec 9} {n : Nat} (h : Waiting a n s) :
    let s' := UlBurstCapture.step s iq valid syncFound bestPhase
    let n' := if valid then n + 1 else n
    (s'.state = .waitPost → Waiting a n' s') ∧
      (s'.state = .streamCb1 → Streaming a 0 s' ∧ n' = POST_WAIT_SMP) := by
  have hcnt := h.postCnt
  have hpos := h.pos
  intro s' n'
  cases valid with
  | false =>
    have hs' : s'.state = .waitPost ∧ s'.anchorIdx = s.anchorIdx ∧ s'.cb1Base = s.cb1Base ∧
        s'.postCnt = s.postCnt := by simp [s', UlBurstCapture.step, tick, h.state]
    obtain ⟨hstate, hanchor, hbase, hpost⟩ := hs'
    refine ⟨fun _ => ⟨hstate, hanchor.trans h.anchorIdx, hbase.trans h.cb1Base, ?_, ?_⟩, fun hno => ?_⟩
    · rw [hpost]
      exact hcnt
    · rw [hpost]
      exact hpos
    · rw [hstate] at hno
      cases hno
  | true =>
    by_cases hlast : s.postCnt ≤ 1
    · have hs' : s'.state = .streamCb1 ∧ s'.anchorIdx = s.anchorIdx ∧ s'.cb1Base = s.cb1Base ∧
          s'.streamIdx = 0 := by simp [s', UlBurstCapture.step, tick, h.state, hlast]
      obtain ⟨hstate, hanchor, hbase, hidx⟩ := hs'
      refine ⟨fun hno => ?_, fun _ => ⟨⟨hstate, hanchor.trans h.anchorIdx, hbase.trans h.cb1Base,
        hidx⟩, ?_⟩⟩
      · rw [hstate] at hno
        cases hno
      · simp only [n', if_true]
        omega
    · have hs' : s'.state = .waitPost ∧ s'.anchorIdx = s.anchorIdx ∧ s'.cb1Base = s.cb1Base ∧
          s'.postCnt = s.postCnt - 1 := by simp [s', UlBurstCapture.step, tick, h.state, hlast]
      obtain ⟨hstate, hanchor, hbase, hpost⟩ := hs'
      refine ⟨fun _ => ⟨hstate, hanchor.trans h.anchorIdx, hbase.trans h.cb1Base, ?_, ?_⟩,
        fun hno => ?_⟩
      · simp only [n', if_true]
        omega
      · omega
      · rw [hstate] at hno
        cases hno

/-- The address of the `k`-th sample, and the marks that go with it. -/
structure Issued (a : BitVec 9) (k : Nat) (s : UlBurstCapture) : Prop where
  rdEn : s.rdEn = true
  rdAddr : s.rdAddr = a + BitVec.ofInt 9 (offset k)
  rdFirst : s.rdFirst = decide (k = 0 ∨ k = HALF_SYMS)
  rdLast : s.rdLast = decide (k = 2 * HALF_SYMS - 1)
  rdHalf : s.rdHalf = decide (HALF_SYMS ≤ k)

theorem cb1_addr (a : BitVec 9) {k : Nat} (hk : k < HALF_SYMS) :
    streamAddr (a - 228) k = a + BitVec.ofInt 9 (offset k) := by
  have hoff : BitVec.ofInt 9 (offset k) = BitVec.ofNat 9 (k * SPS) - 228 := by
    have hsum : offset k = ((k * SPS : Nat) : Int) + (-228 : Int) := by
      rw [offset, if_pos hk, SPS]
      push_cast
      omega
    have hneg : BitVec.ofInt 9 (-228) = -228 := by decide
    rw [hsum, BitVec.ofInt_add, BitVec.ofInt_natCast, hneg, BitVec.sub_eq_add_neg]
  rw [hoff, streamAddr]
  bv_omega

theorem cb2_addr (a : BitVec 9) {k : Nat} (hk : ¬ k < HALF_SYMS) :
    streamAddr a (k - HALF_SYMS) = a + BitVec.ofInt 9 (offset k) := by
  have hsum : offset k = (((k - HALF_SYMS) * SPS : Nat) : Int) := by
    rw [offset, if_neg hk, SPS]
    push_cast
    omega
  rw [hsum, BitVec.ofInt_natCast, streamAddr]

theorem Streaming.step {a : BitVec 9} {k : Nat} (h : Streaming a k s) (hk : k < 2 * HALF_SYMS) :
    let s' := UlBurstCapture.step s iq valid syncFound bestPhase
    Issued a k s' ∧ (k + 1 < 2 * HALF_SYMS → Streaming a (k + 1) s') := by
  intro s'
  have hstate := h.state
  have hidx := h.streamIdx
  by_cases hhalf : k < HALF_SYMS
  · rw [if_pos hhalf] at hstate hidx
    have hs' : s' = { tick s iq valid with
        rdAddr := streamAddr s.cb1Base k
        rdEn := true
        rdFirst := decide (k = 0)
        rdHalf := false
        streamIdx := if k = HALF_SYMS - 1 then 0 else k + 1
        state := if k = HALF_SYMS - 1 then .streamCb2 else .streamCb1 } := by
      simp only [s', UlBurstCapture.step, hstate, hidx]
    rw [hs']
    have hne : k ≠ HALF_SYMS := by omega
    have hnot : ¬ k = 2 * HALF_SYMS - 1 := by
      simp only [HALF_SYMS] at *
      omega
    refine ⟨⟨rfl, ?_, by simp [hne], by simp [tick, hnot], by simp; omega⟩, fun hnext => ?_⟩
    · rw [h.cb1Base]
      exact cb1_addr a hhalf
    · by_cases hlast : k = HALF_SYMS - 1
      · have hge : ¬ k + 1 < HALF_SYMS := by omega
        refine ⟨by simp [hlast, HALF_SYMS], h.anchorIdx, h.cb1Base, ?_⟩
        simp [hlast, HALF_SYMS]
      · have hlt : k + 1 < HALF_SYMS := by omega
        exact ⟨by simp [hlast, hlt], h.anchorIdx, h.cb1Base, by simp [hlast, hlt]⟩
  · rw [if_neg hhalf] at hstate hidx
    have hs' : s' = { tick s iq valid with
        rdAddr := streamAddr s.anchorIdx (k - HALF_SYMS)
        rdEn := true
        rdFirst := decide (k - HALF_SYMS = 0)
        rdLast := decide (k - HALF_SYMS = HALF_SYMS - 1)
        rdHalf := true
        streamIdx := if k - HALF_SYMS = HALF_SYMS - 1 then k - HALF_SYMS else k - HALF_SYMS + 1
        burstsCaptured :=
          if k - HALF_SYMS = HALF_SYMS - 1 then s.burstsCaptured + 1 else s.burstsCaptured
        state := if k - HALF_SYMS = HALF_SYMS - 1 then .idle else .streamCb2 } := by
      simp only [s', UlBurstCapture.step, hstate, hidx]
    rw [hs']
    refine ⟨⟨rfl, ?_, ?_, ?_, by simp; omega⟩, fun hnext => ?_⟩
    · rw [h.anchorIdx]
      exact cb2_addr a hhalf
    · simp only [HALF_SYMS] at *
      exact decide_eq_decide.2 (by omega)
    · simp only [HALF_SYMS] at *
      exact decide_eq_decide.2 (by omega)
    · have hlast : ¬ k - HALF_SYMS = HALF_SYMS - 1 := by omega
      have hge : ¬ k + 1 < HALF_SYMS := by omega
      refine ⟨by simp [hlast, hge], h.anchorIdx, h.cb1Base, ?_⟩
      simp only [if_neg hlast, if_neg hge]
      omega

/-- The `k`-th sample of the burst is on the output, with its marks. -/
structure Presents (x : IqSample) (k : Nat) (s : UlBurstCapture) : Prop where
  iqValid : s.iqValid = true
  iqOut : s.iqOut = x
  iqFirst : s.iqFirst = decide (k = 0 ∨ k = HALF_SYMS)
  iqLast : s.iqLast = decide (k = 2 * HALF_SYMS - 1)
  iqHalf : s.iqHalf = decide (HALF_SYMS ≤ k)

theorem Issued.step {a : BitVec 9} {k : Nat} (h : Issued a k s) :
    Presents (s.ring (a + BitVec.ofInt 9 (offset k))) k
      (UlBurstCapture.step s iq valid syncFound bestPhase) := by
  obtain ⟨-, -, -, hout, hvalid, hfirst, hlast, hhalf⟩ :=
    step_tick s iq valid syncFound bestPhase
  refine ⟨hvalid.trans h.rdEn, ?_, hfirst.trans h.rdFirst, hlast.trans h.rdLast,
    hhalf.trans h.rdHalf⟩
  rw [hout, tick, ← h.rdAddr]
  exact if_pos h.rdEn

end UlBurstCapture
end TetraBs.Phy
