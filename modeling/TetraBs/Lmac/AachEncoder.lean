import TetraBs.Lmac.BlockEncoder

/-! The scrambling sequence of the integrated modules, and how a mask register takes it up. -/
namespace TetraBs.Lmac
open TetraBs.Bits TetraBs.BitRegister TetraBs.Lfsr TetraBs.Run

/-- The feedback bits of the register that starts from `seed`. -/
def cellSequence (n : Nat) (seed : BitVec 32) : List Bool :=
  stream lfsrNext lfsrFb n seed

theorem cellSequence_length (n : Nat) (seed : BitVec 32) : (cellSequence n seed).length = n :=
  stream_length _ _ n seed

/-- After `cnt` steps the mask holds the first `cnt` bits, from its top bit down. -/
structure MaskTracks {n : Nat} (seed : BitVec 32) (mask : BitVec n) (lfsr : BitVec 32)
    (cnt : Nat) : Prop where
  lfsr : lfsr = lfsrNext^[cnt] seed
  mask : Filled mask (cellSequence cnt seed)

variable {n : Nat} {seed lfsr : BitVec 32} {mask : BitVec n} {cnt : Nat}

theorem maskTracks_zero (seed : BitVec 32) (mask : BitVec n) : MaskTracks seed mask seed 0 :=
  ⟨rfl, filled_nil mask⟩

theorem MaskTracks.step (h : MaskTracks seed mask lfsr cnt) (hcnt : cnt < n) :
    MaskTracks seed (writeBit mask (n - 1 - cnt) (lfsrFb lfsr)) (lfsrNext lfsr) (cnt + 1) where
  lfsr := by rw [h.lfsr, Function.iterate_succ_apply']
  mask := by
    have hlen : (cellSequence cnt seed).length < n := by rwa [cellSequence_length]
    have hpush := h.mask.push hlen (lfsrFb lfsr)
    rw [cellSequence_length] at hpush
    rwa [cellSequence, stream_succ, ← h.lfsr]

theorem MaskTracks.full (h : MaskTracks seed mask lfsr n) : msbBits mask n = cellSequence n seed :=
  h.mask.msbBits_eq (cellSequence_length n seed)

/-! In the encoders of the signalling channels. -/

/-- A block started with `seed`, as far as it has come. -/
def SchEncoder.Scrambles {k n : Nat} (seed : BitVec 32) (s : SchEncoder k n) : Prop :=
  match s.state with
  | .idle => True
  | .crc | .build | .rcpc => s.lfsr = seed
  | .scram => s.cnt < n ∧ MaskTracks seed s.mask s.lfsr s.cnt
  | .finish => MaskTracks seed s.mask s.lfsr n

theorem SchEncoder.scrambles_step (a : Nat) {k : Nat} (hn : 0 < n) {s : SchEncoder k n}
    (h : s.Scrambles seed) (hbusy : s.state ≠ .idle) (i : SchInput k) :
    (SchEncoder.step a s i).Scrambles seed := by
  cases hs : s.state with
  | idle => exact absurd hs hbusy
  | crc =>
    simp only [Scrambles, hs] at h
    simp only [step, hs]
    by_cases hc : s.cnt = k - 1
    · simpa [hc, Scrambles] using h
    · simpa [hc, Scrambles, hs] using h
  | build =>
    simp only [Scrambles, hs] at h
    simpa [step, hs, Scrambles] using h
  | rcpc =>
    simp only [Scrambles, hs] at h
    simp only [step, hs]
    by_cases hc : s.cnt = k + 19
    · simp only [hc, if_true, Scrambles, h]
      exact ⟨hn, maskTracks_zero seed s.mask⟩
    · simpa [hc, Scrambles, hs] using h
  | scram =>
    simp only [Scrambles, hs] at h
    obtain ⟨hcnt, htracks⟩ := h
    have hnext := htracks.step hcnt
    simp only [step, hs]
    by_cases hc : s.cnt = n - 1
    · have hlast : s.cnt + 1 = n := by omega
      rw [hlast] at hnext
      simpa [hc, Scrambles] using hnext
    · have hlt : s.cnt + 1 < n := by omega
      simpa [hc, Scrambles, hs, hlt] using hnext
  | finish => simp [step, hs, Scrambles]

theorem SchEncoder.scrambles_start (a : Nat) {k : Nat} {s : SchEncoder k n}
    (hs : s.state = .idle) {i : SchInput k} (hstart : i.encodeStart = true) :
    (SchEncoder.step a s i).Scrambles i.scrambleInit := by
  simp [step, hs, hstart, Scrambles]

/-- At the end of a block its mask is the sequence of the seed it was started with. -/
theorem SchEncoder.mask_eq (a : Nat) {k : Nat} (hn : 0 < n) {s : SchEncoder k n}
    (hs : s.state = .idle) {i : SchInput k} (hstart : i.encodeStart = true)
    {is : List (SchInput k)}
    (hbusy : Along (SchEncoder.step a) (fun t _ => t.state ≠ .idle) (SchEncoder.step a s i) is)
    (hfinish : (exec (SchEncoder.step a) s (i :: is)).state = .finish) :
    msbBits (exec (SchEncoder.step a) s (i :: is)).mask n = cellSequence n i.scrambleInit := by
  rw [exec] at hfinish ⊢
  have hrun : (exec (SchEncoder.step a) (SchEncoder.step a s i) is).Scrambles i.scrambleInit :=
    exec_invariant (SchEncoder.Scrambles i.scrambleInit)
      (fun t j ht hj => scrambles_step a hn ht hj j) (scrambles_start a hs hstart) hbusy
  simp only [Scrambles, hfinish] at hrun
  exact hrun.full

end TetraBs.Lmac

/-! `tetra_aach_encoder`: the access assignment word of a slot, coded by RM(30,14) and scrambled
with the cell's sequence. One step is one rising clock edge. -/
namespace TetraBs.Lmac
open TetraBs.Bits TetraBs.BitRegister TetraBs.Lfsr TetraBs.Run

structure AachInput where
  fn : BitVec 5
  tn : BitVec 2
  mnLow2 : BitVec 2
  colourCode : BitVec 6
  mcc : BitVec 10
  mnc : BitVec 14
  signallingActive : Bool
  grantPending : Bool
  grantInfo : BitVec 14
  encodeStart : Bool

inductive AachPhase where
  | idle | mask | done
deriving DecidableEq

structure AachEncoder where
  state : AachPhase
  maskCnt : Nat
  lfsr : BitVec 32
  mask : BitVec 30
  info : BitVec 14
  aachCoded : BitVec 30
  aachValid : Bool
  grantConsume : Bool

namespace AachEncoder

def reset : AachEncoder := ⟨.idle, 0, 0, 0, 0, 0, false, false⟩

/-- `RM_ROW00` to `RM_ROW13`; row `k` belongs to `info[13 - k]`. -/
def RM_ROWS : List (BitVec 30) :=
  [0x20009B60, 0x10002DE0, 0x0800FC20, 0x0400E03C, 0x0200983A, 0x01005436, 0x00802C2E,
    0x0040FFDF, 0x00208339, 0x001042B5, 0x000821AD, 0x00041273, 0x0002096B, 0x000104E7]

def rmEncode (u : BitVec 14) : BitVec 30 :=
  (List.range 14).foldr
    (fun k word => (if u.getLsbD (13 - k) then RM_ROWS.getD k 0 else 0) ^^^ word) 0

/-- The pending grant replaces the word of an idle slot 0 outside frame 18. -/
def takesGrant (i : AachInput) : Bool :=
  i.fn ≠ 17 && (i.tn = 0 && !i.signallingActive && i.grantPending)

def slotInfo (i : AachInput) : BitVec 14 :=
  if i.fn = 17 then
    if i.tn = 0 ∧ i.mnLow2 = 2 then 0x0049
    else if i.tn = 0 then 0x0249
    else if i.mnLow2 = 1 then 0x0040
    else 0x2249
  else if takesGrant i then i.grantInfo
  else if i.tn = 0 then if i.signallingActive then 0x0009 else 0x0249
  else if i.mnLow2 = 1 ∧ 2 ≤ i.fn ∧ i.fn ≤ 12 then 0x2049
  else if i.mnLow2 = 3 ∧ 13 ≤ i.fn ∧ i.fn ≤ 16 then 0x2049
  else 0x32CB

def lfsrInit (i : AachInput) : BitVec 32 := i.mcc ++ i.mnc ++ i.colourCode ++ 3#2

def step (s : AachEncoder) (i : AachInput) : AachEncoder :=
  let t := { s with grantConsume := false }
  match s.state with
  | .idle =>
    if i.encodeStart then
      { t with
        info := slotInfo i
        grantConsume := takesGrant i
        lfsr := if lfsrInit i = 0 then 0xFFFFFFFF else lfsrInit i
        mask := 0, maskCnt := 0, state := .mask }
    else t
  | .mask =>
    let t := { t with
      mask := writeBit s.mask (29 - s.maskCnt) (lfsrFb s.lfsr), lfsr := lfsrNext s.lfsr }
    if s.maskCnt = 29 then { t with state := .done } else { t with maskCnt := s.maskCnt + 1 }
  | .done =>
    { t with aachCoded := rmEncode s.info ^^^ s.mask, aachValid := true, state := .idle }

/-- A word started with `seed`, as far as it has come. -/
def Scrambles (seed : BitVec 32) (s : AachEncoder) : Prop :=
  match s.state with
  | .idle => True
  | .mask => s.maskCnt < 30 ∧ MaskTracks seed s.mask s.lfsr s.maskCnt
  | .done => MaskTracks seed s.mask s.lfsr 30

variable {seed : BitVec 32} {s : AachEncoder}

theorem scrambles_step (h : s.Scrambles seed) (hbusy : s.state ≠ .idle) (i : AachInput) :
    (step s i).Scrambles seed := by
  cases hs : s.state with
  | idle => exact absurd hs hbusy
  | mask =>
    simp only [Scrambles, hs] at h
    obtain ⟨hcnt, htracks⟩ := h
    have hnext := htracks.step hcnt
    simp only [step, hs]
    by_cases hc : s.maskCnt = 29
    · simpa [hc, Scrambles] using hnext
    · have hlt : s.maskCnt + 1 < 30 := by omega
      simpa [hc, Scrambles, hs, hlt] using hnext
  | done => simp [step, hs, Scrambles]

/-- The two low bits of the initial value are set, so it is never replaced. -/
theorem lfsrInit_ne_zero (i : AachInput) : lfsrInit i ≠ 0 := by
  intro h
  have hlow : (lfsrInit i).getLsbD 0 = true := by
    rw [lfsrInit, BitVec.getLsbD_append]
    rfl
  rw [h] at hlow
  cases hlow

theorem scrambles_start (hs : s.state = .idle) {i : AachInput} (hstart : i.encodeStart = true) :
    (step s i).Scrambles (lfsrInit i) := by
  simp only [step, hs, hstart, if_true, if_neg (lfsrInit_ne_zero i), Scrambles]
  exact ⟨by decide, maskTracks_zero (lfsrInit i) 0⟩

theorem mask_eq (hs : s.state = .idle) {i : AachInput} (hstart : i.encodeStart = true)
    {is : List AachInput} (hbusy : Along step (fun t _ => t.state ≠ .idle) (step s i) is)
    (hdone : (exec step s (i :: is)).state = .done) :
    msbBits (exec step s (i :: is)).mask 30 = cellSequence 30 (lfsrInit i) := by
  rw [exec] at hdone ⊢
  have hrun : (exec step (step s i) is).Scrambles (lfsrInit i) :=
    exec_invariant (Scrambles (lfsrInit i)) (fun t j ht hj => scrambles_step ht hj j)
      (scrambles_start hs hstart) hbusy
  simp only [Scrambles, hdone] at hrun
  exact hrun.full

end AachEncoder

end TetraBs.Lmac
