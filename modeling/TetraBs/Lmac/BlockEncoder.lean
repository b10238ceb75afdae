import TetraBs.Lib.Bits
import TetraBs.Lib.Lfsr
import TetraBs.Lib.Run

/-! The integrated block encoders `tetra_sch_f_encoder`, `tetra_sch_hd_encoder` and
`tetra_sb1_encoder`. One step is one rising clock edge. -/
namespace TetraBs.Lmac
open TetraBs.Bits TetraBs.BitRegister TetraBs.ConvCode TetraBs.Lfsr TetraBs.Run

/-! Parts that the three encoders share, to the text. -/

def crcNext (din : Bool) (crc : BitVec 16) : BitVec 16 :=
  (crc <<< 1) ^^^ (if din ^^ crc.getLsbD 15 then 0x1021 else 0)

def lfsrTaps : List Nat := [0, 6, 9, 10, 16, 20, 21, 22, 24, 25, 27, 28, 30, 31]

def lfsrFb (lfsr : BitVec 32) : Bool := tapped lfsrTaps lfsr

/-- `{lfsr_fb_w, lfsr[31:1]}`. -/
def lfsrNext (lfsr : BitVec 32) : BitVec 32 := fibStep lfsrTaps lfsr

/-- The multiplicative interleaver of `n` bits with factor `a`. -/
def interleave (a : Nat) {n : Nat} (din : BitVec n) : BitVec n :=
  (List.range' 1 n).foldl
    (fun dout k => writeBit dout (n - (1 + (a * k) % n)) (din.getLsbD (n - k))) 0

/-- The convolutional encoder's registers; `conv_sr[0]` is the newest bit. -/
structure ConvStage (n : Nat) where
  convSr : BitVec 4
  bitPhase : Bool
  rcpc : BitVec n
  rcpcIdx : Nat

namespace ConvStage
variable {n : Nat}

def clear (n : Nat) : ConvStage n := ⟨0, false, 0, 0⟩

/-- `{conv_sr, rcpc_din_w}`. -/
def convFull (r : ConvStage n) (din : Bool) : BitVec 5 := r.convSr.concat din

/-- The reduction xor of the masked bits. -/
def parity5 (x : BitVec 5) : Bool := tapped [0, 1, 2, 3, 4] x

def g1 (r : ConvStage n) (din : Bool) : Bool := parity5 (r.convFull din &&& 0b10011)

def g2 (r : ConvStage n) (din : Bool) : Bool := parity5 (r.convFull din &&& 0b11101)

/-- The state `S_RCPC` on one bit. -/
def step (r : ConvStage n) (din : Bool) : ConvStage n where
  convSr := (r.convSr.extractLsb' 0 3).concat din
  bitPhase := !r.bitPhase
  rcpc :=
    if r.bitPhase then writeBit r.rcpc (n - 1 - r.rcpcIdx) (r.g1 din)
    else writeBit (writeBit r.rcpc (n - 1 - r.rcpcIdx) (r.g1 din)) (n - 1 - r.rcpcIdx - 1)
      (r.g2 din)
  rcpcIdx := if r.bitPhase then r.rcpcIdx + 1 else r.rcpcIdx + 2

end ConvStage

/-! The encoders of the signalling channels: `k` information bits, `n` coded bits. -/

inductive Phase where
  | idle | crc | build | rcpc | scram | finish
deriving DecidableEq

structure SchInput (k : Nat) where
  encodeStart : Bool
  infoBits : BitVec k
  scrambleInit : BitVec 32

structure SchEncoder (k n : Nat) where
  state : Phase
  cnt : Nat
  pdu : BitVec k
  crc : BitVec 16
  type3 : BitVec (k + 16 + 4)
  conv : ConvStage n
  lfsr : BitVec 32
  mask : BitVec n
  codedBits : BitVec n
  codedValid : Bool

namespace SchEncoder

def reset (k n : Nat) : SchEncoder k n :=
  ⟨.idle, 0, 0, 0xFFFF, 0, .clear n, 0, 0, 0, false⟩

def step (a : Nat) {k n : Nat} (s : SchEncoder k n) (i : SchInput k) : SchEncoder k n :=
  match s.state with
  | .idle =>
    let s := { s with codedValid := false }
    if i.encodeStart then
      { s with
        pdu := i.infoBits, crc := 0xFFFF, cnt := 0, lfsr := i.scrambleInit, mask := 0
        state := .crc }
    else s
  | .crc =>
    let s := { s with crc := crcNext (s.pdu.getLsbD (k - 1 - s.cnt)) s.crc }
    if s.cnt = k - 1 then { s with cnt := 0, state := .build } else { s with cnt := s.cnt + 1 }
  | .build =>
    { s with type3 := s.pdu ++ ~~~s.crc ++ 0#4, conv := .clear n, state := .rcpc }
  | .rcpc =>
    let s := { s with conv := s.conv.step (s.type3.getLsbD (k + 19 - s.cnt)) }
    if s.cnt = k + 19 then { s with cnt := 0, state := .scram } else { s with cnt := s.cnt + 1 }
  | .scram =>
    let s := { s with
      mask := writeBit s.mask (n - 1 - s.cnt) (lfsrFb s.lfsr), lfsr := lfsrNext s.lfsr }
    if s.cnt = n - 1 then { s with state := .finish } else { s with cnt := s.cnt + 1 }
  | .finish =>
    { s with codedBits := interleave a s.conv.rcpc ^^^ s.mask, codedValid := true, state := .idle }

end SchEncoder

/-- `tetra_sch_f_encoder`. -/
def schFStep : SchEncoder 268 432 → SchInput 268 → SchEncoder 268 432 := SchEncoder.step 103

/-- `tetra_sch_hd_encoder`. -/
def schHdStep : SchEncoder 124 216 → SchInput 124 → SchEncoder 124 216 := SchEncoder.step 101

/-! `tetra_sb1_encoder`: it assembles the SYNC PDU itself and scrambles with a constant. -/

structure Sb1Input where
  cfgSystemCode : BitVec 4
  cfgColourCode : BitVec 6
  cfgSharingMode : BitVec 2
  cfgTsReservedFrames : BitVec 3
  cfgUPlane : Bool
  cfgFrame18Ext : Bool
  cfgMcc : BitVec 10
  cfgMnc : BitVec 14
  cfgNeighbourCellBroadcast : BitVec 2
  cfgCellServiceLevel : BitVec 2
  cfgLateEntryInfo : Bool
  encodeStart : Bool
  sdbSlot : BitVec 2
  frameNum : BitVec 5
  multiframeNum : BitVec 6

def Sb1Input.syncPdu (i : Sb1Input) : BitVec 60 :=
  i.cfgSystemCode ++ i.cfgColourCode ++ i.sdbSlot ++ i.frameNum ++ i.multiframeNum ++
    i.cfgSharingMode ++ i.cfgTsReservedFrames ++ BitVec.ofBool i.cfgUPlane ++
    BitVec.ofBool i.cfgFrame18Ext ++ 0#1 ++ i.cfgMcc ++ i.cfgMnc ++
    i.cfgNeighbourCellBroadcast ++ i.cfgCellServiceLevel ++ BitVec.ofBool i.cfgLateEntryInfo

def computeScrambleMask (init : BitVec 32) : BitVec 120 :=
  ((List.range 120).foldl
    (fun r i => (writeBit r.1 (119 - i) (lfsrFb r.2), lfsrNext r.2)) (0#120, init)).1

inductive Sb1Phase where
  | idle | crc | build | rcpc | finish
deriving DecidableEq

structure Sb1Encoder where
  state : Sb1Phase
  cnt : Nat
  pdu : BitVec 60
  crc : BitVec 16
  type3 : BitVec (60 + 16 + 4)
  conv : ConvStage 120
  sb1Coded : BitVec 120
  sb1Valid : Bool

namespace Sb1Encoder

def reset : Sb1Encoder := ⟨.idle, 0, 0, 0xFFFF, 0, .clear 120, 0, false⟩

def step (s : Sb1Encoder) (i : Sb1Input) : Sb1Encoder :=
  match s.state with
  | .idle =>
    if i.encodeStart then { s with pdu := i.syncPdu, crc := 0xFFFF, cnt := 0, state := .crc } else s
  | .crc =>
    let s := { s with crc := crcNext (s.pdu.getLsbD (59 - s.cnt)) s.crc }
    if s.cnt = 59 then { s with cnt := 0, state := .build } else { s with cnt := s.cnt + 1 }
  | .build =>
    { s with type3 := s.pdu ++ ~~~s.crc ++ 0#4, conv := .clear 120, state := .rcpc }
  | .rcpc =>
    let s := { s with conv := s.conv.step (s.type3.getLsbD (79 - s.cnt)) }
    if s.cnt = 79 then { s with state := .finish } else { s with cnt := s.cnt + 1 }
  | .finish =>
    { s with
      sb1Coded := interleave 11 s.conv.rcpc ^^^ computeScrambleMask 3
      sb1Valid := true
      state := .idle }

end Sb1Encoder

/-! The taps as places back. -/

namespace ConvStage
variable {n : Nat}

def g1Taps : List Nat := [0, 1, 4]
def g2Taps : List Nat := [0, 2, 3, 4]

/-- The code word of the bits that went in, newest first. -/
def word (hist : List Bool) : List Bool := encode g1Taps g2Taps [] hist.reverse

structure Tracks (r : ConvStage n) (hist : List Bool) : Prop where
  sr : ∀ d < 4, r.convSr.getLsbD d = hist.getD d false
  phase : r.bitPhase = decide (hist.length % 2 = 1)
  idx : r.rcpcIdx = (word hist).length
  rcpc : Filled r.rcpc (word hist)

theorem tracks_clear (n : Nat) : Tracks (clear n) [] where
  sr d _ := by simp [clear]
  phase := rfl
  idx := rfl
  rcpc := filled_nil _

theorem word_cons (hist : List Bool) (b : Bool) :
    word (b :: hist) = word hist ++ emit g1Taps g2Taps hist b := by
  rw [word, List.reverse_cons, encode_append, List.reverse_reverse, List.append_nil]
  simp [encode, word]

variable {r : ConvStage n} {hist : List Bool}

theorem parity5_mask (x : BitVec 5) :
    parity5 (x &&& 0b10011) = (x.getLsbD 0 ^^ x.getLsbD 1 ^^ x.getLsbD 4) ∧
      parity5 (x &&& 0b11101) = (x.getLsbD 0 ^^ x.getLsbD 2 ^^ x.getLsbD 3 ^^ x.getLsbD 4) := by
  revert x
  decide

theorem convFull_bits (r : ConvStage n) (din : Bool) :
    (r.convFull din).getLsbD 0 = din ∧
      ∀ d, (r.convFull din).getLsbD (d + 1) = r.convSr.getLsbD d := by
  constructor
  · simp [convFull]
  · intro d
    simp [convFull]

theorem g1_eq (h : Tracks r hist) (din : Bool) : r.g1 din = tapSum g1Taps (din :: hist) := by
  obtain ⟨hzero, hsucc⟩ := convFull_bits r din
  rw [g1, (parity5_mask _).1, hzero, hsucc 0, hsucc 3, h.sr 0 (by decide), h.sr 3 (by decide)]
  simp [tapSum, g1Taps]

theorem g2_eq (h : Tracks r hist) (din : Bool) : r.g2 din = tapSum g2Taps (din :: hist) := by
  obtain ⟨hzero, hsucc⟩ := convFull_bits r din
  rw [g2, (parity5_mask _).2, hzero, hsucc 1, hsucc 2, hsucc 3, h.sr 1 (by decide),
    h.sr 2 (by decide), h.sr 3 (by decide)]
  simp [tapSum, g2Taps]

theorem tracks_step (h : Tracks r hist) (din : Bool)
    (hfit : (word (din :: hist)).length ≤ n) : Tracks (r.step din) (din :: hist) where
  sr d hd := by
    rw [step]
    cases d with
    | zero => simp
    | succ d =>
      have hlt : d < 3 := by omega
      simp only [BitVec.getLsbD_concat_succ, BitVec.getLsbD_extractLsb', hlt, decide_true,
        Bool.true_and, Nat.zero_add, List.getD_cons_succ]
      exact h.sr d (by omega)
  phase := by
    rcases Nat.mod_two_eq_zero_or_one hist.length with h2 | h2
    · simp [step, h.phase, Nat.add_mod, h2]
    · simp [step, h.phase, Nat.add_mod, h2]
  idx := by
    rw [word_cons, List.length_append, emit_length, step, h.idx, h.phase]
    rcases Nat.mod_two_eq_zero_or_one hist.length with h2 | h2
    · simp [h2]
    · simp [h2]
  rcpc := by
    rw [word_cons, List.length_append, emit_length] at hfit
    rw [word_cons, emit, ← g1_eq h, ← g2_eq h, step, h.idx, h.phase]
    rcases Nat.mod_two_eq_zero_or_one hist.length with h2 | h2
    · rw [h2] at hfit
      have hfirst := h.rcpc.push (by omega) (r.g1 din)
      have hsecond := hfirst.push (by rw [List.length_append, List.length_singleton]; omega)
        (r.g2 din)
      have hk : n - 1 - (word hist).length - 1 = n - 1 - (word hist ++ [r.g1 din]).length := by
        rw [List.length_append, List.length_singleton]
        omega
      simp only [h2, hk, Nat.zero_ne_one, decide_false, Bool.false_eq_true, if_false, if_true]
      rwa [List.append_assoc] at hsecond
    · rw [h2] at hfit
      simp only [h2, Nat.one_ne_zero, decide_true, if_false, if_true]
      exact h.rcpc.push (by omega) (r.g1 din)

theorem word_length (hist : List Bool) :
    (word hist).length = hist.length + (hist.length + 1) / 2 := by
  rw [word, encode_length, List.length_reverse, List.length_nil, Nat.zero_mod, Nat.sub_zero]

theorem tracks_foldl (h : Tracks r hist) (bs : List Bool)
    (hfit : (word (bs.reverse ++ hist)).length ≤ n) :
    Tracks (bs.foldl step r) (bs.reverse ++ hist) := by
  induction bs generalizing r hist with
  | nil => exact h
  | cons b bs ih =>
    have hshape : (b :: bs).reverse ++ hist = bs.reverse ++ (b :: hist) := by simp
    rw [hshape] at hfit ⊢
    refine ih (tracks_step h b ?_) hfit
    rw [word_length] at hfit ⊢
    simp only [List.length_append, List.length_cons] at hfit ⊢
    omega

/-- A stage that has taken `bs` and is full holds their code word. -/
theorem rcpc_foldl {bs : List Bool} (hn : n = bs.length + (bs.length + 1) / 2) :
    msbBits (bs.foldl step (clear n)).rcpc n = encode g1Taps g2Taps [] bs := by
  have hlen : (word (bs.reverse ++ [])).length = n := by
    rw [word_length, List.append_nil, List.length_reverse, hn]
  have htracks := tracks_foldl (tracks_clear n) bs (Nat.le_of_eq hlen)
  rw [htracks.rcpc.msbBits_eq hlen, word, List.append_nil, List.reverse_reverse]

end ConvStage

theorem msbBits_drop {m : Nat} (x : BitVec m) {c : Nat} (hc : c < m) :
    (msbBits x m).drop c = x.getLsbD (m - 1 - c) :: (msbBits x m).drop (c + 1) := by
  rw [List.drop_eq_getElem_cons (by rw [msbBits_length]; exact hc)]
  simp [msbBits]

/-! The stage in the encoders. -/

/-- In the states `active`, every edge gives the next bit of `type3` to the stage. -/
def Codes {σ ι : Type*} {m n : Nat} (step : σ → ι → σ) (type3 : σ → BitVec m)
    (conv : σ → ConvStage n) (cnt : σ → Nat) (active : σ → Prop) : Prop :=
  ∀ s i, active s → type3 (step s i) = type3 s ∧
    conv (step s i) = (conv s).step ((type3 s).getLsbD (m - 1 - cnt s)) ∧
    (cnt s ≠ m - 1 → active (step s i) ∧ cnt (step s i) = cnt s + 1)

theorem Codes.run {σ ι : Type*} {m n : Nat} {step : σ → ι → σ} {type3 : σ → BitVec m}
    {conv : σ → ConvStage n} {cnt : σ → Nat} {active : σ → Prop}
    (h : Codes step type3 conv cnt active) {s : σ} (hs : active s) (is : List ι)
    (hlen : is.length + cnt s = m) :
    conv (exec step s is) =
      ((msbBits (type3 s) m).drop (cnt s)).foldl ConvStage.step (conv s) := by
  induction is generalizing s with
  | nil =>
    rw [List.length_nil, Nat.zero_add] at hlen
    rw [hlen, List.drop_of_length_le (Nat.le_of_eq (msbBits_length _ _))]
    rfl
  | cons i is ih =>
    rw [List.length_cons] at hlen
    obtain ⟨htype3, hconv, hnext⟩ := h s i hs
    rw [exec, msbBits_drop (type3 s) (by omega), List.foldl_cons, ← hconv]
    by_cases hc : cnt s = m - 1
    · have hnil : is = [] := List.length_eq_zero_iff.1 (by omega)
      rw [hnil, exec, List.drop_of_length_le (by rw [msbBits_length]; omega)]
      rfl
    · obtain ⟨hs', hcnt⟩ := hnext hc
      rw [ih hs' (by omega), htype3, hcnt]

/-- A stage that starts clear and codes all bits is left with their code word. -/
theorem Codes.word {σ ι : Type*} {m n : Nat} {step : σ → ι → σ} {type3 : σ → BitVec m}
    {conv : σ → ConvStage n} {cnt : σ → Nat} {active : σ → Prop}
    (h : Codes step type3 conv cnt active) {s : σ} (hs : active s) (hcnt : cnt s = 0)
    (hclear : conv s = .clear n) (hn : n = m + (m + 1) / 2) {is : List ι} (hlen : is.length = m) :
    msbBits (conv (exec step s is)).rcpc n =
      encode ConvStage.g1Taps ConvStage.g2Taps [] (msbBits (type3 s) m) := by
  rw [h.run hs is (by rw [hlen, hcnt, Nat.add_zero]), hcnt, hclear, List.drop_zero]
  refine ConvStage.rcpc_foldl ?_
  rw [msbBits_length, ← hn]

/-- Information bits, inverted CRC and tail. -/
def typeTwo {k : Nat} (pdu : BitVec k) (crc : BitVec 16) : BitVec (k + 16 + 4) :=
  pdu ++ ~~~crc ++ 0#4

theorem SchEncoder.codes (a k n : Nat) :
    Codes (SchEncoder.step a) SchEncoder.type3 (SchEncoder.conv (k := k) (n := n)) SchEncoder.cnt
      fun s => s.state = .rcpc := by
  intro s i hs
  have hidx : k + 16 + 4 - 1 - s.cnt = k + 19 - s.cnt := by omega
  rw [hidx]
  simp only [SchEncoder.step, hs]
  by_cases hc : s.cnt = k + 19
  · rw [if_pos hc]
    exact ⟨rfl, rfl, fun hne => absurd hc hne⟩
  · rw [if_neg hc]
    exact ⟨rfl, rfl, fun _ => ⟨rfl, rfl⟩⟩

theorem Sb1Encoder.codes :
    Codes Sb1Encoder.step Sb1Encoder.type3 Sb1Encoder.conv Sb1Encoder.cnt
      fun s => s.state = .rcpc := by
  intro s i hs
  simp only [Sb1Encoder.step, hs]
  by_cases hc : s.cnt = 79
  · rw [if_pos hc]
    exact ⟨rfl, rfl, fun hne => absurd hc hne⟩
  · rw [if_neg hc]
    exact ⟨rfl, rfl, fun _ => ⟨rfl, rfl⟩⟩

/-- The registers `S_BUILD` leaves. -/
def SchEncoder.built {k n : Nat} (s : SchEncoder k n) : SchEncoder k n :=
  { s with type3 := typeTwo s.pdu s.crc, conv := .clear n, state := .rcpc }

def Sb1Encoder.built (s : Sb1Encoder) : Sb1Encoder :=
  { s with type3 := typeTwo s.pdu s.crc, conv := .clear 120, state := .rcpc }

theorem SchEncoder.step_build (a : Nat) {k n : Nat} {s : SchEncoder k n} (hs : s.state = .build)
    (i : SchInput k) : step a s i = s.built := by
  simp only [step, hs]
  rfl

theorem Sb1Encoder.step_build {s : Sb1Encoder} (hs : s.state = .build) (i : Sb1Input) :
    step s i = s.built := by
  simp only [step, hs]
  rfl

/-- The RCPC stage of a signalling encoder, from `S_BUILD` on. -/
theorem SchEncoder.rcpc_word (a : Nat) {k n : Nat} {s : SchEncoder k n} (hs : s.state = .build)
    (hcnt : s.cnt = 0) (hn : n = k + 20 + (k + 21) / 2) (i : SchInput k) {is : List (SchInput k)}
    (hlen : is.length = k + 20) :
    msbBits (exec (step a) s (i :: is)).conv.rcpc n =
      encode ConvStage.g1Taps ConvStage.g2Taps []
        (msbBits (typeTwo s.pdu s.crc) (k + 16 + 4)) := by
  have hstate : s.built.state = .rcpc := rfl
  have hclear : s.built.conv = .clear n := rfl
  rw [exec, step_build a hs]
  exact (SchEncoder.codes a k n).word (s := s.built) hstate hcnt hclear hn hlen

theorem Sb1Encoder.rcpc_word {s : Sb1Encoder} (hs : s.state = .build) (hcnt : s.cnt = 0)
    (i : Sb1Input) {is : List Sb1Input} (hlen : is.length = 80) :
    msbBits (exec step s (i :: is)).conv.rcpc 120 =
      encode ConvStage.g1Taps ConvStage.g2Taps []
        (msbBits (typeTwo s.pdu s.crc) (60 + 16 + 4)) := by
  have hstate : s.built.state = .rcpc := rfl
  have hclear : s.built.conv = .clear 120 := rfl
  have hn : 120 = 60 + 16 + 4 + (60 + 16 + 4 + 1) / 2 := by decide
  rw [exec, step_build hs]
  exact Sb1Encoder.codes.word (s := s.built) hstate hcnt hclear hn hlen

end TetraBs.Lmac
