import TetraBs.Lib.BitReader
import TetraBs.Lmac.AachEncoder
import TetraBs.Lmac.ReedMuller

/-! The access assignment word on its way from the encoder to the decoder of the receive chain: the
two modules hold different generator matrices. -/
namespace TetraBs.Lmac
open TetraBs.Bits TetraBs.BitReader TetraBs.Run

namespace AachEncoder

/-- The first 30 bits of the cell's sequence as a word, the first bit on top. -/
def sequenceWord (seed : BitVec 32) : BitVec 30 := BitVec.ofNat 30 (ofBits (cellSequence 30 seed))

/-- A word of the cell with the scrambling taken off. -/
def descramble (seed : BitVec 32) (w : BitVec 30) : BitVec 30 := w ^^^ sequenceWord seed

theorem sequenceWord_eq {seed : BitVec 32} {mask : BitVec 30} {lfsr : BitVec 32}
    (h : MaskTracks seed mask lfsr 30) : mask = sequenceWord seed := by
  rw [sequenceWord, ← h.full, ofBits_msbBits, Nat.mod_eq_of_lt mask.isLt, BitVec.ofNat_toNat,
    BitVec.setWidth_eq]

/-- `k` bits of the mask are made for the word of `i`. -/
structure Masking (i : AachInput) (k : Nat) (s : AachEncoder) : Prop where
  state : s.state = .mask
  maskCnt : s.maskCnt = k
  info : s.info = slotInfo i
  tracks : MaskTracks (lfsrInit i) s.mask s.lfsr k

variable {s : AachEncoder} {i : AachInput} {k : Nat}

theorem masking_start (hs : s.state = .idle) (hi : i.encodeStart = true) :
    Masking i 0 (step s i) := by
  simp only [step, hs, hi, if_true, if_neg (lfsrInit_ne_zero i)]
  exact ⟨rfl, rfl, rfl, maskTracks_zero (lfsrInit i) 0⟩

theorem Masking.step (h : Masking i k s) (hk : k < 29) (j : AachInput) :
    Masking i (k + 1) (AachEncoder.step s j) := by
  have hnext := h.tracks.step (n := 30) (by omega)
  have hlast : ¬ s.maskCnt = 29 := by
    rw [h.maskCnt]
    omega
  simp only [AachEncoder.step, h.state, if_neg hlast]
  refine ⟨rfl, by rw [h.maskCnt], h.info, ?_⟩
  rwa [h.maskCnt]

theorem Masking.run (h : Masking i k s) (is : List AachInput) (hk : k + is.length ≤ 29) :
    Masking i (k + is.length) (exec AachEncoder.step s is) := by
  induction is generalizing s k with
  | nil => exact h
  | cons j js ih =>
    rw [List.length_cons] at hk ⊢
    have hrest := ih (h.step (by omega) j) (by omega)
    rwa [(by omega : k + 1 + js.length = k + (js.length + 1))] at hrest

/-- The coded word is there two cycles after the last bit of the mask, whatever comes in meanwhile. -/
theorem coded (hs : s.state = .idle) (hi : i.encodeStart = true) {is : List AachInput}
    (his : is.length = 31) :
    (exec step s (i :: is)).aachCoded = rmEncode (slotInfo i) ^^^ sequenceWord (lfsrInit i) := by
  obtain ⟨js, last, done, rfl⟩ : ∃ js last done, is = js ++ [last] ++ [done] := by
    refine ⟨is.take 29, is[29], is[30], ?_⟩
    rw [List.take_append_getElem, List.take_append_getElem, List.take_of_length_le (by omega)]
  have hlen : js.length = 29 := by simpa using his
  have hmask := (masking_start hs hi).run js (by omega)
  rw [hlen, Nat.zero_add] at hmask
  have hfull := hmask.tracks.step (n := 30) (by decide)
  rw [exec, exec_snoc, exec_snoc]
  generalize exec step (step s i) js = t at hmask hfull
  simp only [step, hmask.state, hmask.maskCnt, hmask.info, if_true]
  rw [← sequenceWord_eq hfull]

theorem descramble_coded (hs : s.state = .idle) (hi : i.encodeStart = true) {is : List AachInput}
    (his : is.length = 31) :
    descramble (lfsrInit i) (exec step s (i :: is)).aachCoded = rmEncode (slotInfo i) := by
  rw [descramble, coded hs hi his, BitVec.xor_assoc, BitVec.xor_self, BitVec.xor_zero]

/-- The slot that carries `u` as a grant, in the cell of `mcc`, `mnc` and `cc`. -/
def grantOf (u : BitVec 14) (mcc : BitVec 10) (mnc : BitVec 14) (cc : BitVec 6) : AachInput where
  fn := 0
  tn := 0
  mnLow2 := 0
  colourCode := cc
  mcc := mcc
  mnc := mnc
  signallingActive := false
  grantPending := true
  grantInfo := u
  encodeStart := true

/-- Every word can be sent in every cell. -/
theorem slotInfo_grantOf (u : BitVec 14) (mcc : BitVec 10) (mnc : BitVec 14) (cc : BitVec 6) :
    slotInfo (grantOf u mcc mnc cc) = u ∧ lfsrInit (grantOf u mcc mnc cc) = mcc ++ mnc ++ cc ++ 3#2 :=
  ⟨rfl, rfl⟩

end AachEncoder

open AachEncoder (lfsrInit slotInfo grantOf slotInfo_grantOf descramble descramble_coded)

/-- Where the two modules' words of the same message differ. -/
def generatorDiff (u : BitVec 14) : BitVec 30 := ReedMuller.rmEncode u ^^^ AachEncoder.rmEncode u

theorem distRaw_coded (u : BitVec 14) (e : BitVec 30) :
    ReedMuller.distRaw (AachEncoder.rmEncode u ^^^ e) u =
      ReedMuller.popcount30 (generatorDiff u ^^^ e) := by
  rw [ReedMuller.distRaw, generatorDiff, BitVec.xor_assoc]

/-- A word sent in `enc` and received with the error `e` comes back from `dec` exactly if `e` takes
the difference of the generators back to three places; without an error that is the zero word. -/
theorem aach_returned_iff {enc : AachEncoder} (henc : enc.state = .idle) {i : AachInput}
    (hi : i.encodeStart = true) {is : List AachInput} (his : is.length = 31) {e : BitVec 30}
    {dec : ReedMuller} (hdec : dec.state = .idle) {j : RmInput} (hj : j.decodeValid = true)
    (hword : j.decodeDataIn =
      descramble (lfsrInit i) (exec AachEncoder.step enc (i :: is)).aachCoded ^^^ e)
    {js : List RmInput} (hjs : js.length = 0x4001) :
    (exec ReedMuller.step dec (j :: js)).Returns (slotInfo i) ↔
      ReedMuller.popcount30 (generatorDiff (slotInfo i) ^^^ e) ≤ 3 := by
  rw [ReedMuller.returns_iff hdec hj hjs, hword, descramble_coded henc hi his, distRaw_coded]
  rfl

/-- The word of a grant of `u`, received with the error `e`. -/
def received (u : BitVec 14) (e : BitVec 30) : RmInput where
  encodeDataIn := 0
  encodeValid := false
  decodeDataIn := AachEncoder.rmEncode u ^^^ e
  decodeValid := true

theorem received_word (u : BitVec 14) (e : BitVec 30) :
    (received u e).decodeDataIn = descramble (lfsrInit (grantOf u 0 0 0))
      (exec AachEncoder.step AachEncoder.reset
        (List.replicate 32 (grantOf u 0 0 0))).aachCoded ^^^ e := by
  rw [List.replicate_succ, descramble_coded rfl rfl List.length_replicate,
    (slotInfo_grantOf u 0 0 0).1]
  rfl

theorem aach_returned_zero_word :
    (exec ReedMuller.step ReedMuller.reset
        (received 0 1 :: List.replicate 0x4001 (received 0 1))).Returns
        (slotInfo (grantOf 0 0 0 0)) ↔
      ReedMuller.popcount30 (generatorDiff (slotInfo (grantOf 0 0 0 0)) ^^^ 1) ≤ 3 :=
  aach_returned_iff (rfl : AachEncoder.reset.state = .idle) rfl List.length_replicate rfl rfl
    (received_word 0 1) List.length_replicate

/-- The word of the grant 1, received without an error, is not returned. -/
theorem aach_word_misread :
    ¬ ∀ (i : AachInput) (is : List AachInput) (e : BitVec 30) (j : RmInput) (js : List RmInput),
      i.encodeStart = true → is.length = 31 → ReedMuller.popcount30 e ≤ 3 → j.decodeValid = true →
      j.decodeDataIn =
        descramble (lfsrInit i) (exec AachEncoder.step AachEncoder.reset (i :: is)).aachCoded ^^^ e →
      js.length = 0x4001 →
      (exec ReedMuller.step ReedMuller.reset (j :: js)).Returns (slotInfo i) := by
  intro h
  have hreturned := h (grantOf 1 0 0 0) _ 0 (received 1 0) (List.replicate 0x4001 (received 1 0)) rfl
    (List.length_replicate (n := 31)) (by decide) rfl (received_word 1 0) List.length_replicate
  rw [ReedMuller.returns_iff rfl rfl List.length_replicate] at hreturned
  exact absurd hreturned (by decide +kernel)

end TetraBs.Lmac
