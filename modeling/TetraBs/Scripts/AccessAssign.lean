import TetraBs.Lib.Hamming
import TetraBs.Lmac.AachAgreement
import TetraBs.Phy.BurstLink
import TetraBs.Scripts.Acquisition
import Mathlib.Data.List.Perm.Basic

/-! The access assignment channel in `scripts/decode_dl.py`: the (30,14) words of both kinds of
burst, decoded by trying every message. -/
namespace TetraBs.DecodeDl
open TetraBs.Bits TetraBs.BitReader TetraBs.Hamming TetraBs.Lfsr TetraBs.Lmac TetraBs.ReedMuller
  TetraBs.Run TetraBs.SymbolShift
open AachEncoder (rmEncode slotInfo lfsrInit RM_ROWS)

def RM_GEN : List (List Nat) :=
  [[1, 0, 0, 1, 1, 0, 1, 1, 0, 1, 1, 0, 0, 0, 0, 0],
    [0, 0, 1, 0, 1, 1, 0, 1, 1, 1, 1, 0, 0, 0, 0, 0],
    [1, 1, 1, 1, 1, 1, 0, 0, 0, 0, 1, 0, 0, 0, 0, 0],
    [1, 1, 1, 0, 0, 0, 0, 0, 0, 0, 1, 1, 1, 1, 0, 0],
    [1, 0, 0, 1, 1, 0, 0, 0, 0, 0, 1, 1, 1, 0, 1, 0],
    [0, 1, 0, 1, 0, 1, 0, 0, 0, 0, 1, 1, 0, 1, 1, 0],
    [0, 0, 1, 0, 1, 1, 0, 0, 0, 0, 1, 0, 1, 1, 1, 0],
    [1, 1, 1, 1, 1, 1, 1, 1, 1, 1, 0, 1, 1, 1, 1, 1],
    [1, 0, 0, 0, 0, 0, 1, 1, 0, 0, 1, 1, 1, 0, 0, 1],
    [0, 1, 0, 0, 0, 0, 1, 0, 1, 0, 1, 1, 0, 1, 0, 1],
    [0, 0, 1, 0, 0, 0, 0, 1, 1, 0, 1, 0, 1, 1, 0, 1],
    [0, 0, 0, 1, 0, 0, 1, 0, 0, 1, 1, 1, 0, 0, 1, 1],
    [0, 0, 0, 0, 1, 0, 0, 1, 0, 1, 1, 0, 1, 0, 1, 1],
    [0, 0, 0, 0, 0, 1, 0, 0, 1, 1, 1, 0, 0, 1, 1, 1]]

/-- `_build_rm_codewords`. -/
def buildRmCodewords : List (BitVec 30) :=
  (List.range 14).map fun i => (List.range 16).foldl
    (fun val j => val ||| BitVec.ofNat 30 ((RM_GEN.getD i []).getD j 0) <<< (15 - j))
    (1 <<< (16 + 13 - i))

/-- The word of a message in `rm3014_decode`. -/
def rmWord (infoWord : Nat) : BitVec 30 :=
  (List.range 14).foldl
    (fun cw i =>
      if (infoWord >>> (13 - i)) &&& 1 = 1 then cw ^^^ buildRmCodewords.getD i 0 else cw) 0

def rmDist (rx : BitVec 30) (infoWord : Nat) : Nat := weight (bits (rx ^^^ rmWord infoWord))

/-- The loop over the messages, `n` of them from `infoWord` on; it stops at the first exact word. -/
def rmSearch (rx : BitVec 30) : (n infoWord : Nat) → (best : Nat × Nat) → Nat × Nat
  | 0, _, best => best
  | n + 1, infoWord, best =>
    let dist := rmDist rx infoWord
    if dist < best.2 then
      if dist = 0 then (infoWord, dist) else rmSearch rx n (infoWord + 1) (infoWord, dist)
    else rmSearch rx n (infoWord + 1) best

/-- Too far off from every word. -/
def rmAccept (best : Nat × Nat) : Option Nat × Nat :=
  if 4 < best.2 then (none, best.2) else (some best.1, best.2)

/-- `rm3014_decode`. -/
def rm3014Decode (bits30 : List Bool) : Option Nat × Nat :=
  rmAccept (rmSearch (BitVec.ofNat 30 (bits30.foldl (fun rx b => (rx <<< 1) ||| b.toNat) 0))
    (1 <<< 14) 0 (0, 31))

/-- What `parse_aach` finds; a field that the header excludes is not there. -/
structure AccessAssign where
  header : Nat
  field1 : Nat
  field2 : Nat
  dlUsage : Option Nat
  ulUsage : Option Nat
  colourCode : Option Nat
deriving DecidableEq

/-- `parse_aach`. -/
def parseAach (info14 : Nat) : AccessAssign :=
  let header := (info14 >>> 12) &&& 0x3
  let field1 := (info14 >>> 6) &&& 0x3F
  let field2 := info14 &&& 0x3F
  if header = 0 ∨ header = 1 then
    ⟨header, field1, field2, some ((field1 >>> 3) &&& 0x7), some (field1 &&& 0x7), some field2⟩
  else if header = 3 then ⟨header, field1, field2, none, none, some field2⟩
  else ⟨header, field1, field2, none, none, none⟩

def NDB_OFF_BB1 : Nat := 6 + 1 + 108
def NDB_BB1 : Nat := 7
def NDB_OFF_BB2 : Nat := NDB_OFF_BB1 + NDB_BB1 + 11
def NDB_BB2 : Nat := 8

/-- The broadcast block of a synchronization burst. -/
def sdbBb (dibits : List (BitVec 2)) : List (BitVec 2) :=
  (dibits.drop (SDB_OFF_BB - 1)).take SDB_BB

/-- The broadcast block of a normal burst, put together of its two parts. -/
def ndbBb (dibits : List (BitVec 2)) : List (BitVec 2) :=
  (dibits.drop (NDB_OFF_BB1 - 1)).take NDB_BB1 ++ (dibits.drop (NDB_OFF_BB2 - 1)).take NDB_BB2

/-- What is made of a broadcast block: the assignment, unless the word is too far off, and the
distance. -/
def readAach (scrambCode : Nat) (bbDibits : List (BitVec 2)) : Option AccessAssign × Nat :=
  let bbBits := dibitsToBits bbDibits
  let bbDescr := List.zipWith xor bbBits (scramblerSeq scrambCode 30)
  let found := rm3014Decode bbDescr
  (found.1.map parseAach, found.2)

/-! The code of the tool is that of the encoder. -/

theorem buildRmCodewords_eq : buildRmCodewords = RM_ROWS := by decide

theorem foldl_xor {ks : List Nat} {w : BitVec 30} (c : Nat → Bool) (f : Nat → BitVec 30) :
    ks.foldl (fun cw i => if c i then cw ^^^ f i else cw) w =
      w ^^^ ks.foldr (fun i cw => (if c i then f i else 0) ^^^ cw) 0 := by
  induction ks generalizing w with
  | nil => simp
  | cons k ks ih =>
    rw [List.foldl_cons, ih, List.foldr_cons]
    cases c k
    · simp
    · simp [BitVec.xor_assoc]

theorem rmWord_eq (u : BitVec 14) : rmWord u.toNat = rmEncode u := by
  have hbit : ∀ i, ((u.toNat >>> (13 - i)) &&& 1 = 1) = (u.getLsbD (13 - i) = true) := by
    intro i
    rw [BitVec.getLsbD, Nat.testBit, Nat.and_comm, bne_iff_ne]
    simp only [Nat.one_and_eq_mod_two]
    exact propext (by omega)
  simp only [rmWord, hbit, buildRmCodewords_eq]
  rw [foldl_xor (fun i => u.getLsbD (13 - i)) fun i => RM_ROWS.getD i 0]
  exact BitVec.zero_xor

theorem rmEncode_xor (u v : BitVec 14) : rmEncode (u ^^^ v) = rmEncode u ^^^ rmEncode v := by
  unfold rmEncode
  induction List.range 14 with
  | nil => simp
  | cons k ks ih =>
    have hrow : (if (u ^^^ v).getLsbD (13 - k) then RM_ROWS.getD k 0 else 0) =
        (if u.getLsbD (13 - k) then RM_ROWS.getD k 0 else 0) ^^^
          (if v.getLsbD (13 - k) then RM_ROWS.getD k 0 else 0) := by
      rw [BitVec.getLsbD_xor]
      cases u.getLsbD (13 - k) <;> cases v.getLsbD (13 - k) <;> simp
    simp only [List.foldr_cons, ih, hrow]
    ac_rfl

/-- The message stands in front of its checks. -/
theorem rmEncode_front (u : BitVec 14) {k : Nat} (hk : k < 14) :
    (rmEncode u).getLsbD (16 + k) = u.getLsbD k := by
  have hword : Functional fun v : BitVec 14 => (rmEncode v).getLsbD (16 + k) := fun v w => by
    simp only [rmEncode_xor, BitVec.getLsbD_xor]
  have hbit : Functional fun v : BitVec 14 => v.getLsbD k := fun v w => BitVec.getLsbD_xor
  have hsingle : ∀ k < 14, ∀ j < 14,
      (rmEncode (BitVec.twoPow 14 j)).getLsbD (16 + k) = (BitVec.twoPow 14 j).getLsbD k := by
    decide +kernel
  exact hword.ext hbit (hsingle k hk) u

/-- Where the bits of a word stand in the Reed-Muller code of length 32; the two left out are
zeros. -/
def rmPlaces : List Nat :=
  [31, 2, 18, 5, 17, 15, 28, 26, 16, 14, 6, 4, 29, 3, 22, 13, 30, 23, 21, 11, 0, 12, 7, 24, 19, 27,
    8, 25, 9, 1, 20, 10]

def lengthened (w : BitVec 30) : List Bool := rmPlaces.map w.getLsbD

theorem weight_lengthened (w : BitVec 30) : weight (lengthened w) = weight (bits w) := by
  have hperm : rmPlaces.Perm (List.range 32) := by decide
  have hrange : (List.range 32).map w.getLsbD = bits w ++ [false, false] := by
    rw [bits, (by decide : List.range 32 = List.range 30 ++ [30, 31]), List.map_append]
    simp
  have hsum := ((hperm.map w.getLsbD).map Bool.toNat).sum_nat
  rw [weight, lengthened, hsum, hrange, ← weight, weight_append,
    (by decide : weight [false, false] = 0), Nat.add_zero]

theorem lengthened_xor (v w : BitVec 30) :
    lengthened (v ^^^ w) = add (lengthened v) (lengthened w) := by
  simp [lengthened, add, List.zipWith_map, List.zipWith_self]

theorem codeword_rows : ∀ k < 14, Codeword 2 5 (lengthened (RM_ROWS.getD k 0)) := by
  decide +kernel

theorem codeword_rmEncode (u : BitVec 14) : Codeword 2 5 (lengthened (rmEncode u)) := by
  have hzero : Codeword 2 5 (lengthened 0) := by decide +kernel
  have hrows : ∀ ks : List Nat, (∀ k ∈ ks, k < 14) → Codeword 2 5 (lengthened (ks.foldr
      (fun k word => (if u.getLsbD (13 - k) then RM_ROWS.getD k 0 else 0) ^^^ word) 0)) := by
    intro ks hks
    induction ks with
    | nil => exact hzero
    | cons k ks ih =>
      rw [List.foldr_cons, lengthened_xor]
      refine Codeword.add ?_ (ih fun j hj => hks j (List.mem_cons_of_mem k hj))
      split
      · exact codeword_rows k (hks k List.mem_cons_self)
      · exact hzero
  exact hrows (List.range 14) fun k hk => List.mem_range.1 hk

/-- Different messages are eight bits apart. -/
theorem rmEncode_apart {u v : BitVec 14} (h : u ≠ v) :
    8 ≤ weight (bits (rmEncode u ^^^ rmEncode v)) := by
  have hcode := codeword_rmEncode (u ^^^ v)
  rw [rmEncode_xor] at hcode
  rw [← weight_lengthened]
  refine hcode.weight_ge (by decide) fun hzero => h ?_
  refine BitVec.eq_of_getLsbD_eq fun k hk => ?_
  rw [weight_lengthened, weight_eq_zero] at hzero
  have hbit : (rmEncode u ^^^ rmEncode v).getLsbD (16 + k) = false :=
    hzero _ (List.mem_map_of_mem (List.mem_range.2 (by omega)))
  rw [BitVec.getLsbD_xor, rmEncode_front u hk, rmEncode_front v hk] at hbit
  exact beq_iff_eq.1 (by simpa using hbit)

/-! The search of the tool. -/

theorem nearest_zero {dist : Nat → Nat} {far k : Nat} (h : (nearest dist far k).2 = 0) (m : Nat) :
    nearest dist far (k + m) = nearest dist far k := by
  induction m with
  | zero => rfl
  | succ m ih =>
    rw [← Nat.add_assoc, nearest]
    simp only [ih, h, Nat.not_lt_zero, if_false]

theorem rmSearch_eq (rx : BitVec 30) (n infoWord : Nat) :
    rmSearch rx n infoWord (nearest (rmDist rx) 31 infoWord) =
      nearest (rmDist rx) 31 (infoWord + n) := by
  induction n generalizing infoWord with
  | zero => rfl
  | succ n ih =>
    have hnext : nearest (rmDist rx) 31 (infoWord + 1) =
        if rmDist rx infoWord < (nearest (rmDist rx) 31 infoWord).2 then
          (infoWord, rmDist rx infoWord) else nearest (rmDist rx) 31 infoWord := rfl
    rw [rmSearch, (by omega : infoWord + (n + 1) = infoWord + 1 + n)]
    by_cases hbetter : rmDist rx infoWord < (nearest (rmDist rx) 31 infoWord).2
    · rw [if_pos hbetter] at hnext ⊢
      by_cases hzero : rmDist rx infoWord = 0
      · -- no later message is nearer than an exact one
        rw [if_pos hzero, nearest_zero (by rw [hnext, hzero]), hnext]
      · rw [if_neg hzero, ← hnext, ih]
    · rw [if_neg hbetter] at hnext ⊢
      rw [← hnext, ih]

theorem ofBits_lt (bs : List Bool) : ofBits bs < 2 ^ bs.length := by
  induction bs with
  | nil => exact Nat.one_pos
  | cons b bs ih =>
    rw [ofBits, List.length_cons, Nat.pow_succ]
    cases b
    · simp
      omega
    · simp
      omega

theorem ofBits_inj {u v : List Bool} (hlen : u.length = v.length) (h : ofBits u = ofBits v) :
    u = v := by
  induction u generalizing v with
  | nil => exact (List.eq_nil_of_length_eq_zero hlen.symm).symm
  | cons b u ih =>
    cases v with
    | nil => exact absurd hlen (Nat.succ_ne_zero _)
    | cons c v =>
      have htail : u.length = v.length := Nat.succ.inj hlen
      have hu := ofBits_lt u
      have hv := ofBits_lt v
      rw [ofBits, ofBits, htail] at h
      rw [htail] at hu
      cases b <;> cases c <;> simp only [Bool.toNat_false, Bool.toNat_true, Nat.mul_zero,
        Nat.mul_one, Nat.zero_add] at h
      · rw [ih htail h]
      · omega
      · omega
      · rw [ih htail (by omega)]

/-- A bit string is the bits of the number it stands for. -/
theorem msbBits_ofBits {n : Nat} {bs : List Bool} (h : bs.length = n) :
    msbBits (BitVec.ofNat n (ofBits bs)) n = bs := by
  subst h
  refine ofBits_inj (msbBits_length _ _) ?_
  rw [ofBits_msbBits, BitVec.toNat_ofNat, Nat.mod_mod, Nat.mod_eq_of_lt (ofBits_lt bs)]

theorem foldl_ofBits (bs : List Bool) (rx : Nat) :
    bs.foldl (fun rx b => (rx <<< 1) ||| b.toNat) rx = 2 ^ bs.length * rx + ofBits bs := by
  induction bs generalizing rx with
  | nil => simp [ofBits]
  | cons b bs ih =>
    rw [List.foldl_cons, ih, shift_or_bit, ofBits, List.length_cons, Nat.pow_succ, Nat.mul_add,
      Nat.mul_assoc, Nat.add_assoc]

theorem weight_bits {n : Nat} (v : BitVec n) : weight (bits v) = weight (msbBits v n) := by
  have hrev : msbBits v n = (bits v).reverse := by
    refine List.ext_getElem (by simp) fun i hi hi' => ?_
    rw [msbBits_length] at hi
    simp [msbBits, bits]
  rw [hrev, weight, weight, List.map_reverse, List.sum_reverse]

theorem rmDist_word (u v : BitVec 14) (e : BitVec 30) :
    rmDist (rmEncode u ^^^ e) v.toNat =
      weight (add (bits e) (bits (rmEncode u ^^^ rmEncode v))) := by
  rw [rmDist, rmWord_eq, ← bits_xor]
  congr 2
  ac_rfl

theorem rmDist_near {u : BitVec 14} {e : BitVec 30} (hw : weight (bits e) ≤ 3) {k : Nat}
    (hk : k < 2 ^ 14) (h : rmDist (rmEncode u ^^^ e) k ≤ 3) : k = u.toNat := by
  have hkv : k = (BitVec.ofNat 14 k).toNat := by rw [BitVec.toNat_ofNat, Nat.mod_eq_of_lt hk]
  rw [hkv, rmDist_word] at h
  by_contra hne
  have hfar := rmEncode_apart (u := u) (v := BitVec.ofNat 14 k) fun he => hne (he ▸ hkv)
  have hsum := weight_le_add (bits e) (bits (rmEncode u ^^^ rmEncode (BitVec.ofNat 14 k)))
    (by simp)
  omega

/-- With at most three wrong bits the message is the nearest of all. -/
theorem nearest_word {u : BitVec 14} {e : BitVec 30} (hw : weight (bits e) ≤ 3) :
    nearest (rmDist (rmEncode u ^^^ e)) 31 (2 ^ 14) = (u.toNat, weight (bits e)) := by
  have hown : rmDist (rmEncode u ^^^ e) u.toNat = weight (bits e) := by
    rw [rmDist_word, BitVec.xor_self, ← bits_xor, BitVec.xor_zero]
  have hnear : ∀ k < 2 ^ 14, rmDist (rmEncode u ^^^ e) k ≤ 3 → k = u.toNat :=
    fun k hk h => rmDist_near hw hk h
  have hu : u.toNat < 2 ^ 14 := u.isLt
  generalize rmDist (rmEncode u ^^^ e) = dist at hown hnear ⊢
  generalize 2 ^ 14 = n at hnear hu ⊢
  obtain ⟨hfirst, hsecond⟩ := (nearest_within_iff dist 31 (t := 3) hu (by omega)
    fun i hi j hj h h' => (hnear i hi h).trans (hnear j hj h').symm).2 (by omega)
  obtain h | ⟨j, -, h⟩ := nearest_spec dist 31 n
  · rw [h] at hsecond
    exact absurd hsecond (by omega)
  · rw [h] at hfirst
    rw [h, ← hown, ← hfirst]

/-- A word with at most three wrong bits is decoded, and the number of the wrong bits is found. -/
theorem rm3014Decode_word (u : BitVec 14) {e : List Bool} (he : e.length = 30)
    (hw : weight e ≤ 3) :
    rm3014Decode (add (msbBits (rmEncode u) 30) e) = (some u.toNat, weight e) := by
  have hrx : BitVec.ofNat 30 ((add (msbBits (rmEncode u) 30) e).foldl
      (fun rx b => (rx <<< 1) ||| b.toNat) 0) = rmEncode u ^^^ BitVec.ofNat 30 (ofBits e) := by
    have hsum : add (msbBits (rmEncode u) 30) e =
        msbBits (rmEncode u ^^^ BitVec.ofNat 30 (ofBits e)) 30 := by
      rw [Lmac.msbBits_xor, msbBits_ofBits he, add]
    rw [hsum, foldl_ofBits, Nat.mul_zero, Nat.zero_add, ofBits_msbBits,
      Nat.mod_eq_of_lt (BitVec.isLt _), BitVec.ofNat_toNat, BitVec.setWidth_eq]
  have herr : weight (bits (BitVec.ofNat 30 (ofBits e))) = weight e := by
    rw [weight_bits, msbBits_ofBits he]
  have hnear : weight (bits (BitVec.ofNat 30 (ofBits e))) ≤ 3 := by rwa [herr]
  have hbest := nearest_word (u := u) hnear
  have hstart : (0, 31) = nearest (rmDist (rmEncode u ^^^ BitVec.ofNat 30 (ofBits e))) 31 0 := rfl
  rw [rm3014Decode, hrx, hstart, rmSearch_eq, Nat.zero_add, Nat.one_shiftLeft, hbest, herr,
    rmAccept, if_neg (by omega)]

/-! The broadcast blocks of the bursts. -/

open BurstBuilder in
theorem sdbBurst_bb (p : NdbSlot) (sb1 : BitVec 120) {j : Nat} (hj : j < 15) :
    symbol (sdbBurst p sb1) (114 + j) = symbol p.bb j := by
  rw [(by omega : 114 + j = 5 + (1 + (108 + j)))]
  calc symbol (sdbBurst p sb1) (5 + (1 + (108 + j)))
      = symbol (TAIL1 ++ PADJ ++ FC_PAT ++ sb1 ++ STS_REF ++ p.bb ++ p.block2 ++ PADJ)
          (1 + (108 + j)) := symbol_append_high (c := 5) _ TAIL2 _
    _ = symbol (TAIL1 ++ PADJ ++ FC_PAT ++ sb1 ++ STS_REF ++ p.bb) j := by
        rw [symbol_append_high (c := 1) _ PADJ, symbol_append_high (c := 108) _ p.block2]
    _ = symbol p.bb j := symbol_append_low _ _ (by omega)

open BurstBuilder in
theorem ndbBurst_bb1 (p : NdbSlot) (nts : BitVec 22) {j : Nat} (hj : j < 7) :
    symbol (ndbBurst p nts) (133 + j) = symbol (p.bb.extractLsb' 16 14) j := by
  rw [(by omega : 133 + j = 5 + (1 + (108 + (8 + (11 + j))))), Phy.BurstLink.burst_after,
    symbol_append_high (c := 1) _ PADJ, symbol_append_high (c := 108) _ p.block2,
    symbol_append_high (c := 8) _ (p.bb.extractLsb' 0 16), symbol_append_high (c := 11) _ nts,
    symbol_append_low _ _ (by omega)]

open BurstBuilder in
theorem ndbBurst_bb2 (p : NdbSlot) (nts : BitVec 22) {j : Nat} (hj : j < 8) :
    symbol (ndbBurst p nts) (114 + j) = symbol (p.bb.extractLsb' 0 16) j := by
  rw [Phy.BurstLink.burst_bb p nts hj, symbol_extract p.bb 0 (by omega), Nat.zero_add]

theorem dibitsToBits_append (u v : List (BitVec 2)) :
    dibitsToBits (u ++ v) = dibitsToBits u ++ dibitsToBits v := List.flatMap_append

theorem msbBits_halves (v : BitVec 30) :
    msbBits (v.extractLsb' 16 14) 14 ++ msbBits (v.extractLsb' 0 16) 16 = msbBits v 30 := by
  have hsplit : v.extractLsb' 16 14 ++ v.extractLsb' 0 16 = v := by
    refine BitVec.eq_of_getLsbD_eq fun k hk => ?_
    rw [BitVec.getLsbD_append, BitVec.getLsbD_extractLsb', BitVec.getLsbD_extractLsb']
    by_cases hlow : k < 16
    · simp [hlow]
    · simp [hlow, (by omega : k - 16 < 14), (by omega : 16 + (k - 16) = k)]
  rw [← Packing.msbBits_append (m := 14), hsplit]

theorem sdbBb_received (p : NdbSlot) (sb1 : BitVec 120) (errs : List (BitVec 2)) :
    dibitsToBits (sdbBb (received (BurstBuilder.sdbBurst p sb1) errs)) =
      add (msbBits p.bb 30) (dibitsToBits (sdbBb errs)) :=
  received_field (fun _ hj => sdbBurst_bb p sb1 hj) rfl

theorem ndbBb_received (p : NdbSlot) (nts : BitVec 22) {errs : List (BitVec 2)}
    (herrs : errs.length = 254) :
    dibitsToBits (ndbBb (received (BurstBuilder.ndbBurst p nts) errs)) =
      add (msbBits p.bb 30) (dibitsToBits (ndbBb errs)) := by
  have h1 : dibitsToBits (((received (BurstBuilder.ndbBurst p nts) errs).drop
      (NDB_OFF_BB1 - 1)).take NDB_BB1) =
      add (msbBits (p.bb.extractLsb' 16 14) 14) (errorBits errs (NDB_OFF_BB1 - 1) NDB_BB1) :=
    received_field (fun _ hj => ndbBurst_bb1 p nts hj) rfl
  have h2 : dibitsToBits (((received (BurstBuilder.ndbBurst p nts) errs).drop
      (NDB_OFF_BB2 - 1)).take NDB_BB2) =
      add (msbBits (p.bb.extractLsb' 0 16) 16) (errorBits errs (NDB_OFF_BB2 - 1) NDB_BB2) :=
    received_field (fun _ hj => ndbBurst_bb2 p nts hj) rfl
  have hlen : (errorBits errs (NDB_OFF_BB1 - 1) NDB_BB1).length = 14 := by
    rw [errorBits, dibitsToBits_length, List.length_take, List.length_drop, herrs]
    rfl
  rw [ndbBb, dibitsToBits_append, h1, h2, ← ErrorMargin.add_append (by rw [msbBits_length, hlen]),
    msbBits_halves, ndbBb, dibitsToBits_append]
  rfl

theorem bb_lengths {errs : List (BitVec 2)} (herrs : errs.length = 254) :
    (dibitsToBits (sdbBb errs)).length = 30 ∧ (dibitsToBits (ndbBb errs)).length = 30 := by
  constructor
  · rw [dibitsToBits_length, sdbBb, List.length_take, List.length_drop, herrs]
    rfl
  · rw [dibitsToBits_length, ndbBb, List.length_append, List.length_take, List.length_take,
      List.length_drop, List.length_drop, herrs]
    rfl

theorem readAach_coded (u : BitVec 14) {seed : BitVec 32} (hseed : seed ≠ 0)
    {bbDibits : List (BitVec 2)} {e : List Bool} (he : e.length = 30) (hw : weight e ≤ 3)
    (hbits : dibitsToBits bbDibits =
      add (msbBits (rmEncode u ^^^ AachEncoder.sequenceWord seed) 30) e) :
    readAach seed.toNat bbDibits = (some (parseAach u.toNat), weight e) := by
  have hsequence : msbBits (AachEncoder.sequenceWord seed) 30 = cellSequence 30 seed :=
    msbBits_ofBits (cellSequence_length 30 seed)
  have hword := descramble_scrambled hseed (msbBits_length (rmEncode u) 30) he
  have hlen : (add (List.zipWith xor (msbBits (rmEncode u) 30) (cellSequence 30 seed)) e).length =
      30 := by
    rw [add_length, List.length_zipWith, msbBits_length, cellSequence_length, he]
    rfl
  rw [descramble, hlen] at hword
  rw [readAach, hbits, Lmac.msbBits_xor, hsequence]
  simp only [hword, rm3014Decode_word u he hw, Option.map_some]

/-- The access assignment that an encoder is started for comes back from both kinds of burst with
the number of its wrong bits, as long as these are at most three. -/
theorem access_assign_received {s : AachEncoder} (hs : s.state = .idle) {i : AachInput}
    (hi : i.encodeStart = true) {is : List AachInput} (his : is.length = 31) {p : NdbSlot}
    (hbb : p.bb = (exec AachEncoder.step s (i :: is)).aachCoded) {errs : List (BitVec 2)}
    (herrs : errs.length = 254) :
    (∀ sb1, weight (dibitsToBits (sdbBb errs)) ≤ 3 →
      readAach (makeScrambCode i.mcc.toNat i.mnc.toNat i.colourCode.toNat)
          (sdbBb (received (BurstBuilder.sdbBurst p sb1) errs)) =
        (some (parseAach (slotInfo i).toNat), weight (dibitsToBits (sdbBb errs)))) ∧
    ∀ nts, weight (dibitsToBits (ndbBb errs)) ≤ 3 →
      readAach (makeScrambCode i.mcc.toNat i.mnc.toNat i.colourCode.toNat)
          (ndbBb (received (BurstBuilder.ndbBurst p nts) errs)) =
        (some (parseAach (slotInfo i).toNat), weight (dibitsToBits (ndbBb errs))) := by
  have hcode : makeScrambCode i.mcc.toNat i.mnc.toNat i.colourCode.toNat = (lfsrInit i).toNat :=
    makeScrambCode_eq i.mcc i.mnc i.colourCode
  have hlens := bb_lengths herrs
  rw [AachEncoder.coded hs hi his] at hbb
  rw [hcode]
  constructor
  · intro sb1 hw
    refine readAach_coded (slotInfo i) (AachEncoder.lfsrInit_ne_zero i) hlens.1 hw ?_
    rw [sdbBb_received, hbb]
  · intro nts hw
    refine readAach_coded (slotInfo i) (AachEncoder.lfsrInit_ne_zero i) hlens.2 hw ?_
    rw [ndbBb_received p nts herrs, hbb]

def grant : AachInput := AachEncoder.grantOf 0x1234 262 1010 5

def grantedSlot : NdbSlot where
  block1 := 0
  block2 := 0
  bb := (exec AachEncoder.step .reset (grant :: List.replicate 31 grant)).aachCoded

theorem grantedSlot_bb : grantedSlot.bb =
    (exec AachEncoder.step .reset (grant :: List.replicate 31 grant)).aachCoded := rfl

/-- Two errors in the first part of the block of a normal burst, and many before it. -/
def earlyErrors : List (BitVec 2) := List.replicate 114 3 ++ ([1, 2] ++ List.replicate 138 0)

theorem earlyErrors_length : earlyErrors.length = 254 := by
  rw [earlyErrors, List.length_append, List.length_append, List.length_replicate,
    List.length_replicate]
  rfl

theorem access_assign_received_grantedSlot :
    readAach (makeScrambCode grant.mcc.toNat grant.mnc.toNat grant.colourCode.toNat)
        (sdbBb (received (BurstBuilder.sdbBurst grantedSlot 0) earlyErrors)) =
      (some (parseAach (slotInfo grant).toNat), weight (dibitsToBits (sdbBb earlyErrors))) ∧
    readAach (makeScrambCode grant.mcc.toNat grant.mnc.toNat grant.colourCode.toNat)
        (ndbBb (received (BurstBuilder.ndbBurst grantedSlot 0) earlyErrors)) =
      (some (parseAach (slotInfo grant).toNat), weight (dibitsToBits (ndbBb earlyErrors))) :=
  have h := access_assign_received (s := .reset) rfl (i := grant) rfl
    (List.length_replicate (n := 31)) grantedSlot_bb earlyErrors_length
  ⟨h.1 0 (by decide), h.2 0 (by decide)⟩

end TetraBs.DecodeDl
