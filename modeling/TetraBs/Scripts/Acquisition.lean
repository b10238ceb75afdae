import TetraBs.Lib.Packing
import TetraBs.Lmac.AachEncoder
import TetraBs.Lmac.BurstBuilder
import TetraBs.Scripts.BlockRecovery

/-! Cell acquisition in `scripts/decode_dl.py`, from the dibits of a synchronization burst to the
cell's parameters and its scrambling code. -/
namespace TetraBs.DecodeDl
open TetraBs.Bits TetraBs.BitReader TetraBs.Hamming TetraBs.Lmac TetraBs.Packing TetraBs.Run
  TetraBs.SymbolShift

/-- `extract_bits`; the callers keep within the bits. -/
def extractBits (bits : List Bool) (start n : Nat) : Nat :=
  (List.range n).foldl (fun val i => (val <<< 1) ||| (bits.getD (start + i) false).toNat) 0

/-- What `parse_sysinfo_sb` makes of the 60 bits; both layouts begin with the same four fields. -/
inductive Sysinfo where
  | tmo (systemCode colourCode timeSlot frame multiFrame sharingMode tsReserved uplaneDtx frame18Ext
      reserved mcc mnc neighCellBc cellSvcLvl lateEntry : Nat)
  | dmo (syncPduType colourCode timeSlot frame airInterfaceEnc mni sourceAddress : Nat)
deriving DecidableEq

/-- `parse_sysinfo_sb`. -/
def parseSysinfoSb (bits60 : List Bool) : Sysinfo :=
  let syncType := extractBits bits60 0 4
  if syncType < 8 then
    .tmo syncType (extractBits bits60 4 6) (extractBits bits60 10 2) (extractBits bits60 12 5)
      (extractBits bits60 17 6) (extractBits bits60 23 2) (extractBits bits60 25 3)
      (extractBits bits60 28 1) (extractBits bits60 29 1) (extractBits bits60 30 1)
      (extractBits bits60 31 10) (extractBits bits60 41 14) (extractBits bits60 55 2)
      (extractBits bits60 57 2) (extractBits bits60 59 1)
  else
    .dmo syncType (extractBits bits60 4 6) (extractBits bits60 10 2) (extractBits bits60 12 5)
      (extractBits bits60 17 2) (extractBits bits60 19 24) (extractBits bits60 43 17)

/-- `dibits_to_bits`. -/
def dibitsToBits (dibits : List (BitVec 2)) : List Bool :=
  dibits.flatMap fun d => [d.getLsbD 1, d.getLsbD 0]

def SDB_SB1 : Nat := 60
def SDB_OFF_SB1 : Nat := 6 + 1 + 40
def SDB_OFF_BB : Nat := SDB_OFF_SB1 + SDB_SB1 + 19
def SDB_BB : Nat := 15

/-- What the acquisition leaves: the cell, its scrambling code and the time on the air. -/
structure Acquired where
  mcc : Nat
  mnc : Nat
  cc : Nat
  scrambCode : Nat
  airTn : Nat
  airFn : Nat
  airMn : Nat
deriving DecidableEq

/-- The cell of a decoded synchronization block; `sync_to_air` has no multiframe in direct mode. -/
def Sysinfo.acquired : Sysinfo → Acquired
  | .tmo _ cc tn fn mn _ _ _ _ _ mcc mnc _ _ _ =>
    ⟨mcc, mnc, cc, makeScrambCode mcc mnc cc, tn, fn, mn⟩
  | .dmo _ cc tn fn _ mni src =>
    let mnc := mni &&& 0x3F
    ⟨0, mnc, cc, makeScrambCodeDmo mnc src, tn, fn, 0⟩

/-- One layout of the acquisition loop on the demodulated dibits of a burst, of which there is one
less than symbols. -/
def tryLayout (db : List (BitVec 2)) (lSb1 : Nat) : Option Acquired :=
  let sb1S := lSb1 - 1
  if db.length < sb1S + SDB_SB1 then none
  else
    let sb1B := dibitsToBits ((db.drop sb1S).take SDB_SB1)
    let sb1D := descramble sb1B 3
    let d := decodeChannel sb1D 120 11 60
    if d.crcOk then some (parseSysinfoSb d.info).acquired else none

/-! Fields of a bit string. -/

theorem shift_or_bit (v : Nat) (b : Bool) : (v <<< 1) ||| b.toNat = 2 * v + b.toNat := by
  have hlt : b.toNat < 2 ^ 1 := Nat.lt_succ_of_le (Bool.toNat_le b)
  rw [Nat.shiftLeft_eq, Nat.mul_comm, ← Nat.two_pow_add_eq_or_of_lt hlt, Nat.pow_one]

theorem ofBits_snoc (bs : List Bool) (b : Bool) : ofBits (bs ++ [b]) = 2 * ofBits bs + b.toNat := by
  induction bs with
  | nil => simp [ofBits]
  | cons c bs ih =>
    rw [List.cons_append, ofBits, ofBits, ih, List.length_append, List.length_singleton,
      Nat.pow_succ]
    generalize 2 ^ bs.length = x
    cases c
    · simp
    · simp
      omega

theorem extractBits_eq (front bs back : List Bool) :
    extractBits (front ++ bs ++ back) front.length bs.length = ofBits bs := by
  have hall : ∀ m ≤ bs.length, (List.range m).foldl (fun val i => (val <<< 1) |||
      ((front ++ bs ++ back).getD (front.length + i) false).toNat) 0 = ofBits (bs.take m) := by
    intro m hm
    induction m with
    | zero => rfl
    | succ m ih =>
      rw [List.range_succ, List.foldl_concat, ih (by omega), shift_or_bit,
        List.take_succ_eq_append_getElem (by omega), ofBits_snoc, List.append_assoc,
        List.getD_append_right _ _ _ _ (by omega), Nat.add_sub_cancel_left,
        List.getD_append _ _ _ _ (by omega), List.getD_eq_getElem _ _ (by omega)]
  have h := hall bs.length (Nat.le_refl _)
  rwa [List.take_length] at h

/-- A field of a PDU. -/
structure Field where
  width : Nat
  value : BitVec width

def Field.bits (f : Field) : List Bool := msbBits f.value f.width

/-- The bits of the fields one behind the other. -/
def fieldBits (fs : List Field) : List Bool := fs.flatMap Field.bits

def offset (fs : List Field) (i : Nat) : Nat := (fs.take i).foldr (fun f n => f.width + n) 0

theorem fieldBits_take_length (fs : List Field) (i : Nat) :
    (fieldBits (fs.take i)).length = offset fs i := by
  rw [offset]
  generalize fs.take i = gs
  induction gs with
  | nil => rfl
  | cons g gs ih =>
    rw [fieldBits, List.flatMap_cons, List.length_append, ← fieldBits, ih, Field.bits,
      msbBits_length]
    rfl

/-- Every field is read back at its place. -/
theorem extract_field (fs : List Field) (i : Nat) (f : Field) (hf : fs[i]? = some f)
    (rest : List Bool) :
    extractBits (fieldBits fs ++ rest) (offset fs i) f.width = f.value.toNat := by
  have hsplit : fs = fs.take i ++ f :: fs.drop (i + 1) := by
    obtain ⟨hi, hfi⟩ := List.getElem?_eq_some_iff.1 hf
    rw [← hfi, ← List.drop_eq_getElem_cons hi, List.take_append_drop]
  have hbits : fieldBits fs ++ rest =
      fieldBits (fs.take i) ++ f.bits ++ (fieldBits (fs.drop (i + 1)) ++ rest) := by
    conv => lhs; rw [hsplit]
    rw [fieldBits, List.flatMap_append, List.flatMap_cons, List.append_assoc, List.append_assoc,
      List.append_assoc]
    rfl
  have hread := extractBits_eq (fieldBits (fs.take i)) f.bits
    (fieldBits (fs.drop (i + 1)) ++ rest)
  rw [← hbits, fieldBits_take_length, Field.bits, msbBits_length, ofBits_msbBits,
    Nat.mod_eq_of_lt f.value.isLt] at hread
  exact hread

/-! The synchronization PDU. -/

def syncFields (x : Sb1Input) : List Field :=
  [⟨4, x.cfgSystemCode⟩, ⟨6, x.cfgColourCode⟩, ⟨2, x.sdbSlot⟩, ⟨5, x.frameNum⟩,
    ⟨6, x.multiframeNum⟩, ⟨2, x.cfgSharingMode⟩, ⟨3, x.cfgTsReservedFrames⟩,
    ⟨1, BitVec.ofBool x.cfgUPlane⟩, ⟨1, BitVec.ofBool x.cfgFrame18Ext⟩, ⟨1, 0#1⟩, ⟨10, x.cfgMcc⟩,
    ⟨14, x.cfgMnc⟩, ⟨2, x.cfgNeighbourCellBroadcast⟩, ⟨2, x.cfgCellServiceLevel⟩,
    ⟨1, BitVec.ofBool x.cfgLateEntryInfo⟩]

theorem syncPdu_bits (x : Sb1Input) : msbBits x.syncPdu 60 = fieldBits (syncFields x) := by
  rw [Sb1Input.syncPdu, msbBits_append (m := 59), msbBits_append (m := 57),
    msbBits_append (m := 55), msbBits_append (m := 41), msbBits_append (m := 31),
    msbBits_append (m := 30), msbBits_append (m := 29), msbBits_append (m := 28),
    msbBits_append (m := 25), msbBits_append (m := 23), msbBits_append (m := 17),
    msbBits_append (m := 12), msbBits_append (m := 10), msbBits_append (m := 4)]
  simp only [syncFields, fieldBits, List.flatMap_cons, List.flatMap_nil, Field.bits,
    List.append_assoc, List.append_nil]

/-- What is read of the synchronization PDU of a cell in trunked mode is what the encoder was given,
field by field. -/
theorem parseSysinfoSb_syncPdu {x : Sb1Input} (htmo : x.cfgSystemCode.toNat < 8) :
    parseSysinfoSb (msbBits x.syncPdu 60) =
      .tmo x.cfgSystemCode.toNat x.cfgColourCode.toNat x.sdbSlot.toNat x.frameNum.toNat
        x.multiframeNum.toNat x.cfgSharingMode.toNat x.cfgTsReservedFrames.toNat
        x.cfgUPlane.toNat x.cfgFrame18Ext.toNat 0 x.cfgMcc.toNat x.cfgMnc.toNat
        x.cfgNeighbourCellBroadcast.toNat x.cfgCellServiceLevel.toNat x.cfgLateEntryInfo.toNat := by
  have hread : ∀ i f, (syncFields x)[i]? = some f →
      extractBits (msbBits x.syncPdu 60) (offset (syncFields x) i) f.width = f.value.toNat := by
    intro i f hf
    have h := extract_field (syncFields x) i f hf []
    rwa [List.append_nil, ← syncPdu_bits] at h
  have h0 := hread 0 _ rfl
  have h1 := hread 1 _ rfl
  have h2 := hread 2 _ rfl
  have h3 := hread 3 _ rfl
  have h4 := hread 4 _ rfl
  have h5 := hread 5 _ rfl
  have h6 := hread 6 _ rfl
  have h7 := hread 7 _ rfl
  have h8 := hread 8 _ rfl
  have h9 := hread 9 _ rfl
  have h10 := hread 10 _ rfl
  have h11 := hread 11 _ rfl
  have h12 := hread 12 _ rfl
  have h13 := hread 13 _ rfl
  have h14 := hread 14 _ rfl
  simp only [offset, syncFields, List.take_zero, List.take_succ_cons, List.foldr_cons,
    List.foldr_nil, Nat.add_zero, Nat.reduceAdd, BitVec.toNat_ofBool]
    at h0 h1 h2 h3 h4 h5 h6 h7 h8 h9 h10 h11 h12 h13 h14
  simp only [parseSysinfoSb, h0, if_pos htmo, h1, h2, h3, h4, h5, h6, h7, h8, h9, h10, h11, h12,
    h13, h14]
  rfl

theorem makeScrambCode_eq (mcc : BitVec 10) (mnc : BitVec 14) (cc : BitVec 6) :
    makeScrambCode mcc.toNat mnc.toNat cc.toNat = (mcc ++ mnc ++ cc ++ 3#2).toNat := by
  have hmcc : mcc.toNat &&& 0x3FF = mcc.toNat := by
    rw [Nat.and_two_pow_sub_one_eq_mod _ 10, Nat.mod_eq_of_lt mcc.isLt]
  have hmnc : mnc.toNat &&& 0x3FFF = mnc.toNat := by
    rw [Nat.and_two_pow_sub_one_eq_mod _ 14, Nat.mod_eq_of_lt mnc.isLt]
  have hcc : cc.toNat &&& 0x3F = cc.toNat := by
    rw [Nat.and_two_pow_sub_one_eq_mod _ 6, Nat.mod_eq_of_lt cc.isLt]
  simp only [makeScrambCode, hmcc, hmnc, hcc, BitVec.toNat_append, Nat.shiftLeft_or_distrib,
    ← Nat.shiftLeft_add]
  rfl

/-! The way of a burst from the transmitter to the dibits of the tool. -/

/-- The dibits of a burst as the differential demodulator has them, none for the first symbol, with
what went wrong on the way. -/
def received (burst : BitVec 510) (errs : List (BitVec 2)) : List (BitVec 2) :=
  List.zipWith (· ^^^ ·) ((List.range 254).map fun i => symbol burst (253 - i)) errs

/-- The wrong bits of the dibits from `off` on. -/
def errorBits (errs : List (BitVec 2)) (off len : Nat) : List Bool :=
  dibitsToBits ((errs.drop off).take len)

theorem dibitsToBits_xor (u v : List (BitVec 2)) :
    dibitsToBits (List.zipWith (· ^^^ ·) u v) = add (dibitsToBits u) (dibitsToBits v) := by
  induction u generalizing v with
  | nil => rfl
  | cons c u ih =>
    cases v with
    | nil => simp [dibitsToBits, add]
    | cons d v =>
      have hrest := ih v
      rw [dibitsToBits] at hrest
      rw [List.zipWith_cons_cons, dibitsToBits, List.flatMap_cons, hrest]
      simp [dibitsToBits, add]

theorem dibitsToBits_length (u : List (BitVec 2)) : (dibitsToBits u).length = 2 * u.length := by
  induction u with
  | nil => rfl
  | cons d u ih =>
    rw [dibitsToBits] at ih
    rw [dibitsToBits, List.flatMap_cons, List.length_append, ih, List.length_cons]
    simp
    omega

/-- The symbols of a field, the first one first, are its bits. -/
theorem dibitsToBits_symbols {len : Nat} (v : BitVec (2 * len)) :
    dibitsToBits ((List.range len).map fun i => symbol v (len - 1 - i)) = msbBits v (2 * len) := by
  have hall : ∀ m ≤ len, dibitsToBits ((List.range m).map fun i => symbol v (len - 1 - i)) =
      (msbBits v (2 * len)).take (2 * m) := by
    intro m hm
    induction m with
    | zero => rfl
    | succ m ih =>
      have hbit : ∀ j < 2, (msbBits v (2 * len))[2 * m + j]? =
          some (v.getLsbD (2 * (len - 1 - m) + (1 - j))) := by
        intro j hj
        rw [msbBits, List.getElem?_map, List.getElem?_range (by omega), Option.map_some]
        congr 2
        omega
      rw [List.range_succ, List.map_append, dibitsToBits, List.flatMap_append, ← dibitsToBits,
        ih (by omega), (by omega : 2 * (m + 1) = 2 * m + 1 + 1), List.take_add_one,
        List.take_add_one, hbit 1 (by decide), ← Nat.add_zero (2 * m), hbit 0 (by decide)]
      simp [symbol]
  have h := hall len (Nat.le_refl _)
  rwa [List.take_of_length_le (by rw [msbBits_length])] at h

/-- A field of the burst as it is received. -/
theorem received_field {burst : BitVec 510} {errs : List (BitVec 2)} {off len c : Nat}
    {v : BitVec (2 * len)} (hv : ∀ j < len, symbol burst (c + j) = symbol v j)
    (hplace : off + len + c = 254) :
    dibitsToBits (((received burst errs).drop off).take len) =
      add (msbBits v (2 * len)) (errorBits errs off len) := by
  have hsent : (((List.range 254).map fun i => symbol burst (253 - i)).drop off).take len =
      (List.range len).map fun i => symbol v (len - 1 - i) := by
    refine List.ext_getElem (by simp; omega) fun i hi hi' => ?_
    rw [List.length_map, List.length_range] at hi'
    simp only [List.getElem_take, List.getElem_drop, List.getElem_map, List.getElem_range]
    rw [← hv _ (by omega)]
    congr 1
    omega
  rw [received, List.drop_zipWith, List.take_zipWith, dibitsToBits_xor, hsent,
    dibitsToBits_symbols, errorBits]

open BurstBuilder in
theorem sdbBurst_sb1 (p : NdbSlot) (sb1 : BitVec 120) {j : Nat} (hj : j < 60) :
    symbol (sdbBurst p sb1) (148 + j) = symbol sb1 j := by
  rw [(by omega : 148 + j = 5 + (1 + (108 + (15 + (19 + j)))))]
  calc symbol (sdbBurst p sb1) (5 + (1 + (108 + (15 + (19 + j)))))
      = symbol (TAIL1 ++ PADJ ++ FC_PAT ++ sb1 ++ STS_REF ++ p.bb ++ p.block2 ++ PADJ)
          (1 + (108 + (15 + (19 + j)))) := symbol_append_high (c := 5) _ TAIL2 _
    _ = symbol (TAIL1 ++ PADJ ++ FC_PAT ++ sb1) j := by
        rw [symbol_append_high (c := 1) _ PADJ, symbol_append_high (c := 108) _ p.block2,
          symbol_append_high (c := 15) _ p.bb, symbol_append_high (c := 19) _ STS_REF]
    _ = symbol sb1 j := symbol_append_low _ _ (by omega)

/-- The initial value of the scrambler in the cell that a synchronization block announces. -/
def cellCode (x : Sb1Input) : BitVec 32 := x.cfgMcc ++ x.cfgMnc ++ x.cfgColourCode ++ 3#2

/-- What a block stands for once it is recovered. -/
theorem acquired_syncPdu {x : Sb1Input} (htmo : x.cfgSystemCode.toNat < 8) :
    (parseSysinfoSb (msbBits x.syncPdu 60)).acquired =
      ⟨x.cfgMcc.toNat, x.cfgMnc.toNat, x.cfgColourCode.toNat, (cellCode x).toNat,
        x.sdbSlot.toNat, x.frameNum.toNat, x.multiframeNum.toNat⟩ := by
  rw [parseSysinfoSb_syncPdu htmo, Sysinfo.acquired, makeScrambCode_eq, cellCode]

/-- From the burst with the synchronization block of a cell the tool acquires the cell, its
scrambling code and the time, in spite of errors within ten consecutive bits of the block and of any
errors elsewhere. -/
theorem tryLayout_acquires {s : Sb1Encoder} (hs : s.state = .idle) {x : Sb1Input}
    (hx : x.encodeStart = true) (htmo : x.cfgSystemCode.toNat < 8) {is : List Sb1Input}
    (hlen : is.length = 142) (p : NdbSlot) {errs : List (BitVec 2)} (herrs : errs.length = 254)
    (hburst : Crc.Burst 10 (errorBits errs (SDB_OFF_SB1 - 1) SDB_SB1)) :
    tryLayout (received (BurstBuilder.sdbBurst p (exec Sb1Encoder.step s (x :: is)).sb1Coded) errs)
        SDB_OFF_SB1 =
      some ⟨x.cfgMcc.toNat, x.cfgMnc.toNat, x.cfgColourCode.toNat, (cellCode x).toNat,
        x.sdbSlot.toNat, x.frameNum.toNat, x.multiframeNum.toNat⟩ := by
  have hsent := SentBlock.sb1 hs hx hlen
  have hair := hsent.air_eq
  have herrors : (errorBits errs (SDB_OFF_SB1 - 1) SDB_SB1).length = 120 := by
    rw [errorBits, dibitsToBits_length, List.length_take, List.length_drop, herrs]
    rfl
  have hfield : dibitsToBits (((received (BurstBuilder.sdbBurst p
      (exec Sb1Encoder.step s (x :: is)).sb1Coded) errs).drop (SDB_OFF_SB1 - 1)).take SDB_SB1) =
      add (msbBits (exec Sb1Encoder.step s (x :: is)).sb1Coded 120)
        (errorBits errs (SDB_OFF_SB1 - 1) SDB_SB1) :=
    received_field (fun j hj => sdbBurst_sb1 p _ hj) rfl
  have hback : decodeChannel (descramble (add (blockReference 11 120 3 (msbBits x.syncPdu 60))
      (errorBits errs (SDB_OFF_SB1 - 1) SDB_SB1)) 3) 120 11 60 =
      recovered (msbBits x.syncPdu 60) :=
    block_recovered (p := 38) rfl rfl (by decide) (by decide) (show 3#32 ≠ 0 by decide)
      hsent.sizes.1 herrors (burst_spaced herrors hsent.spread_far hburst)
  have hlong : ¬ (received (BurstBuilder.sdbBurst p (exec Sb1Encoder.step s (x :: is)).sb1Coded)
      errs).length < SDB_OFF_SB1 - 1 + SDB_SB1 := by
    rw [received, List.length_zipWith, List.length_map, List.length_range, herrs]
    decide
  simp only [tryLayout, if_neg hlong, hfield, hair, hback, recovered, if_true,
    acquired_syncPdu htmo]

def anyCell : Sb1Input where
  cfgSystemCode := 1
  cfgColourCode := 5
  cfgSharingMode := 0
  cfgTsReservedFrames := 0
  cfgUPlane := false
  cfgFrame18Ext := false
  cfgMcc := 262
  cfgMnc := 1010
  cfgNeighbourCellBroadcast := 0
  cfgCellServiceLevel := 0
  cfgLateEntryInfo := true
  encodeStart := true
  sdbSlot := 0
  frameNum := 17
  multiframeNum := 3

/-- Every bit before the block, its first ten and all bits behind it are wrong. -/
def wrongDibits : List (BitVec 2) :=
  List.replicate 51 3 ++ List.replicate 55 0 ++ List.replicate 148 3

theorem wrongDibits_length : wrongDibits.length = 254 := by
  rw [wrongDibits, List.length_append, List.length_append, List.length_replicate,
    List.length_replicate, List.length_replicate]

theorem wrongDibits_burst : Crc.Burst 10 (errorBits wrongDibits (SDB_OFF_SB1 - 1) SDB_SB1) :=
  ⟨0, List.replicate 10 true, 110, by decide, by decide⟩

theorem tryLayout_acquires_anyCell :
    tryLayout (received (BurstBuilder.sdbBurst ⟨0, 0, 0⟩
        (exec Sb1Encoder.step .reset (anyCell :: List.replicate 142 anyCell)).sb1Coded) wrongDibits)
        SDB_OFF_SB1 =
      some ⟨262, 1010, 5, (cellCode anyCell).toNat, 0, 17, 3⟩ :=
  tryLayout_acquires (s := .reset) rfl (x := anyCell) rfl (by decide)
    (List.length_replicate (n := 142)) ⟨0, 0, 0⟩ wrongDibits_length wrongDibits_burst

end TetraBs.DecodeDl
