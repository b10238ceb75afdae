import TetraBs.Scripts.MacParser
import TetraBs.Umac.UlAccessLayout

/-! The MAC-ACCESS parser of `scripts/decode_ul.py`, and the parser of the FPGA beside it: what the
two make of the same block. -/
namespace TetraBs.DecodeUl
open TetraBs.Bits TetraBs.BitReader TetraBs.FieldReader TetraBs.DecodeDl TetraBs.UlAccess

/-! MLE and MM. -/

inductive UlKey where
  | mleDisc | mmType | payloadStart | payloadEnd
  | optionalFieldsPresent | addressExtensionPresent | addressExtension
  | locationUpdateType | requestToAppendLa | cipherControl | classOfMsPresent | classOfMs
  | energySavingModePresent | energySavingMode | laInformationPresent | locationArea
  | ssiPresent | ssi | moreOptionalBits | groupIdentityReport | attachDetachMode | statusValue
deriving DecidableEq

/-- An optional element of `n` bits behind its flag. -/
def optionalElement (present k : UlKey) (n : Nat) : FieldM UlKey Unit :=
  DecodeDl.ifRoom 1 do
    let p ← field present 1
    onlyIf (p = 1) (fieldIfRoom k n)

def parseDetach : FieldM UlKey Unit := do
  DecodeDl.ifRoom 1 do
    let obit ← field .optionalFieldsPresent 1
    onlyIf (obit = 1) (optionalElement .addressExtensionPresent .addressExtension 24)
  findPosition .payloadEnd

def parseDemandOptions : FieldM UlKey Unit := do
  optionalElement .classOfMsPresent .classOfMs 24
  optionalElement .energySavingModePresent .energySavingMode 3
  optionalElement .laInformationPresent .locationArea 14
  optionalElement .ssiPresent .ssi 24
  optionalElement .addressExtensionPresent .addressExtension 24
  fieldIfRoom .moreOptionalBits 1

/-- What follows the type of update in a U-LOCATION-UPDATE-DEMAND. -/
def parseDemandRest : FieldM UlKey Unit := do
  fieldIfRoom .requestToAppendLa 1
  fieldIfRoom .cipherControl 1
  DecodeDl.ifRoom 1 do
    let oBit ← field .optionalFieldsPresent 1
    onlyIf (oBit = 1) parseDemandOptions
  findPosition .payloadEnd

/-- `parse_ul_mm`. -/
def parseUlMm (mmType : Nat) : FieldM UlKey Unit :=
  if mmType = 1 then parseDetach
  else if mmType = 2 then do
    fieldIfRoom .locationUpdateType 3
    parseDemandRest
  else if mmType = 7 then do
    fieldIfRoom .groupIdentityReport 1
    fieldIfRoom .attachDetachMode 1
    findPosition .payloadEnd
  else if mmType = 3 then do
    fieldIfRoom .statusValue 5
    findPosition .payloadEnd
  else pure ()

/-- `parse_ul_mle`; nothing is found in less than three bits. The caller's position is not moved by
the MM part. -/
def parseUlMle (bits : List Bool) (pos : Nat) : Finds UlKey :=
  if bits.length < pos + 3 then []
  else
    let disc := numberAt bits pos 3
    let pos := pos + 3
    let r : Finds UlKey := [(.mleDisc, disc)]
    if disc = 1 ∧ pos + 4 ≤ bits.length then
      let mmType := numberAt bits pos 4
      r ++ [(.mmType, mmType)] ++ findsFrom (parseUlMm mmType) bits (pos + 4) ++
        [(.payloadStart, pos + 4)]
    else r ++ [(.payloadStart, pos)]

/-- `parse_ul_direct_mm`. -/
def parseUlDirectMm (bits : List Bool) (pos : Nat) : Finds UlKey :=
  if bits.length < pos + 4 then []
  else
    let mmType := numberAt bits pos 4
    [(.mmType, mmType)] ++ findsFrom (parseUlMm mmType) bits (pos + 4) ++
      [(.payloadStart, pos + 4)]

/-! MAC. -/

inductive AccessKey where
  | pduType | fillBit | macTopNibble | encrypted | addrType | eventLabel | ssi
  | optionalFieldFlag | lengthInd | fragFlag | reservationReq | payloadStart
deriving DecidableEq

/-- The field behind the flag: a length or a capacity request. -/
def parseOptionalField : FieldM AccessKey Unit := do
  let lindOrCap ← skipped 1
  if lindOrCap = 0 then fieldIfRoom .lengthInd 5
  else DecodeDl.ifRoom 5 do
    let _ ← field .fragFlag 1
    let _ ← field .reservationReq 4

def parseAccessHeader : FieldM AccessKey Unit := do
  let _ ← field .encrypted 1
  let addrType ← field .addrType 2
  let _ ← field (if addrType = 1 then .eventLabel else .ssi) (if addrType = 1 then 10 else 24)
  DecodeDl.ifRoom 1 do
    let optFlag ← field .optionalFieldFlag 1
    onlyIf (optFlag = 1) (DecodeDl.ifRoom 1 parseOptionalField)
  findPosition .payloadStart

def macAccess : FieldM AccessKey Unit := do
  let macPduType ← field .pduType 1
  let fillBits ← field .fillBit 1
  if macPduType = 0 then parseAccessHeader
  else find .macTopNibble (2 * macPduType + fillBits)

/-- `LLC_PDU_NAMES`. -/
def llcPduNames : List (Nat × String) :=
  [(0, "BL-ADATA"), (1, "BL-DATA"), (2, "BL-UDATA"), (3, "BL-ACK"),
    (4, "BL-ADATA+FCS"), (5, "BL-DATA+FCS"), (6, "BL-UDATA+FCS"), (7, "BL-ACK+FCS"),
    (8, "AL-SETUP"), (9, "AL-DATA/AR/FINAL"), (10, "AL-UDATA/UFINAL"), (11, "AL-ACK/RNR"),
    (12, "AL-RECONNECT"), (13, "SUPP-LLC"), (14, "L2SigPdu"), (15, "AL-DISC")]

/-- The MM PDU types whose names in `UL_MM_NAMES` begin with `U-`. -/
def isUplinkMm (mmType : Nat) : Bool := mmType ≤ 9 || mmType = 11

inductive DecodedMode where
  | directMm | llcMle | raw
deriving DecidableEq

/-- What is read of a block, layer by layer. -/
structure AccessRead where
  mac : Finds AccessKey
  llc : Option (Finds LlcKey)
  mle : Option (Finds UlKey)
  directMm : Option (Finds UlKey)
  mode : Option DecodedMode
deriving DecidableEq

/-- The names of the PDUs decide: a direct MM PDU is one whose LLC type has no name. -/
def decodedMode (llc : Finds LlcKey) (mle : Option (Finds UlKey)) (direct : Finds UlKey) :
    DecodedMode :=
  if ((llc.lookup .llcType).bind fun t => llcPduNames.lookup t) = none ∧
      (direct.lookup .mmType).any isUplinkMm then .directMm
  else if mle.isSome then .llcMle
  else .raw

/-- The MLE part, where the LLC header says that it starts. -/
def mleBehind (bits : List Bool) (llc : Finds LlcKey) : Option (Finds UlKey) :=
  match llc.lookup .payloadStart with
  | none => none
  | some start => if start + 3 ≤ bits.length then some (parseUlMle bits start) else none

/-- The LLC PDU at `pos`, read both ways. -/
def readLlc (bits : List Bool) (mac : Finds AccessKey) (pos : Nat) : AccessRead :=
  let llc := parseLlc bits pos
  let mle := mleBehind bits llc
  let direct := parseUlDirectMm bits pos
  ⟨mac, some llc, mle, some direct, some (decodedMode llc mle direct)⟩

/-- `parse_mac_access`. -/
def parseMacAccess (bits : List Bool) : Option AccessRead :=
  if bits.length < 20 then none
  else
    let mac := findsFrom macAccess bits 0
    if mac.lookup .pduType ≠ some 0 then some ⟨mac, none, none, none, none⟩
    else
      let pos := (mac.lookup .payloadStart).getD 0
      if pos + 4 ≤ bits.length then some (readLlc bits mac pos)
      else some ⟨mac, none, none, none, none⟩

/-! A field of the FPGA is the number that the tool reads at its position. -/

theorem onAir_length (info : Info) : (onAir info).length = 92 := by
  rw [onAir, List.length_map, List.length_range]

theorem numberAt_field (info : Info) {pos n : Nat} (h : pos + n ≤ 92) :
    numberAt (onAir info) pos n = (UlAccess.field info pos n).toNat := by
  have hbits : ((onAir info).drop pos).take n = msbBits (UlAccess.field info pos n) n := by
    refine List.ext_getElem ?_ fun k hk hk' => ?_
    · rw [List.length_take, List.length_drop, onAir_length, msbBits_length]
      omega
    · rw [msbBits_length] at hk'
      rw [List.getElem_take, List.getElem_drop]
      simp only [onAir, msbBits, List.getElem_map, List.getElem_range]
      rw [UlAccess.field, BitVec.getLsbD_reverse, BitVec.getMsbD, BitVec.getLsbD_extractLsb']
      have hback : n - 1 - (n - 1 - k) = k := by omega
      rw [hback, decide_eq_true (by omega : k < n), decide_eq_true (by omega : n - 1 - k < n),
        Bool.true_and, Bool.true_and]
  rw [numberAt, hbits, ofBits_msbBits, Nat.mod_eq_of_lt (UlAccess.field info pos n).isLt]

theorem numberAt_bit (info : Info) {pos : Nat} (h : pos < 92) :
    numberAt (onAir info) pos 1 = (info.getLsbD pos).toNat := by
  have hone : ((onAir info).drop pos).take 1 = [info.getLsbD pos] := by
    have hlen : pos < (onAir info).length := by rwa [onAir_length]
    rw [List.drop_eq_getElem_cons hlen]
    simp [onAir]
  rw [numberAt, hone]
  cases info.getLsbD pos <;> rfl


/-! What is found in a block of 92 bits. -/

section
variable {info : Info}

/-- What is found between the address and the LLC PDU. -/
def optionalFinds (info : Info) (pos : Nat) : Finds AccessKey :=
  (.optionalFieldFlag, (info.getLsbD pos).toNat) ::
    if info.getLsbD pos then
      if info.getLsbD (pos + 1) then
        [(.fragFlag, (info.getLsbD (pos + 2)).toNat),
          (.reservationReq, (UlAccess.field info (pos + 3) 4).toNat)]
      else [(.lengthInd, (UlAccess.field info (pos + 2) 5).toNat)]
    else []

def optionalStop (info : Info) (pos : Nat) : Nat := if info.getLsbD pos then pos + 7 else pos + 1

theorem gives_fieldIfRoom {κ : Type} {bits : List Bool} {pos n v : Nat} (k : κ)
    (h : pos + n ≤ bits.length) (hv : numberAt bits pos n = v) :
    Gives bits pos (fieldIfRoom k n) [(k, v)] () (pos + n) :=
  Gives.room h (Gives.field h hv (gives_pure ()))

theorem gives_optional {pos : Nat} (h : pos + 7 ≤ 92) :
    Gives (onAir info) pos (DecodeDl.ifRoom 1 do
        let optFlag ← field .optionalFieldFlag 1
        onlyIf (optFlag = 1) (DecodeDl.ifRoom 1 parseOptionalField))
      (optionalFinds info pos) () (optionalStop info pos) := by
  have hlen := onAir_length info
  refine Gives.room (by omega) ?_
  refine Gives.field (by omega) (numberAt_bit info (by omega)) ?_
  rw [optionalStop]
  cases hflag : info.getLsbD pos with
  | false =>
    rw [if_neg Bool.false_ne_true, if_neg Bool.false_ne_true, onlyIf, if_neg (by decide)]
    exact gives_pure ()
  | true =>
    rw [if_pos rfl, if_pos rfl, onlyIf, if_pos (by decide)]
    refine Gives.room (by omega) ?_
    refine Gives.skipped (by omega) (numberAt_bit info (by omega)) ?_
    cases hcap : info.getLsbD (pos + 1) with
    | false =>
      rw [if_neg Bool.false_ne_true, if_pos (by rfl)]
      exact gives_fieldIfRoom _ (by omega) (numberAt_field info (by omega))
    | true =>
      rw [if_pos rfl, if_neg (by decide)]
      refine Gives.room (by omega) ?_
      refine Gives.field (by omega) (numberAt_bit info (by omega)) ?_
      exact Gives.field (by omega) (numberAt_field info (by omega)) (gives_pure ())

/-- What is found of the header of a MAC-ACCESS. -/
def accessFinds (info : Info) : Finds AccessKey :=
  (.pduType, 0) :: (.fillBit, (fFillBit info).toNat) ::
    (.encrypted, (fEncryptionMode info).toNat) :: (.addrType, (fAddrType info).toNat) ::
    (if fAddrType info = 1 then (.eventLabel, (fEventLabel info).toNat)
      else (.ssi, (fIssi info).toNat)) ::
    (optionalFinds info (if fAddrType info = 1 then 15 else 29) ++
      [(.payloadStart, optionalStop info (if fAddrType info = 1 then 15 else 29))])

theorem macAccess_finds (h : fPduType info = false) :
    findsFrom macAccess (onAir info) 0 = accessFinds info := by
  have hlen := onAir_length info
  have htype : numberAt (onAir info) 0 1 = 0 := by
    rw [numberAt_bit info (by omega)]
    exact congrArg Bool.toNat h
  have hgives : Gives (onAir info) 0 macAccess (accessFinds info) ()
      (optionalStop info (if fAddrType info = 1 then 15 else 29)) := by
    rw [macAccess, accessFinds]
    refine Gives.field (by omega) htype ?_
    refine Gives.field (by omega) (numberAt_bit info (by omega)) ?_
    rw [if_pos rfl, parseAccessHeader]
    refine Gives.field (by omega) (numberAt_bit info (by omega)) ?_
    refine Gives.field (by omega) (numberAt_field info (by omega)) ?_
    by_cases haddr : fAddrType info = 1
    · have htype : (fAddrType info).toNat = 1 := by rw [haddr]; rfl
      simp only [htype, if_true]
      simp only [haddr, if_true]
      refine Gives.field (by omega) (numberAt_field info (by omega)) ?_
      exact (gives_optional (by decide)).bind (gives_findPosition _)
    · have htype : ¬ (fAddrType info).toNat = 1 := fun h => haddr (BitVec.eq_of_toNat_eq h)
      simp only [haddr, htype, if_false]
      refine Gives.field (by omega) (numberAt_field info (by omega)) ?_
      exact (gives_optional (by decide)).bind (gives_findPosition _)
  exact hgives.findsFrom

/-! LLC. -/

/-- Behind N(R), and behind N(S). -/
def nrStop (s t : Nat) : Nat := if t = 0 ∨ t = 3 ∨ t = 4 ∨ t = 7 then s + 4 + 1 else s + 4

def nsStop (s t : Nat) : Nat :=
  if t = 0 ∨ t = 1 ∨ t = 4 ∨ t = 5 then nrStop s t + 1 else nrStop s t

/-- What is found of an LLC header of type `t` at `s`. -/
def llcHeaderFinds (info : Info) (s t : Nat) : Finds LlcKey :=
  (.llcType, t) ::
    ((if t = 0 ∨ t = 3 ∨ t = 4 ∨ t = 7 then [(.nr, (info.getLsbD (s + 4)).toNat)] else []) ++
      ((if t = 0 ∨ t = 1 ∨ t = 4 ∨ t = 5 then [(.ns, (info.getLsbD (nrStop s t)).toNat)]
        else []) ++
        ((if t ≤ 7 ∨ t = 14 then [(.payloadStart, nsStop s t)] else []) ++
          ((if t = 14 then [(.directMm, 1)] else []) ++
            if 4 ≤ t ∧ t ≤ 7 then [(.hasFcs, 1)] else []))))

theorem gives_onlyIf {κ : Type} {bits : List Bool} {pos stop : Nat} {c : Prop} [Decidable c]
    {m : FieldM κ Unit} {kvs : Finds κ} (h : Gives bits pos m kvs () stop) :
    Gives bits pos (onlyIf c m) (if c then kvs else []) () (if c then stop else pos) := by
  by_cases hc : c
  · rw [onlyIf, if_pos hc, if_pos hc, if_pos hc]
    exact h
  · rw [onlyIf, if_neg hc, if_neg hc, if_neg hc]
    exact gives_pure ()

/-- A condition on a step that stays where it is. -/
theorem gives_onlyIf_still {κ : Type} {bits : List Bool} {pos : Nat} {c : Prop} [Decidable c]
    {m : FieldM κ Unit} {kvs : Finds κ} (h : Gives bits pos m kvs () pos) :
    Gives bits pos (onlyIf c m) (if c then kvs else []) () pos := by
  have hc := gives_onlyIf (c := c) h
  rwa [ite_self] at hc

theorem gives_find {κ : Type} {bits : List Bool} {pos : Nat} (k : κ) (v : Nat) :
    Gives bits pos (find k v) [(k, v)] () pos := fun _ => rfl

theorem llcHeader_finds {s t : Nat} (h : s + 6 ≤ 92) (ht : numberAt (onAir info) s 4 = t) :
    findsFrom llcHeader (onAir info) s = llcHeaderFinds info s t := by
  have hlen := onAir_length info
  have hns : nrStop s t + 1 ≤ 92 := by
    rw [nrStop]
    split <;> omega
  have hgives : Gives (onAir info) s llcHeader (llcHeaderFinds info s t) () (nsStop s t) := by
    rw [llcHeader, llcHeaderFinds]
    refine Gives.field (by omega) ht ?_
    refine (gives_onlyIf (gives_fieldIfRoom _ (by omega) (numberAt_bit info (by omega)))).bind ?_
    refine (gives_onlyIf (gives_fieldIfRoom _ (hns.trans_eq hlen.symm)
      (numberAt_bit info hns))).bind ?_
    refine (gives_onlyIf_still (gives_findPosition _)).bind ?_
    exact (gives_onlyIf_still (gives_find _ 1)).bind (gives_onlyIf_still (gives_find _ 1))
  exact hgives.findsFrom

/-- The type is the three parts of it that the FPGA tells apart. -/
theorem llc_type {s : Nat} (h : s + 4 ≤ 92) : numberAt (onAir info) s 4 =
    (BitVec.ofBool (info.getLsbD s) ++ BitVec.ofBool (info.getLsbD (s + 1)) ++
      UlAccess.field info (s + 2) 2).toNat := by
  have hlen := onAir_length info
  have hsplit : ∀ (a b : Bool) (c : BitVec 2),
      2 ^ 3 * a.toNat + (2 ^ 2 * b.toNat + c.toNat) =
        (BitVec.ofBool a ++ BitVec.ofBool b ++ c).toNat := by decide
  rw [← hsplit, ← numberAt_bit info (by omega), ← numberAt_bit info (by omega),
    ← numberAt_field info (by omega), ← numberAt_add (by omega), ← numberAt_add (by omega)]

theorem parseLlc_lookup (info : Info) {s t v : Nat} {k : LlcKey} (h : s + 6 ≤ 92)
    (ht : numberAt (onAir info) s 4 = t) (hv : (llcHeaderFinds info s t).lookup k = some v) :
    (parseLlc (onAir info) s).lookup k = some v := by
  have hlen := onAir_length info
  rw [parseLlc, if_neg (by omega)]
  simp only [llcHeader_finds h ht]
  split
  · rw [List.lookup_append, hv]
    rfl
  · exact hv

/-! MM. -/

theorem keeps_onlyIf {κ : Type} {c : Prop} [Decidable c] {m : FieldM κ Unit} (h : Keeps m) :
    Keeps (onlyIf c m) := by
  by_cases hc : c
  · rw [onlyIf, if_pos hc]
    exact h
  · rw [onlyIf, if_neg hc]
    exact keeps_pure ()

theorem keeps_ifRoom {κ : Type} {n : Nat} {m : FieldM κ Unit} (h : Keeps m) :
    Keeps (DecodeDl.ifRoom n m) := by
  refine (keeps_room n).bind fun b => ?_
  cases b with
  | false => exact keeps_pure ()
  | true => exact h

theorem keeps_optionalElement (present k : UlKey) (n : Nat) :
    Keeps (optionalElement present k n) :=
  keeps_ifRoom ((keeps_field present 1).bind fun _ => keeps_onlyIf (keeps_fieldIfRoom k n))

theorem keeps_demandOptions : Keeps parseDemandOptions := by
  refine (keeps_optionalElement _ _ 24).bind fun _ => ?_
  refine (keeps_optionalElement _ _ 3).bind fun _ => ?_
  refine (keeps_optionalElement _ _ 14).bind fun _ => ?_
  refine (keeps_optionalElement _ _ 24).bind fun _ => ?_
  refine (keeps_optionalElement _ _ 24).bind fun _ => ?_
  exact keeps_fieldIfRoom _ 1

theorem keeps_demandRest : Keeps parseDemandRest := by
  refine (keeps_fieldIfRoom _ 1).bind fun _ => ?_
  refine (keeps_fieldIfRoom _ 1).bind fun _ => ?_
  refine (keeps_ifRoom ?_).bind fun _ => keeps_findPosition _
  exact (keeps_field _ 1).bind fun _ => keeps_onlyIf keeps_demandOptions

/-- The type of update of a U-LOCATION-UPDATE-DEMAND is found first. -/
theorem demand_lookup (info : Info) {pos : Nat} (h : pos + 3 ≤ 92) :
    (findsFrom (parseUlMm 2) (onAir info) pos).lookup .locationUpdateType =
      some (UlAccess.field info pos 3).toNat := by
  have hlen := onAir_length info
  have hfirst : Gives (onAir info) pos (fieldIfRoom UlKey.locationUpdateType 3) _ () (pos + 3) :=
    gives_fieldIfRoom _ (by omega) (numberAt_field info h)
  obtain ⟨rest, hrest⟩ := hfirst.found_first (f := fun _ => parseDemandRest) keeps_demandRest
  show (findsFrom (fieldIfRoom .locationUpdateType 3 >>= fun _ => parseDemandRest)
    (onAir info) pos).lookup _ = _
  rw [← hrest]
  rfl

/-- MLE and MM at `pos`. -/
theorem mle_lookup {pos : Nat} (h : pos + 10 ≤ 92) :
    (parseUlMle (onAir info) pos).lookup .mleDisc = some (UlAccess.field info pos 3).toNat ∧
      (UlAccess.field info pos 3 = 1 →
        (parseUlMle (onAir info) pos).lookup .mmType =
            some (UlAccess.field info (pos + 3) 4).toNat ∧
          (UlAccess.field info (pos + 3) 4 = 2 →
            (parseUlMle (onAir info) pos).lookup .locationUpdateType =
              some (UlAccess.field info (pos + 7) 3).toNat)) := by
  have hlen := onAir_length info
  have hdisc := numberAt_field info (by omega : pos + 3 ≤ 92)
  have htype := numberAt_field info (by omega : pos + 3 + 4 ≤ 92)
  rw [parseUlMle, if_neg (by omega)]
  simp only [hdisc, htype]
  refine ⟨?_, fun hmm => ?_⟩
  · split <;> rfl
  · rw [if_pos ⟨by rw [hmm]; rfl, by omega⟩]
    refine ⟨rfl, fun hdemand => ?_⟩
    have hupdate := demand_lookup info (by omega : pos + 7 + 3 ≤ 92)
    rw [hdemand]
    show ((findsFrom (parseUlMm 2) _ (pos + 7)) ++ _).lookup _ = _
    rw [List.lookup_append, hupdate]
    rfl

theorem directMm_lookup (info : Info) {pos : Nat} (h : pos + 7 ≤ 92) :
    (parseUlDirectMm (onAir info) pos).lookup .mmType =
        some (UlAccess.field info pos 4).toNat ∧
      (UlAccess.field info pos 4 = 2 →
        (parseUlDirectMm (onAir info) pos).lookup .locationUpdateType =
          some (UlAccess.field info (pos + 4) 3).toNat) := by
  have hlen := onAir_length info
  have htype := numberAt_field info (by omega : pos + 4 ≤ 92)
  rw [parseUlDirectMm, if_neg (by omega)]
  simp only [htype]
  refine ⟨rfl, fun hdemand => ?_⟩
  have hupdate := demand_lookup info (by omega : pos + 4 + 3 ≤ 92)
  rw [hdemand]
  show ((findsFrom (parseUlMm 2) _ (pos + 4)) ++ _).lookup _ = _
  rw [List.lookup_append, hupdate]
  rfl

/-! The three kinds of basic link PDUs by their number. -/

def llcType (info : Info) : Nat :=
  (BitVec.ofBool (fLlcLinkType info) ++ BitVec.ofBool (fLlcHasFcs info) ++
    fLlcBlPduType info).toNat

theorem type_of_link {c : BitVec 2} (h : (!fLlcLinkType info && fLlcBlPduType info = c) = true) :
    llcType info = c.toNat ∨ llcType info = 4 + c.toNat := by
  obtain ⟨hlink, hbl⟩ := Bool.and_eq_true_iff.1 h
  have hall : ∀ c : BitVec 2,
      (BitVec.ofBool false ++ BitVec.ofBool false ++ c).toNat = c.toNat ∧
        (BitVec.ofBool false ++ BitVec.ofBool true ++ c).toNat = 4 + c.toNat := by decide
  rw [llcType, (Bool.not_eq_true' _).mp hlink, of_decide_eq_true hbl]
  cases fLlcHasFcs info with
  | false => exact .inl (hall c).1
  | true => exact .inr (hall c).2

/-- What is found in a BL-ADATA: the two bits in the other order. -/
theorem adata_lookup {s : Nat} (h : fIsBlAdata info = true) :
    (llcHeaderFinds info s (llcType info)).lookup .nr = some (info.getLsbD (s + 4)).toNat ∧
      (llcHeaderFinds info s (llcType info)).lookup .ns = some (info.getLsbD (s + 5)).toNat ∧
      (llcHeaderFinds info s (llcType info)).lookup .payloadStart = some (s + 6) := by
  obtain ht | ht := type_of_link h <;> rw [ht] <;> exact ⟨rfl, rfl, rfl⟩

theorem data_lookup {s : Nat} (h : fIsBlData info = true) :
    (llcHeaderFinds info s (llcType info)).lookup .ns = some (info.getLsbD (s + 4)).toNat ∧
      (llcHeaderFinds info s (llcType info)).lookup .payloadStart = some (s + 5) := by
  obtain ht | ht := type_of_link h <;> rw [ht] <;> exact ⟨rfl, rfl⟩

theorem ack_lookup {s : Nat} (h : fIsBlAck info = true) :
    (llcHeaderFinds info s (llcType info)).lookup .nr = some (info.getLsbD (s + 4)).toNat := by
  obtain ht | ht := type_of_link h <;> rw [ht] <;> rfl

/-! The two side by side. -/

/-- The header as the FPGA reports it, where what is absent is zero. -/
theorem access_lookup (haddr : fAddrType info ≠ 1) :
    (accessFinds info).lookup .ssi = some (fIssi info).toNat ∧
      (accessFinds info).lookup .optionalFieldFlag = some (fOptFlag info).toNat ∧
      ((accessFinds info).lookup .lengthInd).getD 0 =
        (if fOptFlag info && !fLengthOrCap info then fLengthInd info else 0).toNat ∧
      ((accessFinds info).lookup .fragFlag).getD 0 = (fFragmented info).toNat ∧
      ((accessFinds info).lookup .reservationReq).getD 0 =
        (if fOptFlag info && fLengthOrCap info then fReservationReq info else 0).toNat ∧
      (accessFinds info).lookup .payloadStart = some (tlSduStart info) := by
  have hflag : info.getLsbD 29 = fOptFlag info := rfl
  have hcap : info.getLsbD (29 + 1) = fLengthOrCap info := rfl
  rw [accessFinds, if_neg haddr, if_neg haddr, optionalFinds, optionalStop, fFragmented, tlSduStart,
    hflag, hcap]
  cases fOptFlag info <;> cases fLengthOrCap info <;> exact ⟨rfl, rfl, rfl, rfl, rfl, rfl⟩

/-- With an event label the LLC PDU starts earlier than the FPGA looks for it. -/
theorem label_lookup (haddr : fAddrType info = 1) :
    (accessFinds info).lookup .eventLabel = some (fEventLabel info).toNat ∧
      ∃ start, (accessFinds info).lookup .payloadStart = some start ∧ start < tlSduStart info := by
  rw [accessFinds, if_pos haddr, if_pos haddr, optionalFinds]
  refine ⟨rfl, optionalStop info 15, ?_, ?_⟩
  · cases info.getLsbD 15 <;> cases info.getLsbD (15 + 1) <;> rfl
  · rw [optionalStop, tlSduStart]
    split <;> split <;> decide

end

/-- What the tool found is what the FPGA reports, but for the sequence numbers. -/
structure Agrees (p : Parser) (r : AccessRead) : Prop where
  fillBit : r.mac.lookup .fillBit = some p.fillBit.toNat
  encrypted : r.mac.lookup .encrypted = some p.encryptionMode.toNat
  addrType : r.mac.lookup .addrType = some p.ulAddrType.toNat
  ssi : r.mac.lookup .ssi = some p.ulIssi.toNat
  optionalFieldFlag : r.mac.lookup .optionalFieldFlag = some p.optionalFieldFlag.toNat
  lengthInd : (r.mac.lookup .lengthInd).getD 0 = p.ulLengthInd.toNat
  fragFlag : (r.mac.lookup .fragFlag).getD 0 = p.ulFragFlag.toNat
  reservationReq : (r.mac.lookup .reservationReq).getD 0 = p.ulReservationReq.toNat
  llcType : (r.llc.bind (·.lookup .llcType)) = some p.ulLlcPduType.toNat
  mleDisc : p.ulLlcIsBlData = true →
    (r.mle.bind (·.lookup .mleDisc)) = some p.ulMleDisc.toNat
  mmType : p.ulLlcIsMleMm = true →
    (r.mle.bind (·.lookup .mmType)) = some p.ulLlcMmPduType.toNat
  locationUpdateType : p.ulLlcIsMleMm = true → p.ulLlcMmPduType = 2 →
    (r.mle.bind (·.lookup .locationUpdateType)) = some p.ulLlcMmLocUpdType.toNat
  directMmType : (r.directMm.bind (·.lookup .mmType)) = some p.mmPduType.toNat
  directUpdateType : p.mmPduType = 2 →
    (r.directMm.bind (·.lookup .locationUpdateType)) = some p.locUpdType.toNat

/-- The sequence numbers that the FPGA calls valid are those that the tool found. -/
structure SequenceAgrees (p : Parser) (r : AccessRead) : Prop where
  ns : p.ulLlcNsValid = true → (r.llc.bind (·.lookup .ns)) = some p.ulLlcNs.toNat
  nr : p.ulLlcNrValid = true → (r.llc.bind (·.lookup .nr)) = some p.ulLlcNr.toNat

section
variable {info : Info}

theorem parseMacAccess_eq (htype : fPduType info = false) {pos : Nat}
    (hpos : (accessFinds info).lookup .payloadStart = some pos) (hroom : pos + 4 ≤ 92) :
    parseMacAccess (onAir info) = some (readLlc (onAir info) (accessFinds info) pos) := by
  have hlen := onAir_length info
  have hmac := macAccess_finds htype
  have hzero : ¬ (accessFinds info).lookup .pduType ≠ some 0 := fun h => h rfl
  rw [parseMacAccess, if_neg (by omega)]
  simp only [hmac, hzero, if_false, hpos, Option.getD_some, hlen, hroom, if_true]

/-- Every LLC type has a name, so that no block is taken for a direct MM PDU. -/
theorem mode_ne_direct {pos : Nat} (h : pos + 6 ≤ 92) (mac : Finds AccessKey) :
    (readLlc (onAir info) mac pos).mode ≠ some .directMm := by
  have hnamed : ∀ a b : Bool, ∀ c : BitVec 2, llcPduNames.lookup
      (BitVec.ofBool a ++ BitVec.ofBool b ++ c).toNat ≠ none := by decide
  have htype := parseLlc_lookup info (k := .llcType) h (llc_type (by omega)) rfl
  have hmode : decodedMode (parseLlc (onAir info) pos)
      (mleBehind (onAir info) (parseLlc (onAir info) pos)) (parseUlDirectMm (onAir info) pos) ≠
        .directMm := by
    rw [decodedMode, if_neg]
    · split <;> decide
    · rintro ⟨hnone, -⟩
      rw [htype] at hnone
      exact hnamed _ _ _ hnone
  exact fun h => hmode (Option.some.inj h)

/-- The layers behind the header as the FPGA reports them. -/
theorem mleBehind_data {pos start : Nat} (hpos : pos + 6 ≤ 92) (hstart : start + 10 ≤ 92)
    (ht : numberAt (onAir info) pos 4 = llcType info)
    (h : (llcHeaderFinds info pos (llcType info)).lookup .payloadStart = some start) :
    mleBehind (onAir info) (parseLlc (onAir info) pos) = some (parseUlMle (onAir info) start) := by
  have hlen := onAir_length info
  have hlookup := parseLlc_lookup info hpos ht h
  rw [mleBehind, hlookup]
  exact if_pos (by omega)

theorem tlSduStart_le (info : Info) : tlSduStart info ≤ 36 := by
  rw [tlSduStart]
  split <;> decide

theorem llcType_at : numberAt (onAir info) (tlSduStart info) 4 = llcType info := by
  exact llc_type (by have := tlSduStart_le info; omega)

/-- The MLE part of a BL-DATA or BL-ADATA is read where the FPGA reads it. -/
theorem mle_at (h : fIsBlData info = true ∨ fIsBlAdata info = true) :
    mleBehind (onAir info) (parseLlc (onAir info) (tlSduStart info)) =
        some (parseUlMle (onAir info) (llcPayloadStart info)) ∧
      llcPayloadStart info + 10 ≤ 92 := by
  have hstart := tlSduStart_le info
  cases hadata : fIsBlAdata info with
  | true =>
    have hpayload : llcPayloadStart info = tlSduStart info + 6 := by
      rw [llcPayloadStart, hadata]
      rfl
    obtain ⟨-, -, hlookup⟩ := adata_lookup (s := tlSduStart info) hadata
    rw [hpayload]
    exact ⟨mleBehind_data (by omega) (by omega) llcType_at hlookup, by omega⟩
  | false =>
    have hdata : fIsBlData info = true := h.resolve_right (by rw [hadata]; exact Bool.false_ne_true)
    have hpayload : llcPayloadStart info = tlSduStart info + 5 := by
      rw [llcPayloadStart, hadata, hdata]
      rfl
    obtain ⟨-, hlookup⟩ := data_lookup (s := tlSduStart info) hdata
    rw [hpayload]
    exact ⟨mleBehind_data (by omega) (by omega) llcType_at hlookup, by omega⟩

end

theorem agrees_access (q : Parser) {i : Input} (hv : i.infoValid = true) (hc : i.crcOk = true)
    (hend : fIsEndHu i.infoBits = false) (haddr : fAddrType i.infoBits ≠ 1) :
    Agrees (parserStep q i) (readLlc (onAir i.infoBits) (accessFinds i.infoBits)
      (tlSduStart i.infoBits)) := by
  have hstart := tlSduStart_le i.infoBits
  obtain ⟨hssi, hflag, hlength, hfrag, hres, -⟩ := access_lookup haddr
  have htype : (parseLlc (onAir i.infoBits) (tlSduStart i.infoBits)).lookup .llcType =
      some (llcType i.infoBits) := parseLlc_lookup i.infoBits (by omega) llcType_at rfl
  obtain ⟨hdirect, hdirectUpdate⟩ := directMm_lookup i.infoBits
    (by omega : tlSduStart i.infoBits + 7 ≤ 92)
  have hmle : (fIsBlData i.infoBits || fIsBlAdata i.infoBits) = true →
      mleBehind (onAir i.infoBits) (parseLlc (onAir i.infoBits) (tlSduStart i.infoBits)) =
        some (parseUlMle (onAir i.infoBits) (llcPayloadStart i.infoBits)) ∧
      llcPayloadStart i.infoBits + 10 ≤ 92 := fun h => mle_at (Bool.or_eq_true_iff.1 h)
  simp only [parserStep, hv, hc, hend, Bool.and_self, Bool.not_false, if_true]
  refine ⟨rfl, rfl, rfl, hssi, hflag, hlength, hfrag, hres, ?_, ?_, ?_, ?_, ?_, ?_⟩
  · exact htype
  · intro hdata
    obtain ⟨hbehind, hroom⟩ := hmle hdata
    show (mleBehind _ _).bind _ = _
    rw [hbehind]
    exact (mle_lookup hroom).1
  · intro hmm
    obtain ⟨hdata, hdisc⟩ := Bool.and_eq_true_iff.1 hmm
    obtain ⟨hbehind, hroom⟩ := hmle hdata
    show (mleBehind _ _).bind _ = _
    rw [hbehind]
    exact ((mle_lookup hroom).2 (of_decide_eq_true hdisc)).1
  · intro hmm hdemand
    obtain ⟨hdata, hdisc⟩ := Bool.and_eq_true_iff.1 hmm
    obtain ⟨hbehind, hroom⟩ := hmle hdata
    show (mleBehind _ _).bind _ = _
    rw [hbehind]
    exact ((mle_lookup hroom).2 (of_decide_eq_true hdisc)).2 hdemand
  · exact hdirect
  · exact hdirectUpdate

/-- The sequence numbers agree unless there are two, and these differ. -/
theorem sequence_agrees_iff (q : Parser) {i : Input} (hv : i.infoValid = true)
    (hc : i.crcOk = true) (hend : fIsEndHu i.infoBits = false) (mac : Finds AccessKey) :
    SequenceAgrees (parserStep q i) (readLlc (onAir i.infoBits) mac (tlSduStart i.infoBits)) ↔
      (fIsBlAdata i.infoBits = true →
        (parserStep q i).ulLlcNs = (parserStep q i).ulLlcNr) := by
  have hstart := tlSduStart_le i.infoBits
  have hlookup : ∀ {k : LlcKey} {v : Nat},
      (llcHeaderFinds i.infoBits (tlSduStart i.infoBits) (llcType i.infoBits)).lookup k = some v →
      (parseLlc (onAir i.infoBits) (tlSduStart i.infoBits)).lookup k = some v :=
    fun h => parseLlc_lookup i.infoBits (by omega) llcType_at h
  have hns : (parserStep q i).ulLlcNs = fNsBit i.infoBits := by
    simp only [parserStep, hv, hc, hend, Bool.and_self, Bool.not_false, if_true]
  have hnr : (parserStep q i).ulLlcNr = fNrBit i.infoBits := by
    simp only [parserStep, hv, hc, hend, Bool.and_self, Bool.not_false, if_true]
  have hnsValid : (parserStep q i).ulLlcNsValid = fNsValid i.infoBits := by
    simp only [parserStep, hv, hc, hend, Bool.and_self, Bool.not_false, if_true]
  have hnrValid : (parserStep q i).ulLlcNrValid = fNrValid i.infoBits := by
    simp only [parserStep, hv, hc, hend, Bool.and_self, Bool.not_false, if_true]
  have hinj : ∀ a b : Bool, some a.toNat = some b.toNat → a = b := by decide
  rw [hns, hnr]
  constructor
  · rintro ⟨hfirst, -⟩ hadata
    obtain ⟨-, hlook, -⟩ := adata_lookup (s := tlSduStart i.infoBits) hadata
    have hbits := hfirst (by rw [hnsValid, fNsValid, hadata]; rfl)
    rw [hns] at hbits
    have hnrBit : fNrBit i.infoBits = i.infoBits.getLsbD (tlSduStart i.infoBits + 5) := by
      rw [fNrBit, hadata]
      rfl
    rw [hnrBit]
    exact hinj _ _ (hbits.symm.trans (hlookup hlook))
  · intro heq
    cases hadata : fIsBlAdata i.infoBits with
    | true =>
      obtain ⟨hlookNr, hlookNs, -⟩ := adata_lookup (s := tlSduStart i.infoBits) hadata
      have hnrBit : fNrBit i.infoBits = i.infoBits.getLsbD (tlSduStart i.infoBits + 5) := by
        rw [fNrBit, hadata]
        rfl
      refine ⟨fun _ => ?_, fun _ => ?_⟩
      · rw [hns, heq hadata, hnrBit]
        exact hlookup hlookNs
      · rw [hnr, ← heq hadata]
        exact hlookup hlookNr
    | false =>
      have hnrBit : fNrBit i.infoBits = i.infoBits.getLsbD (tlSduStart i.infoBits + 4) := by
        rw [fNrBit, hadata]
        rfl
      refine ⟨fun hvalid => ?_, fun hvalid => ?_⟩
      · rw [hnsValid, fNsValid, hadata, Bool.false_or] at hvalid
        rw [hns]
        exact hlookup (data_lookup hvalid).1
      · rw [hnrValid, fNrValid, hadata, Bool.false_or] at hvalid
        rw [hnr, hnrBit]
        exact hlookup (ack_lookup hvalid)

/-- On every MAC-ACCESS block without an event label the tool finds what the FPGA reports, but for
the sequence numbers of a BL-ADATA, which the two take in opposite orders. With an event label they
look for the LLC PDU at different bits. -/
theorem access_parsers_agree (q : Parser) {i : Input} (hv : i.infoValid = true)
    (hc : i.crcOk = true) (hend : fIsEndHu i.infoBits = false) :
    ∃ r, parseMacAccess (onAir i.infoBits) = some r ∧ r.mode ≠ some .directMm ∧
      (fAddrType i.infoBits ≠ 1 → Agrees (parserStep q i) r ∧
        (SequenceAgrees (parserStep q i) r ↔ (fIsBlAdata i.infoBits = true →
          (parserStep q i).ulLlcNs = (parserStep q i).ulLlcNr))) ∧
      (fAddrType i.infoBits = 1 →
        r.mac.lookup .eventLabel = some (parserStep q i).ulEventLabel.toNat ∧
        ∃ start, r.mac.lookup .payloadStart = some start ∧ start < tlSduStart i.infoBits) := by
  have hstart := tlSduStart_le i.infoBits
  by_cases haddr : fAddrType i.infoBits = 1
  · obtain ⟨hlabel, start, hpos, hlt⟩ := label_lookup haddr
    refine ⟨_, parseMacAccess_eq hend hpos (by omega), mode_ne_direct (by omega) _,
      fun h => absurd haddr h, fun _ => ⟨?_, start, hpos, hlt⟩⟩
    simp only [parserStep, hv, hc, hend, Bool.and_self, Bool.not_false, if_true]
    exact hlabel
  · obtain ⟨-, -, -, -, -, hpos⟩ := access_lookup haddr
    exact ⟨_, parseMacAccess_eq hend hpos (by omega), mode_ne_direct (by omega) _,
      fun _ => ⟨agrees_access q hv hc hend haddr, sequence_agrees_iff q hv hc hend _⟩,
      fun h => absurd h haddr⟩

/-- A BL-ADATA with the bits 1 and 0 behind its type, a demand inside. -/
def adataInput : Input := ⟨0x244065e8280#92, true, true, 0, 0, false⟩

theorem access_parsers_agree_adata : ∃ r, parseMacAccess (onAir adataInput.infoBits) = some r ∧
    Agrees (parserStep Parser.reset adataInput) r ∧
    ¬SequenceAgrees (parserStep Parser.reset adataInput) r := by
  obtain ⟨r, hread, -, hagrees, -⟩ :=
    access_parsers_agree Parser.reset (i := adataInput) rfl rfl (by decide)
  obtain ⟨hfields, hsequence⟩ := hagrees (by decide)
  refine ⟨r, hread, hfields, fun h => ?_⟩
  exact absurd (hsequence.1 h (by decide)) (by decide)

end TetraBs.DecodeUl
