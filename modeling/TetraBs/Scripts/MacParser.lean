import TetraBs.Lib.FieldReader
import TetraBs.Llc.Fcs

/-! The parsers of `scripts/decode_dl.py` for what the channel decoder gets out of a block. A result
is what is put into the source's dictionary, without the names that go with the numbers; a nested
dictionary is part of the one around it. -/
namespace TetraBs.DecodeDl
open TetraBs.FieldReader

section
variable {κ : Type}

def onlyIf (c : Prop) [Decidable c] (m : FieldM κ Unit) : FieldM κ Unit := if c then m else pure ()

def ifRoom (n : Nat) (m : FieldM κ Unit) : FieldM κ Unit := do
  if ← room n then m else pure ()

end

/-! MAC. -/

inductive MacKey where
  | type | fillBit | positionOfGrant | encryptionMode | randomAccessFlag | lengthIndicator
  | addressType | ssi | eventLabel | ussi | smi | usageMarker | isNullPdu
  | powerControlFlag | powerControlElement | slotGrantingFlag | slotGranting
  | channelAllocationFlag | allocationType | timeslotAssigned | uplinkDownlinkAssigned
  | clchPermission | cellChangeFlag | carrierNumber | extendedCarrierFlag | frequencyBand | offset
  | duplexSpacing | reverseOperation | monitoringPattern | frame18MonitoringPattern
  | subType | mainCarrier | numSc | msTxPwrMax | rxLevelAccessMin | accessParameter
  | radioDlTimeout | hyperCipherFlag | hyperframe | cckId | optionalField | optionalFieldValue
  | locationArea | commonOrAssigned | accessCode | imm | wt | nu | frameLengthFactor
  | timeslotPointer | minPduPriority | optionalFieldFlag | optionalFieldType | subscriberClass
  | gssi | payloadStart
deriving DecidableEq

/-- `_parse_channel_allocation`. -/
def parseChannelAllocation : FieldM MacKey Unit := do
  let _ ← field .allocationType 2
  let _ ← field .timeslotAssigned 4
  let _ ← field .uplinkDownlinkAssigned 2
  let _ ← field .clchPermission 1
  let _ ← field .cellChangeFlag 1
  let _ ← field .carrierNumber 12
  let extFlag ← field .extendedCarrierFlag 1
  onlyIf (extFlag = 1) (ifRoom 10 do
    let _ ← field .frequencyBand 4
    let _ ← field .offset 2
    let _ ← field .duplexSpacing 3
    let _ ← field .reverseOperation 1)
  let monitoringPattern ← field .monitoringPattern 2
  onlyIf (monitoringPattern = 0) (fieldIfRoom .frame18MonitoringPattern 2)

/-- The address of a MAC-RESOURCE by its type. -/
def parseAddress : Nat → FieldM MacKey Unit
  | 1 => fieldIfRoom .ssi 24
  | 2 => fieldIfRoom .eventLabel 10
  | 3 => fieldIfRoom .ussi 24
  | 4 => fieldIfRoom .smi 48
  | 5 => do
    fieldIfRoom .ssi 24
    fieldIfRoom .eventLabel 10
  | 6 => do
    fieldIfRoom .ssi 24
    fieldIfRoom .usageMarker 6
  | 7 => do
    fieldIfRoom .smi 48
    fieldIfRoom .eventLabel 10
  | _ => pure ()

/-- The three flags behind the address, each with its element. -/
def parseElements : FieldM MacKey Unit := do
  let pwrFlag ← field .powerControlFlag 1
  onlyIf (pwrFlag = 1) (fieldIfRoom .powerControlElement 4)
  ifRoom 1 do
    let slotGrantFlag ← field .slotGrantingFlag 1
    onlyIf (slotGrantFlag = 1) (fieldIfRoom .slotGranting 8)
  ifRoom 1 do
    let chanAllocFlag ← field .channelAllocationFlag 1
    onlyIf (chanAllocFlag = 1) (part parseChannelAllocation)

/-- `_parse_mac_resource`. -/
def parseMacResource : FieldM MacKey Unit := do
  let fillBit ← field .fillBit 1
  let _ ← field .positionOfGrant 1
  let _ ← field .encryptionMode 2
  let _ ← field .randomAccessFlag 1
  let _ ← field .lengthIndicator 6
  let addrType ← field .addressType 3
  parseAddress addrType
  onlyIf (fillBit = 1 ∧ addrType = 0) (find .isNullPdu 1)
  onlyIf (addrType ≠ 0) (ifRoom 1 parseElements)
  findPosition .payloadStart

/-- `_parse_mac_frag_end`. -/
def parseMacFragEnd : FieldM MacKey Unit := do
  let _ ← field .subType 1
  let _ ← field .fillBit 1
  findPosition .payloadStart

/-- `_parse_sysinfo_type2`, without the frequency it works out. -/
def parseSysinfoType2 : FieldM MacKey Unit := do
  let _ ← field .mainCarrier 12
  let _ ← field .frequencyBand 4
  let _ ← field .offset 2
  let _ ← field .duplexSpacing 3
  let _ ← field .reverseOperation 1
  let _ ← field .numSc 2
  let _ ← field .msTxPwrMax 3
  let _ ← field .rxLevelAccessMin 4
  let _ ← field .accessParameter 4
  let _ ← field .radioDlTimeout 4
  let hyperCipher ← field .hyperCipherFlag 1
  let _ ← field (if hyperCipher = 0 then .hyperframe else .cckId) 16
  let _ ← field .optionalField 2
  let _ ← field .optionalFieldValue 20
  let _ ← field .locationArea 14

/-- `_parse_access_define`. -/
def parseAccessDefine : FieldM MacKey Unit := do
  let _ ← field .commonOrAssigned 1
  let _ ← field .accessCode 2
  let _ ← field .imm 4
  let _ ← field .wt 4
  let _ ← field .nu 4
  let _ ← field .frameLengthFactor 1
  let _ ← field .timeslotPointer 4
  let _ ← field .minPduPriority 3
  let optFlag ← field .optionalFieldFlag 1
  onlyIf (optFlag = 1) (ifRoom 4 do
    let optType ← field .optionalFieldType 4
    onlyIf (optType = 0) (fieldIfRoom .subscriberClass 16)
    onlyIf (optType = 1) (fieldIfRoom .gssi 24))

/-- `_parse_mac_broadcast`. -/
def parseMacBroadcast : FieldM MacKey Unit := do
  let subType ← field .subType 2
  onlyIf (subType = 0 ∨ subType = 2) (part parseSysinfoType2)
  onlyIf (subType = 1 ∨ subType = 2) (part parseAccessDefine)
  findPosition .payloadStart

/-- `_parse_mac_u_signal`. -/
def parseMacUSignal : FieldM MacKey Unit := do
  let _ ← field .fillBit 1
  let _ ← field .encryptionMode 2
  let _ ← field .lengthIndicator 6
  let addrType ← field .addressType 3
  onlyIf (addrType = 1 ∨ addrType = 3) (fieldIfRoom .ssi 24)
  onlyIf (addrType = 2) (fieldIfRoom .eventLabel 10)
  findPosition .payloadStart

def macPdu : FieldM MacKey Unit := do
  let pduType ← field .type 2
  if pduType = 0 then parseMacResource
  else if pduType = 1 then parseMacFragEnd
  else if pduType = 2 then parseMacBroadcast
  else parseMacUSignal

/-- `parse_mac_pdu`; nothing is found in less than four bits. -/
def parseMacPdu (bits : List Bool) : Finds MacKey :=
  if bits.length < 4 then [] else findsFrom macPdu bits 0

/-! LLC. -/

inductive LlcKey where
  | llcType | nr | ns | directMm | hasFcs | payloadStart | fcsOk
deriving DecidableEq

/-- The header by its type; those with a check sequence have the same. -/
def llcHeader : FieldM LlcKey Unit := do
  let pduType ← field .llcType 4
  onlyIf (pduType = 0 ∨ pduType = 3 ∨ pduType = 4 ∨ pduType = 7) (fieldIfRoom .nr 1)
  onlyIf (pduType = 0 ∨ pduType = 1 ∨ pduType = 4 ∨ pduType = 5) (fieldIfRoom .ns 1)
  onlyIf (pduType ≤ 7 ∨ pduType = 14) (findPosition .payloadStart)
  onlyIf (pduType = 14) (find .directMm 1)
  onlyIf (4 ≤ pduType ∧ pduType ≤ 7) (find .hasFcs 1)

/-- `parse_llc`; nothing is found in less than four bits. The check sequence is taken over all that
is left of the block. -/
def parseLlc (bits : List Bool) (pos : Nat) : Finds LlcKey :=
  if bits.length < pos + 4 then []
  else
    let r := findsFrom llcHeader bits pos
    if r.lookup .hasFcs = some 1 ∧ 32 ≤ bits.length - pos then
      r ++ [(.fcsOk, (crc32CheckLlc (bits.drop pos)).toNat)]
    else r

/-! MLE and MM. -/

inductive MleKey where
  | mleDisc | cmceType | mmType | mlePrim | payloadStart | payloadEnd
  | locationUpdateAcceptType | optionalFieldsPresent | ssiPresent | ssi
  | addressExtensionPresent | addressExtension | subscriberClassPresent | subscriberClass
  | energySavingInfoPresent | energySavingInfo | frame18ScchInfoPresent | frame18ScchInfo
  | moreOptionalBits | type3FieldId | type3PayloadLen | locationUpdateType | rejectCause
  | groupIdentityAcceptReject | detachAllFlag | groupIdentityReport | statusValue
deriving DecidableEq

/-- An optional element of `n` bits behind its flag. -/
def optionalElement (present k : MleKey) (n : Nat) : FieldM MleKey Unit :=
  ifRoom 1 do
    let p ← field present 1
    onlyIf (p = 1) (fieldIfRoom k n)

/-- The bit behind the optional elements, and the head of an element if there is one. -/
def parseMoreOptional : FieldM MleKey Unit :=
  ifRoom 1 do
    let more ← field .moreOptionalBits 1
    onlyIf (more = 1) (ifRoom 15 do
      let _ ← field .type3FieldId 4
      let _ ← field .type3PayloadLen 11)

def parseAcceptOptions : FieldM MleKey Unit := do
  optionalElement .ssiPresent .ssi 24
  optionalElement .addressExtensionPresent .addressExtension 24
  optionalElement .subscriberClassPresent .subscriberClass 16
  optionalElement .energySavingInfoPresent .energySavingInfo 14
  optionalElement .frame18ScchInfoPresent .frame18ScchInfo 6
  parseMoreOptional

def parseLocationUpdateAccept : FieldM MleKey Unit := do
  let _ ← field .locationUpdateAcceptType 3
  let oBit ← field .optionalFieldsPresent 1
  onlyIf (oBit = 1) parseAcceptOptions
  findPosition .payloadEnd

/-- `parse_mm_pdu`. -/
def parseMmPdu (mmType : Nat) : FieldM MleKey Unit :=
  if mmType = 5 then parseLocationUpdateAccept
  else if mmType = 9 then do
    fieldIfRoom .locationUpdateType 3
    findPosition .payloadEnd
  else if mmType = 7 then do
    fieldIfRoom .rejectCause 5
    findPosition .payloadEnd
  else if mmType = 11 then do
    fieldIfRoom .groupIdentityAcceptReject 1
    fieldIfRoom .optionalFieldsPresent 1
    findPosition .payloadEnd
  else if mmType = 10 then do
    fieldIfRoom .detachAllFlag 1
    fieldIfRoom .groupIdentityReport 1
    findPosition .payloadEnd
  else if mmType = 12 then do
    fieldIfRoom .statusValue 5
    findPosition .payloadEnd
  else pure ()

/-- `parse_mle`. The caller's position is not moved by the MM part. -/
def parseMle (bits : List Bool) (pos : Nat) : Finds MleKey :=
  if bits.length < pos + 3 then []
  else
    let disc := numberAt bits pos 3
    let pos := pos + 3
    let r : Finds MleKey := [(.mleDisc, disc)]
    if disc = 2 ∧ pos + 5 ≤ bits.length then
      r ++ [(.cmceType, numberAt bits pos 5), (.payloadStart, pos + 5)]
    else if disc = 1 ∧ pos + 4 ≤ bits.length then
      let mmType := numberAt bits pos 4
      r ++ [(.mmType, mmType)] ++ findsFrom (parseMmPdu mmType) bits (pos + 4) ++
        [(.payloadStart, pos + 4)]
    else if disc = 5 ∧ pos + 3 ≤ bits.length then
      r ++ [(.mlePrim, numberAt bits pos 3), (.payloadStart, pos + 3)]
    else r ++ [(.payloadStart, pos)]

/-- `parse_direct_mm`. -/
def parseDirectMm (bits : List Bool) (pos : Nat) : Finds MleKey :=
  if bits.length < pos + 4 then []
  else
    let mmType := numberAt bits pos 4
    [(.mmType, mmType)] ++ findsFrom (parseMmPdu mmType) bits (pos + 4) ++
      [(.payloadStart, pos + 4)]

/-- What is read of a decoded full slot, layer by layer. -/
structure SlotRead where
  mac : Finds MacKey
  llc : Option (Finds LlcKey)
  mle : Option (Finds MleKey)
deriving DecidableEq

/-- The reading of a full slot in the burst loop. -/
def readSchF (infoBits : List Bool) : SlotRead :=
  let mac := parseMacPdu infoBits
  if mac.lookup .type = some 0 ∧ mac.lookup .isNullPdu = none then
    let pstart := (mac.lookup .payloadStart).getD 0
    if pstart + 4 < infoBits.length then
      let llc := parseLlc infoBits pstart
      match llc.lookup .payloadStart with
      | none => ⟨mac, some llc, none⟩
      | some start =>
        if start + 3 < infoBits.length then
          if llc.lookup .llcType = some 14 then ⟨mac, some llc, some (parseDirectMm infoBits start)⟩
          else ⟨mac, some llc, some (parseMle infoBits start)⟩
        else ⟨mac, some llc, none⟩
    else ⟨mac, none, none⟩
  else ⟨mac, none, none⟩

end TetraBs.DecodeDl
