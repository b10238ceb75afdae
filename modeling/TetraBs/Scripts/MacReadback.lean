import TetraBs.Mm.BuilderReads
import TetraBs.Scripts.BlockRecovery
import TetraBs.Scripts.MacParser
import TetraBs.Umac.MacResourceBlocks

/-! What the parsers read of the blocks of `tetra_mac_resource_dl_builder`, down to the MM PDU that
the daemon has built. -/
namespace TetraBs.DecodeDl
open TetraBs.Bits TetraBs.BitReader TetraBs.FieldReader TetraBs.MacResourceDl TetraBs.Packing
  TetraBs.Run

section
variable {κ : Type} {pos n : Nat} {m : FieldM κ Unit} {bs : List Bool} {kvs : Finds κ}

theorem Takes.onlyIf {c : Prop} [Decidable c] (hc : c) (h : Takes pos m bs kvs ()) :
    Takes pos (onlyIf c m) bs kvs () := by
  rwa [DecodeDl.onlyIf, if_pos hc]

theorem takes_onlyIf_not {c : Prop} [Decidable c] (hc : ¬ c) : Takes pos (onlyIf c m) [] [] () := by
  rw [DecodeDl.onlyIf, if_neg hc]
  exact takes_pure ()

theorem Takes.ifRoom (h : Takes pos m bs kvs ()) (hn : n ≤ bs.length) :
    Takes pos (ifRoom n m) bs kvs () := Takes.room h hn

end

/-! Channel allocation. -/

/-- A channel allocation element that is whole; the extended one does not fit the builder. -/
structure ChanAlloc where
  allocationType : BitVec 2
  timeslotAssigned : BitVec 4
  uplinkDownlinkAssigned : BitVec 2
  clchPermission : Bool
  cellChangeFlag : Bool
  carrierNumber : BitVec 12
  monitoringPattern : BitVec 2
  frame18MonitoringPattern : BitVec 2

def ChanAlloc.bits (c : ChanAlloc) : List Bool :=
  msbBits c.allocationType 2 ++ (msbBits c.timeslotAssigned 4 ++
    (msbBits c.uplinkDownlinkAssigned 2 ++ (c.clchPermission :: c.cellChangeFlag ::
      (msbBits c.carrierNumber 12 ++ false :: (msbBits c.monitoringPattern 2 ++
        if c.monitoringPattern = 0 then msbBits c.frame18MonitoringPattern 2 else [])))))

def ChanAlloc.finds (c : ChanAlloc) : Finds MacKey :=
  (.allocationType, c.allocationType.toNat) :: (.timeslotAssigned, c.timeslotAssigned.toNat) ::
    (.uplinkDownlinkAssigned, c.uplinkDownlinkAssigned.toNat) ::
    (.clchPermission, c.clchPermission.toNat) :: (.cellChangeFlag, c.cellChangeFlag.toNat) ::
    (.carrierNumber, c.carrierNumber.toNat) :: (.extendedCarrierFlag, 0) ::
    (.monitoringPattern, c.monitoringPattern.toNat) ::
    if c.monitoringPattern = 0 then
      [(.frame18MonitoringPattern, c.frame18MonitoringPattern.toNat)] else []

theorem takes_channelAllocation {pos : Nat} (c : ChanAlloc) :
    Takes pos parseChannelAllocation c.bits c.finds () := by
  rw [parseChannelAllocation, ChanAlloc.bits, ChanAlloc.finds]
  refine Takes.value c.allocationType ?_
  refine Takes.value c.timeslotAssigned ?_
  refine Takes.value c.uplinkDownlinkAssigned ?_
  refine Takes.flag c.clchPermission ?_
  refine Takes.flag c.cellChangeFlag ?_
  refine Takes.value c.carrierNumber ?_
  refine Takes.flag false ?_
  refine (takes_onlyIf_not (by decide)).bind ?_
  refine Takes.value c.monitoringPattern ?_
  by_cases hzero : c.monitoringPattern = 0
  · rw [if_pos hzero, if_pos hzero]
    exact Takes.onlyIf (by rw [hzero]; rfl) (takes_valueIfRoom _ c.frame18MonitoringPattern)
  · rw [if_neg hzero, if_neg hzero]
    exact takes_onlyIf_not fun h => hzero (BitVec.eq_of_toNat_eq h)

/-! The MAC header. -/

/-- The address of the types of 24 bits. -/
def addressKey (addrType : BitVec 3) : MacKey := if addrType = 1 then .ssi else .ussi

/-- What is behind the address, by the flags. -/
def elementFinds (h : Header) (c : ChanAlloc) : Finds MacKey :=
  (.powerControlFlag, h.pcFlag.toNat) ::
    ((if h.pcFlag then [(.powerControlElement, h.pcElement.toNat)] else []) ++
      (((.slotGrantingFlag, h.sgFlag.toNat) ::
          if h.sgFlag then [(.slotGranting, h.sgElement.toNat)] else []) ++
        (.channelAllocationFlag, h.caFlag.toNat) :: if h.caFlag then c.finds else []))

/-- What is found of a header whose channel allocation element, if there is one, is `c`. -/
def headerFinds (fillBit : Bool) (lengthInd : BitVec 6) (h : Header) (c : ChanAlloc) :
    Finds MacKey :=
  (.type, 0) :: (.fillBit, fillBit.toNat) :: (.positionOfGrant, 0) :: (.encryptionMode, 0) ::
    (.randomAccessFlag, h.randomAccessFlag.toNat) :: (.lengthIndicator, lengthInd.toNat) ::
    (.addressType, h.addrType.toNat) :: (addressKey h.addrType, h.ssi.toNat) ::
    (elementFinds h c ++ [(.payloadStart, h.length)])

/-- The address is of 24 bits, and the channel allocation element is a whole one. -/
structure Readable (h : Header) (c : ChanAlloc) : Prop where
  addr : h.addrType = 1 ∨ h.addrType = 3
  chanAlloc : h.caFlag = true → msbBits h.caElement h.caElementLen.toNat = c.bits

section
variable {h : Header} {c : ChanAlloc} {pos : Nat}

theorem takes_flaggedElement {k : MacKey} {w : Nat} (b : Bool) (v : BitVec w) :
    Takes pos (onlyIf (b.toNat = 1) (fieldIfRoom k w)) (fieldIf b v w)
      (if b then [(k, v.toNat)] else []) () := by
  cases b with
  | false => exact takes_onlyIf_not (by decide)
  | true => exact Takes.onlyIf rfl (takes_valueIfRoom k v)

theorem flagged_cons {w n : Nat} (b : Bool) (v : BitVec w) :
    flagged b v n = b :: fieldIf b v n := by
  cases b <;> rfl

theorem takes_elements (hr : Readable h c) :
    Takes pos parseElements (flagged h.pcFlag h.pcElement 4 ++ (flagged h.sgFlag h.sgElement 8 ++
      flagged h.caFlag h.caElement h.caElementLen.toNat)) (elementFinds h c) () := by
  have hca : ∀ {pos : Nat}, Takes pos (onlyIf (h.caFlag.toNat = 1) (part parseChannelAllocation))
      (fieldIf h.caFlag h.caElement h.caElementLen.toNat)
      (if h.caFlag then c.finds else []) () := by
    intro pos
    have helement := hr.chanAlloc
    cases hflag : h.caFlag with
    | false => exact takes_onlyIf_not (by decide)
    | true =>
      rw [fieldIf, if_pos rfl, if_pos rfl, helement hflag]
      exact Takes.onlyIf rfl (takes_channelAllocation c).part
  rw [parseElements, elementFinds, flagged_cons, flagged_cons, flagged_cons]
  refine Takes.flag h.pcFlag ?_
  refine (takes_flaggedElement h.pcFlag h.pcElement).bind ?_
  refine (Takes.ifRoom (Takes.flag h.sgFlag (takes_flaggedElement h.sgFlag h.sgElement)) ?_).bind ?_
  · exact Nat.succ_le_succ (Nat.zero_le _)
  · exact Takes.ifRoom (Takes.flag h.caFlag hca) (Nat.succ_le_succ (Nat.zero_le _))

theorem takes_address (hr : Readable h c) :
    Takes pos (parseAddress h.addrType.toNat) (msbBits h.ssi 24)
      [(addressKey h.addrType, h.ssi.toNat)] () := by
  obtain haddr | haddr := hr.addr
  · rw [haddr]
    exact takes_valueIfRoom MacKey.ssi h.ssi
  · rw [haddr]
    exact takes_valueIfRoom MacKey.ussi h.ssi

theorem takes_header (hr : Readable h c) (fillBit : Bool) (lengthInd : BitVec 6) :
    Takes 0 macPdu (h.bits fillBit lengthInd) (headerFinds fillBit lengthInd h c) () := by
  have hflag : ∀ b : Bool, (BitVec.ofBool b).toNat = b.toNat := BitVec.toNat_ofBool
  have hsome : h.addrType.toNat ≠ 0 := by
    obtain haddr | haddr := hr.addr <;> rw [haddr] <;> decide
  have hroom : 1 ≤ (flagged h.pcFlag h.pcElement 4 ++ (flagged h.sgFlag h.sgElement 8 ++
      flagged h.caFlag h.caElement h.caElementLen.toNat)).length := by
    rw [flagged_cons]
    exact Nat.succ_le_succ (Nat.zero_le _)
  rw [macPdu, Header.bits, headerFinds]
  refine Takes.value 0#2 ?_
  rw [if_pos (by decide), parseMacResource, ← hflag fillBit, ← hflag h.randomAccessFlag]
  refine Takes.value (BitVec.ofBool fillBit) ?_
  refine Takes.value 0#1 ?_
  refine Takes.value 0#2 ?_
  refine Takes.value (BitVec.ofBool h.randomAccessFlag) ?_
  refine Takes.value lengthInd ?_
  refine Takes.value h.addrType ?_
  refine (takes_address hr).bind ?_
  refine (takes_onlyIf_not fun hnull => hsome hnull.2).bind ?_
  refine (Takes.onlyIf hsome (Takes.ifRoom (takes_elements hr) hroom)).bind_end ?_
  refine takes_findPosition _ ?_
  rw [Header.length]
  simp only [flagged_cons, List.length_append, List.length_cons, fieldIf_length, msbBits_length,
    List.length_nil]
  omega

end

/-! LLC. -/

/-- The header of an LLC PDU, and what follows it. -/
def llcFront : DlLlcPdu → List Bool
  | .blAdata nr ns _ => [false, false, false, false, nr, ns]
  | .blData ns _ => [false, false, false, true, ns]
  | .alSetup => [true, false, false, false]
  | .l2Sig _ => [true, true, true, false]

def llcUpper : DlLlcPdu → List Bool
  | .blAdata _ _ mm | .blData _ mm => false :: false :: true :: mm
  | .alSetup => []
  | .l2Sig mm => mm

/-- What is found of an LLC PDU at `pos`. -/
def llcFinds (pos : Nat) : DlLlcPdu → Finds LlcKey
  | .blAdata nr ns _ =>
    [(.llcType, 0), (.nr, nr.toNat), (.ns, ns.toNat), (.payloadStart, pos + 6)]
  | .blData ns _ => [(.llcType, 1), (.ns, ns.toNat), (.payloadStart, pos + 5)]
  | .alSetup => [(.llcType, 8)]
  | .l2Sig _ => [(.llcType, 14), (.payloadStart, pos + 4), (.directMm, 1)]

theorem llcBits_eq (p : DlLlcPdu) : p.bits = llcFront p ++ llcUpper p := by
  cases p <;> rfl

section
variable {pos : Nat}

theorem takes_bitIfRoom {k : LlcKey} (b : Bool) :
    Takes pos (fieldIfRoom k 1) [b] [(k, b.toNat)] () := by
  have hbit : ofBits [b] = b.toNat := by cases b <;> rfl
  rw [← hbit]
  exact takes_bitsIfRoom k rfl

theorem takes_llcHeader (p : DlLlcPdu) : Takes pos llcHeader (llcFront p) (llcFinds pos p) () := by
  rw [llcHeader]
  cases p with
  | blAdata nr ns mm =>
    have htype : [false, false, false, false].length = 4 := rfl
    refine Takes.bits htype ?_
    refine (Takes.onlyIf (by decide) (takes_bitIfRoom nr)).bind ?_
    refine (Takes.onlyIf (by decide) (takes_bitIfRoom ns)).bind_end ?_
    refine (Takes.onlyIf (by decide) (takes_findPosition _ rfl)).bind_end ?_
    refine (takes_onlyIf_not (by decide)).bind ?_
    exact takes_onlyIf_not (by decide)
  | blData ns mm =>
    have htype : [false, false, false, true].length = 4 := rfl
    refine Takes.bits htype ?_
    refine (takes_onlyIf_not (by decide)).bind ?_
    refine (Takes.onlyIf (by decide) (takes_bitIfRoom ns)).bind_end ?_
    refine (Takes.onlyIf (by decide) (takes_findPosition _ rfl)).bind_end ?_
    refine (takes_onlyIf_not (by decide)).bind ?_
    exact takes_onlyIf_not (by decide)
  | alSetup =>
    have htype : [true, false, false, false].length = 4 := rfl
    refine Takes.bits htype ?_
    refine (takes_onlyIf_not (by decide)).bind ?_
    refine (takes_onlyIf_not (by decide)).bind ?_
    refine (takes_onlyIf_not (by decide)).bind ?_
    refine (takes_onlyIf_not (by decide)).bind ?_
    exact takes_onlyIf_not (by decide)
  | l2Sig mm =>
    have htype : [true, true, true, false].length = 4 := rfl
    refine Takes.bits htype ?_
    refine (takes_onlyIf_not (by decide)).bind ?_
    refine (takes_onlyIf_not (by decide)).bind ?_
    refine (Takes.onlyIf (by decide) (takes_findPosition _ rfl)).bind_end ?_
    refine (Takes.onlyIf (by decide) (Takes.find (takes_pure ()))).bind_end ?_
    exact takes_onlyIf_not (by decide)

end

/-! D-LOCATION-UPDATE-ACCEPT, as far as it is read. -/

def acceptOptional (p : MmAcceptParams) : Bool := p.energySavingInfoPresent || p.gilaPresent

def gilaHead (p : MmAcceptParams) : List Bool :=
  if p.gilaPresent then
    true :: (msbBits elemDlGroupIdentityLocationAccept 4 ++
      msbBits (BitVec.ofNat 16 (gilaContent p).length) 11)
  else [false]

def gilaBody (p : MmAcceptParams) : List Bool :=
  if p.gilaPresent then gilaContent p ++ [false] else []

def optionsRead (p : MmAcceptParams) : List Bool :=
  false :: false :: false :: (energySavingBits p ++ false :: gilaHead p)

def acceptRead (p : MmAcceptParams) : List Bool :=
  msbBits (p.acceptType.value.setWidth 64 : BitVec 64) 3 ++
    acceptOptional p :: if acceptOptional p then optionsRead p else []

def acceptUnread (p : MmAcceptParams) : List Bool := if acceptOptional p then gilaBody p else []

theorem boolBit_bits (b : Bool) : msbBits (boolBit b) 1 = [b] := by cases b <;> rfl

theorem acceptOptionBits_eq (p : MmAcceptParams) :
    acceptOptionBits p = optionsRead p ++ gilaBody p := by
  have hzero : msbBits (0 : BitVec 64) 1 = [false] := rfl
  have hone : msbBits (1 : BitVec 64) 1 = [true] := rfl
  rw [acceptOptionBits, optionsRead, gilaHead, gilaBody, gilaBits, hzero, hone]
  cases p.gilaPresent with
  | false => simp
  | true => simp

theorem acceptBits_eq (p : MmAcceptParams) :
    acceptBits p = msbBits dLocationUpdateAccept 4 ++ (acceptRead p ++ acceptUnread p) := by
  rw [acceptBits, acceptRead, acceptUnread, acceptOptional, boolBit_bits, acceptOptionBits_eq]
  cases p.energySavingInfoPresent || p.gilaPresent with
  | false => simp
  | true => simp

def energySavingInfo (p : MmAcceptParams) : Nat :=
  2 ^ 11 * p.energySavingMode.value.toNat + 2 ^ 6 * (p.energySavingFrameNumber.toNat % 32) +
    p.energySavingMultiframe.toNat % 64

def optionFinds (p : MmAcceptParams) : Finds MleKey :=
  (.ssiPresent, 0) :: (.addressExtensionPresent, 0) :: (.subscriberClassPresent, 0) ::
    (((.energySavingInfoPresent, p.energySavingInfoPresent.toNat) ::
        if p.energySavingInfoPresent then [(.energySavingInfo, energySavingInfo p)] else []) ++
      (.frame18ScchInfoPresent, 0) :: (.moreOptionalBits, p.gilaPresent.toNat) ::
        if p.gilaPresent then
          [(.type3FieldId, 5), (.type3PayloadLen, (gilaContent p).length % 2 ^ 11)]
        else [])

/-- What is found of an accept behind its type, at `pos`. -/
def acceptFinds (pos : Nat) (p : MmAcceptParams) : Finds MleKey :=
  (.locationUpdateAcceptType, p.acceptType.value.toNat) ::
    (.optionalFieldsPresent, (acceptOptional p).toNat) ::
      ((if acceptOptional p then optionFinds p else []) ++
        [(.payloadEnd, pos + (acceptRead p).length)])

section
variable {pos : Nat}

theorem takes_absent {present k : MleKey} {n : Nat} :
    Takes pos (optionalElement present k n) [false] [(present, 0)] () :=
  Takes.ifRoom (Takes.flag false (takes_onlyIf_not (by decide))) (Nat.le_refl 1)

theorem takes_present {present k : MleKey} {bs : List Bool} {n : Nat} (hn : bs.length = n) :
    Takes pos (optionalElement present k n) (true :: bs) [(present, 1), (k, ofBits bs)] () :=
  Takes.ifRoom (Takes.flag true (Takes.onlyIf rfl (takes_bitsIfRoom k hn)))
    (Nat.succ_le_succ (Nat.zero_le _))

theorem energySavingInfo_bits (p : MmAcceptParams) : energySavingInfo p =
    ofBits (msbBits (p.energySavingMode.value.setWidth 64 : BitVec 64) 3 ++
      (msbBits ((p.energySavingFrameNumber &&& 0x1F).setWidth 64 : BitVec 64) 5 ++
        msbBits ((p.energySavingMultiframe &&& 0x3F).setWidth 64 : BitVec 64) 6)) := by
  have hmode : ∀ x : BitVec 3, (x.setWidth 64 : BitVec 64).toNat % 2 ^ 3 = x.toNat := by decide
  have hframe : ∀ x : Byte,
      ((x &&& 0x1F).setWidth 64 : BitVec 64).toNat % 2 ^ 5 = x.toNat % 32 := by decide
  have hmultiframe : ∀ x : Byte,
      ((x &&& 0x3F).setWidth 64 : BitVec 64).toNat % 2 ^ 6 = x.toNat % 64 := by decide
  rw [ofBits_append, ofBits_append, ofBits_msbBits, ofBits_msbBits, ofBits_msbBits,
    List.length_append, msbBits_length, msbBits_length, hmode, hframe, hmultiframe,
    energySavingInfo, Nat.add_assoc]

theorem takes_energySaving (p : MmAcceptParams) :
    Takes pos (optionalElement .energySavingInfoPresent .energySavingInfo 14) (energySavingBits p)
      ((.energySavingInfoPresent, p.energySavingInfoPresent.toNat) ::
        if p.energySavingInfoPresent then [(.energySavingInfo, energySavingInfo p)]
        else []) () := by
  rw [energySavingBits, energySavingInfo_bits]
  cases p.energySavingInfoPresent with
  | false => exact takes_absent
  | true => exact takes_present rfl

theorem takes_moreOptional (p : MmAcceptParams) :
    Takes pos parseMoreOptional (gilaHead p)
      ((.moreOptionalBits, p.gilaPresent.toNat) ::
        if p.gilaPresent then
          [(.type3FieldId, 5), (.type3PayloadLen, (gilaContent p).length % 2 ^ 11)]
        else []) () := by
  rw [parseMoreOptional, gilaHead]
  cases p.gilaPresent with
  | false => exact Takes.ifRoom (Takes.flag false (takes_onlyIf_not (by decide))) (Nat.le_refl 1)
  | true =>
    rw [if_pos rfl, if_pos rfl]
    have hid : ofBits (msbBits elemDlGroupIdentityLocationAccept 4) = 5 := by decide
    have hlen : ofBits (msbBits (BitVec.ofNat 16 (gilaContent p).length) 11) =
        (gilaContent p).length % 2 ^ 11 := by
      rw [ofBits_msbBits, BitVec.toNat_ofNat]
      omega
    rw [← hid, ← hlen]
    refine Takes.ifRoom (Takes.flag true (Takes.onlyIf rfl (Takes.ifRoom ?_ ?_))) ?_
    · refine Takes.bits (msbBits_length _ _) ?_
      exact (takes_bits (msbBits_length _ _)).bind_end (takes_pure ())
    · rw [List.length_append, msbBits_length, msbBits_length]
    · exact Nat.succ_le_succ (Nat.zero_le _)

theorem takes_options (p : MmAcceptParams) :
    Takes pos parseAcceptOptions (optionsRead p) (optionFinds p) () := by
  rw [parseAcceptOptions, optionsRead, optionFinds]
  refine takes_absent.bind ?_
  refine takes_absent.bind ?_
  refine takes_absent.bind ?_
  refine (takes_energySaving p).bind ?_
  refine takes_absent.bind ?_
  exact takes_moreOptional p

theorem takes_accept (p : MmAcceptParams) :
    Takes pos parseLocationUpdateAccept (acceptRead p) (acceptFinds pos p) () := by
  have htype : ofBits (msbBits (p.acceptType.value.setWidth 64 : BitVec 64) 3) =
      p.acceptType.value.toNat := by
    rw [ofBits_msbBits]
    cases p.acceptType <;> rfl
  rw [parseLocationUpdateAccept, acceptFinds, ← htype, acceptRead]
  refine Takes.bits (msbBits_length _ _) ?_
  refine Takes.flag (acceptOptional p) ?_
  have hoptions : ∀ {pos : Nat}, Takes pos
      (onlyIf ((acceptOptional p).toNat = 1) parseAcceptOptions)
      (if acceptOptional p then optionsRead p else [])
      (if acceptOptional p then optionFinds p else []) () := by
    intro pos
    cases acceptOptional p with
    | false => exact takes_onlyIf_not (by decide)
    | true => exact Takes.onlyIf rfl (takes_options p)
  refine hoptions.bind_end (takes_findPosition _ ?_)
  rw [List.length_append, msbBits_length, List.length_cons]
  omega

end

/-! The whole block. -/

section
variable {h : Header} {c : ChanAlloc}

theorem elementFinds_lookup (h : Header) (c : ChanAlloc) {k : MacKey}
    (hk : k = .isNullPdu ∨ k = .payloadStart) : (elementFinds h c).lookup k = none := by
  have hfinds : c.finds.lookup k = none := by
    rw [ChanAlloc.finds]
    obtain rfl | rfl := hk <;> split <;> rfl
  have hca : (if h.caFlag then c.finds else []).lookup k = none := by
    split
    · exact hfinds
    · rfl
  rw [elementFinds]
  generalize (if h.caFlag then c.finds else []) = cas at hca
  obtain rfl | rfl := hk <;> cases h.pcFlag <;> cases h.sgFlag <;> exact hca

theorem headerFinds_lookup (fillBit : Bool) (lengthInd : BitVec 6) (h : Header) (c : ChanAlloc) :
    (headerFinds fillBit lengthInd h c).lookup .type = some 0 ∧
      (headerFinds fillBit lengthInd h c).lookup .isNullPdu = none ∧
      (headerFinds fillBit lengthInd h c).lookup .payloadStart = some h.length := by
  have hkey : addressKey h.addrType = .ssi ∨ addressKey h.addrType = .ussi := by
    rw [addressKey]
    split
    · exact .inl rfl
    · exact .inr rfl
  have hskip : ∀ k, k = .isNullPdu ∨ k = .payloadStart →
      (headerFinds fillBit lengthInd h c).lookup k =
        (elementFinds h c ++ [(MacKey.payloadStart, h.length)]).lookup k := by
    rintro k (rfl | rfl) <;> rw [headerFinds] <;> obtain hkey | hkey := hkey <;> rw [hkey] <;> rfl
  refine ⟨rfl, ?_, ?_⟩
  · rw [hskip _ (.inl rfl), List.lookup_append, elementFinds_lookup h c (.inl rfl)]
    rfl
  · rw [hskip _ (.inr rfl), List.lookup_append, elementFinds_lookup h c (.inr rfl)]
    rfl

/-- What is read behind the LLC header. -/
def upperRead (info : List Bool) (pos : Nat) : DlLlcPdu → Option (Finds MleKey)
  | .blAdata _ _ _ => some (parseMle info (pos + 6))
  | .blData _ _ => some (parseMle info (pos + 5))
  | .alSetup => none
  | .l2Sig _ => some (parseDirectMm info (pos + 4))

theorem parseMacPdu_header (hr : Readable h c) (fillBit : Bool) (lengthInd : BitVec 6)
    {back : List Bool} (hroom : 4 ≤ (h.bits fillBit lengthInd ++ back).length) :
    parseMacPdu (h.bits fillBit lengthInd ++ back) = headerFinds fillBit lengthInd h c := by
  rw [parseMacPdu, if_neg (Nat.not_lt.2 hroom)]
  exact (takes_header hr fillBit lengthInd).findsFrom List.length_nil back

/-- An LLC header without a check sequence. -/
theorem parseLlc_header {pos : Nat} {bs front back : List Bool} {kvs : Finds LlcKey}
    (h : Takes pos llcHeader bs kvs ()) (hfcs : kvs.lookup .hasFcs = none)
    (hfront : front.length = pos) (hroom : 4 ≤ (bs ++ back).length) :
    parseLlc (front ++ (bs ++ back)) pos = kvs := by
  have hroom : ¬ (front ++ (bs ++ back)).length < pos + 4 := by
    rw [List.length_append, hfront]
    omega
  rw [parseLlc, if_neg hroom]
  simp only [h.findsFrom hfront back, hfcs, reduceCtorEq, false_and, if_false]

/-- A block that begins with a MAC-RESOURCE, layer by layer. -/
theorem readSchF_resource (hr : Readable h c) (fillBit : Bool) (lengthInd : BitVec 6)
    (p : DlLlcPdu) {info back : List Bool}
    (hinfo : info = h.bits fillBit lengthInd ++ (llcFront p ++ back))
    (hroom : h.length + 9 < info.length) :
    readSchF info = ⟨headerFinds fillBit lengthInd h c, some (llcFinds h.length p),
      upperRead info h.length p⟩ := by
  have hlength : (h.bits fillBit lengthInd ++ (llcFront p ++ back)).length =
      h.length + (llcFront p ++ back).length := by
    rw [List.length_append, Header.bits_length]
  have hmac : parseMacPdu info = headerFinds fillBit lengthInd h c := by
    rw [hinfo] at hroom ⊢
    exact parseMacPdu_header hr fillBit lengthInd (by omega)
  have hllc : parseLlc info h.length = llcFinds h.length p := by
    have hnone : (llcFinds h.length p).lookup .hasFcs = none := by cases p <;> rfl
    rw [hinfo] at hroom ⊢
    exact parseLlc_header (takes_llcHeader p) hnone (Header.bits_length h fillBit lengthInd)
      (by omega)
  obtain ⟨htype, hnull, hstart⟩ := headerFinds_lookup fillBit lengthInd h c
  have hmore : h.length + 4 < info.length := by omega
  rw [readSchF]
  simp only [hmac, htype, hnull, hstart, and_self, if_true, Option.getD_some, hmore, hllc]
  cases p with
  | blAdata nr ns mm =>
    have hlookup : (llcFinds h.length (.blAdata nr ns mm)).lookup .payloadStart =
        some (h.length + 6) := rfl
    have htype : (llcFinds h.length (.blAdata nr ns mm)).lookup .llcType = some 0 := rfl
    have hlast : h.length + 6 + 3 < info.length := by omega
    simp only [hlookup, htype, hlast, if_true]
    rfl
  | blData ns mm =>
    have hlookup : (llcFinds h.length (.blData ns mm)).lookup .payloadStart =
        some (h.length + 5) := rfl
    have htype : (llcFinds h.length (.blData ns mm)).lookup .llcType = some 1 := rfl
    have hlast : h.length + 5 + 3 < info.length := by omega
    simp only [hlookup, htype, hlast, if_true]
    rfl
  | alSetup => rfl
  | l2Sig mm =>
    have hlookup : (llcFinds h.length (.l2Sig mm)).lookup .payloadStart =
        some (h.length + 4) := rfl
    have htype : (llcFinds h.length (.l2Sig mm)).lookup .llcType = some 14 := rfl
    have hlast : h.length + 4 + 3 < info.length := by omega
    simp only [hlookup, htype, hlast, if_true]
    rfl

end

/-- What is behind the bits of the LLC PDU in a block of 268. -/
theorem block_split (r : Request) :
    ∃ rest, r.block 268 = r.first.bits r.fill r.lengthInd ++ (llcFront r.llc ++
      (llcUpper r.llc ++ rest)) := by
  rw [Request.block]
  split
  · exact ⟨fillTo r.total r.offset ++ r.secondBits ++
      fillTo (r.offset + r.total2) (min r.end2 268) ++ fillTo r.end2 268, by
        simp only [Request.firstBits, llcBits_eq, List.append_assoc]⟩
  · exact ⟨fillTo r.total 268, by simp only [Request.firstBits, llcBits_eq, List.append_assoc]⟩

section
variable {s : Builder 268 144} {i : Input} {ca : ChanAlloc}

theorem built_split (hs : s.state = .idle) (hi : i.start = true) (hr : i.request.InRange)
    (hP : i.request.extent ≤ 268) (a b c d e : Input) :
    (msbBits (exec step s [i, a, b, c, d, e]).pduBits 268).length = 268 ∧
      ∃ rest, msbBits (exec step s [i, a, b, c, d, e]).pduBits 268 =
        i.request.first.bits i.request.fill i.request.lengthInd ++ (llcFront i.request.llc ++
          (llcUpper i.request.llc ++ rest)) := by
  obtain ⟨-, hbits, -⟩ := exec_start hs hi a b c d e
  rw [hbits]
  refine ⟨msbBits_length _ _, ?_⟩
  rw [msbBits_built hr (by decide) (by decide) hP]
  exact block_split i.request

/-- Six clocks after a start with any request that fits, the tool reads the MAC header, its optional
elements and the LLC header of the first PDU as they were asked for, and starts to read the next
layer where the MM PDU begins. -/
theorem built_resource_read (hs : s.state = .idle) (hi : i.start = true) (hr : i.request.InRange)
    (hca : Readable i.request.first ca) (hP : i.request.extent ≤ 268) (a b c d e : Input) :
    readSchF (msbBits (exec step s [i, a, b, c, d, e]).pduBits 268) =
      ⟨headerFinds i.request.fill i.request.lengthInd i.request.first ca,
        some (llcFinds i.request.first.length i.request.llc),
        upperRead (msbBits (exec step s [i, a, b, c, d, e]).pduBits 268) i.request.first.length
          i.request.llc⟩ := by
  obtain ⟨hlen, rest, hblock⟩ := built_split hs hi hr hP a b c d e
  have hlong := Header.length_le i.request.first
  exact readSchF_resource hca i.request.fill i.request.lengthInd i.request.llc hblock (by omega)

/-- What is found of an accept in an LLC PDU at `pos`. -/
def acceptUpper (pos : Nat) (p : MmAcceptParams) : DlLlcPdu → Option (Finds MleKey)
  | .blAdata _ _ _ => some ((.mleDisc, 1) :: (.mmType, 5) ::
      (acceptFinds (pos + 13) p ++ [(.payloadStart, pos + 13)]))
  | .blData _ _ => some ((.mleDisc, 1) :: (.mmType, 5) ::
      (acceptFinds (pos + 12) p ++ [(.payloadStart, pos + 12)]))
  | .alSetup => none
  | .l2Sig _ => some ((.mmType, 5) :: (acceptFinds (pos + 8) p ++ [(.payloadStart, pos + 8)]))

end

theorem parseMmPdu_accept {pos : Nat} (p : MmAcceptParams) {front rest : List Bool}
    (hfront : front.length = pos) :
    findsFrom (parseMmPdu 5) (front ++ (acceptRead p ++ (acceptUnread p ++ rest))) pos =
      acceptFinds pos p :=
  (takes_accept p).findsFrom hfront (acceptUnread p ++ rest)

/-- The type of an accept, and the accept behind it. -/
theorem accept_at {pos : Nat} (p : MmAcceptParams) {front : List Bool}
    (hfront : front.length = pos) (rest : List Bool) :
    numberAt (front ++ (acceptBits p ++ rest)) pos 4 = 5 ∧
      findsFrom (parseMmPdu 5) (front ++ (acceptBits p ++ rest)) (pos + 4) =
        acceptFinds (pos + 4) p := by
  have htype : ofBits (msbBits dLocationUpdateAccept 4) = 5 := by decide
  have hbits : front ++ (acceptBits p ++ rest) =
      front ++ (msbBits dLocationUpdateAccept 4 ++ (acceptRead p ++ (acceptUnread p ++ rest))) := by
    simp only [acceptBits_eq, List.append_assoc]
  rw [hbits]
  constructor
  · have hread := numberAt_middle hfront (msbBits dLocationUpdateAccept 4)
      (acceptRead p ++ (acceptUnread p ++ rest))
    rwa [msbBits_length, htype] at hread
  · rw [← List.append_assoc]
    exact parseMmPdu_accept p (by rw [List.length_append, hfront, msbBits_length])

theorem acceptBits_long (p : MmAcceptParams) : 8 ≤ (acceptBits p).length := by
  rw [acceptBits, List.length_append, List.length_append, List.length_append, msbBits_length,
    msbBits_length, msbBits_length]
  omega

theorem parseDirectMm_accept {pos : Nat} (p : MmAcceptParams) {front rest : List Bool}
    (hfront : front.length = pos) :
    parseDirectMm (front ++ (acceptBits p ++ rest)) pos =
      (.mmType, 5) :: (acceptFinds (pos + 4) p ++ [(.payloadStart, pos + 4)]) := by
  obtain ⟨htype, hfinds⟩ := accept_at p hfront rest
  have hlong := acceptBits_long p
  rw [parseDirectMm, if_neg (by rw [List.length_append, List.length_append]; omega)]
  simp only [htype, hfinds, List.cons_append, List.nil_append]

theorem parseMle_accept {pos : Nat} (p : MmAcceptParams) {front rest : List Bool}
    (hfront : front.length = pos) :
    parseMle (front ++ (false :: false :: true :: acceptBits p ++ rest)) pos =
      (.mleDisc, 1) :: (.mmType, 5) ::
        (acceptFinds (pos + 7) p ++ [(.payloadStart, pos + 7)]) := by
  have hbits : front ++ (false :: false :: true :: acceptBits p ++ rest) =
      front ++ [false, false, true] ++ (acceptBits p ++ rest) := by
    simp
  have hdisc : numberAt (front ++ [false, false, true] ++ (acceptBits p ++ rest)) pos 3 = 1 := by
    rw [List.append_assoc]
    exact numberAt_middle hfront [false, false, true] _
  have hlater : (front ++ [false, false, true]).length = pos + 3 := by
    rw [List.length_append, hfront]
    rfl
  obtain ⟨htype, hfinds⟩ := accept_at p hlater rest
  have hlong := acceptBits_long p
  have hroom : pos + 3 + 4 ≤ (front ++ [false, false, true] ++ (acceptBits p ++ rest)).length := by
    rw [List.length_append, List.length_append, List.length_append, hfront]
    simp
    omega
  rw [hbits, parseMle, if_neg (by omega)]
  simp only [hdisc, htype, hfinds, hroom, Nat.reduceEqDiff, false_and, if_false, true_and, if_true,
    List.cons_append, List.nil_append]

section
variable {s : Builder 268 144} {i : Input} {ca : ChanAlloc}

/-- The MM PDU inside, if there is one. -/
def carriedMm : DlLlcPdu → Option (List Bool)
  | .blAdata _ _ mm | .blData _ mm | .l2Sig mm => some mm
  | .alSetup => none

theorem upperRead_accept {pos : Nat} (p : MmAcceptParams) {q : DlLlcPdu}
    (hq : ∀ mm, carriedMm q = some mm → mm = acceptBits p) {front rest : List Bool}
    (hfront : front.length = pos) :
    upperRead (front ++ (llcFront q ++ (llcUpper q ++ rest))) pos q = acceptUpper pos p q := by
  have hlength : ∀ q, (front ++ llcFront q).length = pos + (llcFront q).length := by
    intro q
    rw [List.length_append, hfront]
  cases q with
  | blAdata nr ns mm =>
    obtain rfl := hq mm rfl
    have hlater : (front ++ llcFront (.blAdata nr ns (acceptBits p))).length = pos + 6 := hlength _
    rw [upperRead, llcUpper, ← List.append_assoc, parseMle_accept p hlater]
    rfl
  | blData ns mm =>
    obtain rfl := hq mm rfl
    have hlater : (front ++ llcFront (.blData ns (acceptBits p))).length = pos + 5 := hlength _
    rw [upperRead, llcUpper, ← List.append_assoc, parseMle_accept p hlater]
    rfl
  | alSetup => rfl
  | l2Sig mm =>
    obtain rfl := hq mm rfl
    have hlater : (front ++ llcFront (.l2Sig (acceptBits p))).length = pos + 4 := hlength _
    rw [upperRead, llcUpper, ← List.append_assoc, parseDirectMm_accept p hlater]
    rfl

theorem carriedMm_llc (r : Request) : ∀ mm, carriedMm r.llc = some mm → mm = r.mm := by
  intro mm hmm
  rw [Request.llc] at hmm
  split at hmm
  · exact (Option.some.inj hmm).symm
  · split at hmm
    · cases hmm
    · split at hmm <;> exact (Option.some.inj hmm).symm

/-- What the daemon has built of an accept are its bits. -/
theorem window_accept {p : MmAcceptParams} (hp : p.numGid ≤ p.gid.length) {cap n : Nat}
    {body : List Byte} (hbuild : mmBuildDLocUpdateAccept cap p = .ok (body, n)) :
    window body 0 n = acceptBits p := by
  have hbuilds := mmBuildDLocUpdateAccept_builds cap hp
  by_cases hcap : cap < 16
  · rw [hbuilds.refuses hcap] at hbuild
    cases hbuild
  · by_cases hfit : (acceptBits p).length ≤ cap
    · obtain ⟨body', hok, hwindow⟩ := hbuilds.writes (by omega) hfit
      rw [hok, Except.ok.injEq, Prod.mk.injEq] at hbuild
      rw [← hbuild.1, ← hbuild.2, hwindow]
    · rw [hbuilds.overflows (by omega) (by omega)] at hbuild
      cases hbuild

/-- An accept that the daemon has built is read, in a PDU of the builder, with its type and all its
options, and with the head of what stands behind them. -/
theorem built_accept_read {p : MmAcceptParams} (hp : p.numGid ≤ p.gid.length) {cap n : Nat}
    {body : List Byte} (hbuild : mmBuildDLocUpdateAccept cap p = .ok (body, n))
    (hs : s.state = .idle) (hi : i.start = true) (hr : i.request.InRange)
    (hmm : i.request.mm = window body 0 n) (hca : Readable i.request.first ca)
    (hP : i.request.extent ≤ 268) (a b c d e : Input) :
    (readSchF (msbBits (exec step s [i, a, b, c, d, e]).pduBits 268)).mle =
      acceptUpper i.request.first.length p i.request.llc := by
  have hbits : i.request.mm = acceptBits p := hmm.trans (window_accept hp hbuild)
  obtain ⟨hlen, rest, hblock⟩ := built_split hs hi hr hP a b c d e
  have hlong := Header.length_le i.request.first
  rw [readSchF_resource hca i.request.fill i.request.lengthInd i.request.llc hblock (by omega),
    hblock]
  exact upperRead_accept p (fun mm h => (carriedMm_llc i.request mm h).trans hbits)
    (Header.bits_length i.request.first i.request.fill i.request.lengthInd)

end

/-- To a channel in slot 2, with monitoring in frame 18 only. -/
def slotTwo : ChanAlloc := ⟨0, 4, 3, true, false, 0x5F1, 0, 1⟩

/-- An accept of one group, a slot grant and that channel, with an acknowledgement behind it. -/
def groupRequest : Request :=
  { acceptRequest with
    first := { acceptRequest.first with
               sgElement := 0x10, caFlag := true, caElement := 0x9CBE21, caElementLen := 27 }
    mmPduBits := 0x571000150746e0981302f4d610000000
    mmPduLenBits := 102 }

def groupInput : Input := ⟨true, groupRequest⟩

theorem groupRequest_inRange : groupRequest.InRange where
  first := ⟨by decide, by decide⟩
  mm := by decide
  second := acceptRequest_inRange.second
  tlSdu := acceptRequest_inRange.tlSdu
  lengthInd := acceptRequest_inRange.lengthInd

theorem groupRequest_readable : Readable groupRequest.first slotTwo where
  addr := .inl rfl
  chanAlloc _ := by decide

theorem built_resource_read_group :
    readSchF (msbBits (exec step (Builder.reset 268 144)
        (List.replicate 6 groupInput)).pduBits 268) =
      ⟨headerFinds true 24 groupRequest.first slotTwo, some (llcFinds 78 groupRequest.llc),
        upperRead (msbBits (exec step (Builder.reset 268 144)
          (List.replicate 6 groupInput)).pduBits 268) 78 groupRequest.llc⟩ :=
  built_resource_read rfl rfl groupRequest_inRange groupRequest_readable (by decide +kernel)
    groupInput groupInput groupInput groupInput groupInput

theorem groupRequest_built : ∃ body n, mmBuildDLocUpdateAccept 128 acceptOne = .ok (body, n) ∧
    groupRequest.mm = window body 0 n := by
  obtain ⟨body, hbody, hbits⟩ :=
    (mmBuildDLocUpdateAccept_builds 128 (p := acceptOne) (by decide)).writes (by decide) (by decide)
  refine ⟨body, _, hbody, ?_⟩
  rw [hbits]
  decide +kernel

theorem built_accept_read_group :
    ∃ body n, mmBuildDLocUpdateAccept 128 acceptOne = .ok (body, n) ∧
      groupRequest.mm = window body 0 n ∧
      (readSchF (msbBits (exec step (Builder.reset 268 144)
        (List.replicate 6 groupInput)).pduBits 268)).mle =
        acceptUpper 78 acceptOne groupRequest.llc := by
  obtain ⟨body, n, hbody, hmm⟩ := groupRequest_built
  exact ⟨body, n, hbody, hmm, built_accept_read (by decide) hbody rfl rfl groupRequest_inRange hmm
    groupRequest_readable (by decide +kernel)
    groupInput groupInput groupInput groupInput groupInput⟩

/-- The block of that request in the air, with twenty wrong bits. -/
def groupSlot : Lmac.SchInput 268 :=
  ⟨true, (exec step (Builder.reset 268 144) (List.replicate 6 groupInput)).pduBits, 3⟩

end TetraBs.DecodeDl
