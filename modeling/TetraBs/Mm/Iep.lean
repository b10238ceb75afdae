import TetraBs.Core.BitBuffer
import TetraBs.Lib.BitReader
import TetraBs.Mm.Types

/-! The uplink MM decoder of `sw/mm/mm_iep.c`. -/
namespace TetraBs
open TetraBs.Bits TetraBs.Decoder

/-- Read cursor; a read past the end yields zero and is remembered in `overrun`. -/
structure RBuf where
  bits : List Byte
  lenBits : Nat
  pos : Nat := 0
  overrun : Bool := false

def rbufRead (r : RBuf) (n : Nat) : BitVec 32 × RBuf :=
  if n = 0 ∨ 32 < n then (0, r)
  else if r.lenBits < r.pos + n then (0, { r with overrun := true })
  else (readBits 32 r.bits r.pos n, { r with pos := r.pos + n })

abbrev MmDecoder := Decoder RBuf Errno

def read (n : Nat) : MmDecoder (BitVec 32) := fun r => .ok (rbufRead r n)

def readBit : MmDecoder Bool := do
  let v ← read 1
  return v != 0

/-- A field that is there only if `c` holds, and zero otherwise. -/
def readIf (c : Bool) (n : Nat) : MmDecoder (BitVec 32) := if c then read n else pure 0

/-- The last check of most decoders. -/
def failOnOverrun : MmDecoder Unit := do
  let r ← get
  if r.overrun then throw .EPROTO else pure ()

def failIf (c : Bool) : MmDecoder Unit := if c then throw .EPROTO else pure ()

/-- `presence` stands for the p-bit, read only if the optional part exists at all. -/
def readPresence (obit : Bool) : MmDecoder Bool := if obit then readBit else pure false

def decodeType2Generic (obit : Bool) (width : Nat) : MmDecoder (Bool × BitVec 32) := do
  let present ← readPresence obit
  let v ← readIf present width
  return (present, v)

/-- `k` full words. -/
def readWords : Nat → BitVec 64 → MmDecoder (BitVec 64)
  | 0, v => pure v
  | k + 1, v => do
    let x ← read 32
    readWords k (v <<< 32 ||| x.setWidth 64)

/-- The loop leaves a rest of 1 to 32 bits. -/
def readWide (width : Nat) : MmDecoder (BitVec 64) := do
  let v ← readWords ((width - 1) / 32) 0
  let rest := width - 32 * ((width - 1) / 32)
  let x ← read rest
  return v <<< rest ||| x.setWidth 64

def readWideIf (c : Bool) (width : Nat) : MmDecoder (BitVec 64) :=
  if c then readWide width else pure 0

def decodeType2U64 (obit : Bool) (width : Nat) : MmDecoder (Bool × BitVec 64) := do
  let present ← readPresence obit
  let v ← readWideIf present width
  return (present, v)

/-- m-bit and element id, without moving the cursor. -/
def peekType34 (r : RBuf) (expectedId : BitVec 32) : Bool :=
  if r.lenBits < r.pos + 5 then false
  else if (rbufRead r 1).1 = 0 then false
  else (rbufRead (rbufRead r 1).2 4).1 == expectedId

def skipType34Header : MmDecoder Unit := do
  let _ ← read 5

/-- Run `d` on an element that is present, else return `none`. -/
def withType34 {α : Type} (expectedId : BitVec 32) (d : MmDecoder α) : MmDecoder (Option α) := do
  let r ← get
  if peekType34 r expectedId then do
    skipType34Header
    let a ← d
    return some a
  else return none

def elemGroupIdentityLocationDemand : BitVec 32 := 3
def elemGroupReportResponse : BitVec 32 := 4
def elemGroupIdentityUplink : BitVec 32 := 8
def elemAuthenticationUplink : BitVec 32 := 9
def elemExtendedCapabilities : BitVec 32 := 11
def elemProprietary : BitVec 32 := 15

def decodeGiu : MmDecoder MmGroupIdentityUplink := do
  let adt ← read 1
  let isAttach := adt == 0
  let classOfUsage ← readIf isAttach 3
  let detachment ← readIf (!isAttach) 2
  let addressType ← read 2
  let gssi ← readIf (addressType == 0 || addressType == 1) 24
  let addressExtension ← readIf (addressType == 1) 24
  let vgssi ← readIf (addressType == 2) 24
  failOnOverrun
  return { isAttach := isAttach, classOfUsage := classOfUsage.setWidth 8,
           detachment := detachment.setWidth 8, addressType := addressType.setWidth 8,
           gssi := gssi &&& tetraSsiMask24,
           addressExtension := addressExtension &&& tetraSsiMask24,
           vgssi := vgssi &&& tetraSsiMask24 }

/-- Elements `i`, `i + 1`, ...; beyond the capacity there is nowhere to put them. -/
def decodeGius : Nat → Nat → MmDecoder (List MmGroupIdentityUplink)
  | _, 0 => pure []
  | i, k + 1 => do
    failIf (mmGiuMax ≤ i)
    let g ← decodeGiu
    let gs ← decodeGius (i + 1) k
    return g :: gs

def decodeGiuElement : MmDecoder (Nat × List MmGroupIdentityUplink) := do
  let length ← read 11
  let numElems ← read 6
  let start ← get
  let giu ← decodeGius 0 numElems.toNat
  let r ← get
  failIf (6 ≤ length.toNat && r.pos - start.pos != length.toNat - 6)
  return (min numElems.toNat mmGiuMax, giu)

def decodeGiuList : MmDecoder (Nat × List MmGroupIdentityUplink) := do
  let e ← withType34 elemGroupIdentityUplink decodeGiuElement
  return e.getD (0, [])

/-- The list with its trailing m-bit. -/
def decodeGildList (obit : Bool) : MmDecoder (Nat × List MmGroupIdentityUplink) :=
  if obit then do
    let l ← decodeGiuList
    let trailing ← read 1
    failIf (trailing != 0)
    return l
  else pure (0, [])

def decodeGild : MmDecoder MmGild := do
  let reserved ← read 1
  failIf (reserved != 0)
  let mode ← read 1
  let obit ← readBit
  let (numGiu, giu) ← decodeGildList obit
  failOnOverrun
  return { attachDetachMode := mode.setWidth 8, numGiu := numGiu, giu := giu }

def decodeGildElement : MmDecoder MmGild := do
  let length ← read 11
  let start ← get
  let gild ← decodeGild
  let r ← get
  failIf (r.pos - start.pos != length.toNat)
  return gild

/-- Move past `length` bits. -/
def skipBits (length : Nat) : MmDecoder Unit := do
  let r ← get
  if r.lenBits < r.pos + length then throw .EPROTO
  else set { r with pos := r.pos + length }

def decodeType3GenericSkip (expectedId : BitVec 32) : MmDecoder Unit := do
  let _ ← withType34 expectedId do
    let length ← read 11
    failIf (256 < length.toNat)
    skipBits length.toNat

/-- The trailing m-bit, if any bits are left, and the overrun check. -/
def decodeTrailing : MmDecoder Unit := do
  let r ← get
  let trailing ← readIf (r.pos < r.lenBits) 1
  failIf (trailing != 0)
  failOnOverrun

/-- The 4-bit value as the enumeration; the values in between have no name. -/
def MmPduTypeUl.value : MmPduTypeUl → BitVec 32
  | .dOtarCmac => 0
  | .authenticationDemand => 1
  | .uLocationUpdateDemand => 2
  | .uMmStatus => 3
  | .uCkChangeDemand => 4
  | .uDisableStatus => 5
  | .uItsiDetach => 6
  | .uAttachDetachGroupIdentity => 7
  | .functionNotSupported => 14

/-- The optional part of U-LOCATION-UPDATE-DEMAND. -/
def decodeDemandOptions (d : MmDecoded) : MmDecoder MmDecoded := do
  let (classPresent, classOfMs) ← decodeType2U64 true 24
  let (esmPresent, esm) ← decodeType2Generic true 3
  let (laPresent, la) ← decodeType2Generic true 15
  let (ssiPresent, ssi) ← decodeType2Generic true 24
  let (aePresent, ae) ← decodeType2Generic true 24
  let gild ← withType34 elemGroupIdentityLocationDemand decodeGildElement
  decodeType3GenericSkip elemGroupReportResponse
  decodeType3GenericSkip elemAuthenticationUplink
  decodeType3GenericSkip elemExtendedCapabilities
  decodeType3GenericSkip elemProprietary
  decodeTrailing
  return { d with classOfMsPresent := classPresent, classOfMs := classOfMs.setWidth 32,
                  energySavingModePresent := esmPresent,
                  energySavingMode := EnergySavingMode.ofValue (esm.setWidth 3),
                  laInformationPresent := laPresent, laInformation := la >>> 1,
                  ssiPresent := ssiPresent, ssi := ssi &&& tetraSsiMask24,
                  addressExtensionPresent := aePresent,
                  addressExtension := ae &&& tetraSsiMask24,
                  gildPresent := gild.isSome, gild := gild.getD {} }

/-- Without the o-bit the PDU ends here. -/
def endOfPdu (d : MmDecoded) : MmDecoder MmDecoded := do
  failOnOverrun
  return d

def decodeULocUpdateDemand : MmDecoder MmDecoded := do
  let pduType ← read 4
  failIf (pduType != MmPduTypeUl.uLocationUpdateDemand.value)
  let lut ← read 3
  let append ← readBit
  let cipher ← readBit
  let _ ← readIf cipher 10
  let obit ← readBit
  let d : MmDecoded :=
    { pduType := .uLocationUpdateDemand,
      locationUpdateType := LocationUpdateType.ofValue (lut.setWidth 3),
      requestToAppendLa := append, cipherControl := cipher }
  if obit then decodeDemandOptions d else endOfPdu d

/-- The optional part of U-ATTACH-DETACH-GROUP-IDENTITY. -/
def decodeGroupOptions (d : MmDecoded) : MmDecoder MmDecoded := do
  decodeType3GenericSkip elemGroupReportResponse
  let (numGiu, giu) ← decodeGiuList
  decodeType3GenericSkip elemProprietary
  decodeTrailing
  return { d with numGiu := numGiu, giu := giu }

def decodeUAttachDetachGrpId : MmDecoder MmDecoded := do
  let pduType ← read 4
  failIf (pduType != MmPduTypeUl.uAttachDetachGroupIdentity.value)
  let report ← readBit
  let mode ← read 1
  let obit ← readBit
  let d : MmDecoded :=
    { pduType := .uAttachDetachGroupIdentity, groupIdentityReport := report,
      attachDetachMode := mode.setWidth 8 }
  if obit then decodeGroupOptions d else endOfPdu d

/-- The 4-bit type at the start of an MM PDU. -/
def mmPduType (bits : List Byte) (lenBits : Nat) : BitVec 32 :=
  (rbufRead { bits := bits, lenBits := lenBits } 4).1

def mmIepDecode (bits : List Byte) (lenBits : Nat) : Except Errno MmDecoded :=
  if lenBits < 4 then .error .EINVAL
  else
    let r : RBuf := { bits := bits, lenBits := lenBits }
    if (rbufRead r 4).2.overrun then .error .EPROTO
    else if mmPduType bits lenBits = MmPduTypeUl.uLocationUpdateDemand.value then
      (decodeULocUpdateDemand.run r).map Prod.fst
    else if mmPduType bits lenBits = MmPduTypeUl.uAttachDetachGroupIdentity.value then
      (decodeUAttachDetachGrpId.run r).map Prod.fst
    else .error .ENOTSUP

/-! What a decoded PDU says about its bits. -/

theorem decodeULocUpdateDemand_type : Ensures (fun _ => True) decodeULocUpdateDemand
    fun d _ => d.pduType = .uLocationUpdateDemand := by
  rw [decodeULocUpdateDemand]
  iterate 7 refine ensures_bind_any fun _ => ?_
  apply ensures_ite
  · intro _
    rw [decodeDemandOptions]
    iterate 11 refine ensures_bind_any fun _ => ?_
    exact ensures_pure fun _ _ => rfl
  · intro _
    exact ensures_bind_any fun _ => ensures_pure fun _ _ => rfl

theorem decodeUAttachDetachGrpId_type : Ensures (fun _ => True) decodeUAttachDetachGrpId
    fun d _ => d.pduType = .uAttachDetachGroupIdentity := by
  rw [decodeUAttachDetachGrpId]
  iterate 5 refine ensures_bind_any fun _ => ?_
  apply ensures_ite
  · intro _
    rw [decodeGroupOptions]
    iterate 4 refine ensures_bind_any fun _ => ?_
    exact ensures_pure fun _ _ => rfl
  · intro _
    exact ensures_bind_any fun _ => ensures_pure fun _ _ => rfl

/-- Only the two request types decode. -/
theorem mmIepDecode_cases {bits : List Byte} {lenBits : Nat} {d : MmDecoded}
    (h : mmIepDecode bits lenBits = .ok d) :
    mmPduType bits lenBits = MmPduTypeUl.uLocationUpdateDemand.value ∧
        (decodeULocUpdateDemand.run { bits := bits, lenBits := lenBits }).map Prod.fst = .ok d ∨
      mmPduType bits lenBits = MmPduTypeUl.uAttachDetachGroupIdentity.value ∧
        (decodeUAttachDetachGrpId.run { bits := bits, lenBits := lenBits }).map Prod.fst =
          .ok d := by
  unfold mmIepDecode at h
  by_cases h4 : lenBits < 4
  · rw [if_pos h4] at h
    cases h
  rw [if_neg h4] at h
  simp only at h
  by_cases hov : (rbufRead { bits := bits, lenBits := lenBits } 4).2.overrun = true
  · rw [if_pos hov] at h
    cases h
  rw [if_neg hov] at h
  by_cases h2 : mmPduType bits lenBits = MmPduTypeUl.uLocationUpdateDemand.value
  · rw [if_pos h2] at h
    exact Or.inl ⟨h2, h⟩
  rw [if_neg h2] at h
  by_cases h7 : mmPduType bits lenBits = MmPduTypeUl.uAttachDetachGroupIdentity.value
  · rw [if_pos h7] at h
    exact Or.inr ⟨h7, h⟩
  · rw [if_neg h7] at h
    cases h

/-- Each decodes to a record of its own type. -/
theorem mmIepDecode_ok {bits : List Byte} {lenBits : Nat} {d : MmDecoded}
    (h : mmIepDecode bits lenBits = .ok d) :
    mmPduType bits lenBits = MmPduTypeUl.uLocationUpdateDemand.value ∧
        d.pduType = .uLocationUpdateDemand ∨
      mmPduType bits lenBits = MmPduTypeUl.uAttachDetachGroupIdentity.value ∧
        d.pduType = .uAttachDetachGroupIdentity := by
  obtain ⟨h2, hrun⟩ | ⟨h7, hrun⟩ := mmIepDecode_cases h
  · obtain ⟨-, ht⟩ := ensures_map_fst decodeULocUpdateDemand_type trivial hrun
    exact Or.inl ⟨h2, ht⟩
  · obtain ⟨-, ht⟩ := ensures_map_fst decodeUAttachDetachGrpId_type trivial hrun
    exact Or.inr ⟨h7, ht⟩

end TetraBs
