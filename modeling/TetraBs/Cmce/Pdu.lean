import TetraBs.Cmce.Types
import TetraBs.Core.BitBuffer

/-! CMCE PDUs on the air: the codec of `sw/cmce/cmce_pdu.c`. -/
namespace TetraBs
open TetraBs.Bits TetraBs.Decoder

def putPduType (v : Byte) : BitM Unit := do
  failUnless (v ≤ 0x1F) .EINVAL
  putBits (v.setWidth 32) 5

def presentBit (b : Bool) : BitVec 32 := if b then 1 else 0

def encodeDSetup (p : CmcePdu) : BitM Unit := do
  failUnless (p.callIdentifier ≤ 0x3FFF) .EINVAL
  failUnless (p.callTimeOut ≤ 0x0F) .EINVAL
  failUnless (p.callPriority ≤ 0x0F) .EINVAL
  putPduType CmcePduType.setup.value
  putBits (p.callIdentifier.setWidth 32 &&& 0x3FFF) 14
  putBits (p.callTimeOut.setWidth 32 &&& 0x0F) 4
  putBits (p.hookMethodSelection.setWidth 32 &&& 1) 1
  putBits (p.simplexDuplexSelection.setWidth 32 &&& 1) 1
  putBits (p.basicServiceInformation.setWidth 32) 8
  putBits (p.transmissionGrant.value &&& 3) 2
  putBits (p.transmissionRequestPermission.setWidth 32 &&& 1) 1
  putBits (p.callPriority.setWidth 32 &&& 0x0F) 4
  putBits (presentBit p.optionalsPresent) 1

/-- The address of the called party; for a TSI only its SSI part. -/
def putCalledParty (p : CmcePdu) : BitM Unit :=
  match p.calledPartyTypeIdentifier with
  | .sna => putBits (p.calledPartyShortNumberAddress.setWidth 32) 8
  | .ssi => putBits (p.calledPartyAddressSsi &&& tetraSsiMask24) 24
  | .tsi => putBits (p.calledPartyAddressSsi &&& tetraSsiMask24) 24
  | .reserved => pure ()

def encodeUSetup (p : CmcePdu) : BitM Unit := do
  failUnless (p.areaSelection ≤ 0x0F) .EINVAL
  failUnless (p.callPriority ≤ 0x0F) .EINVAL
  failUnless (p.clirControl ≤ 3) .EINVAL
  putPduType CmcePduType.setup.value
  putBits (p.areaSelection.setWidth 32 &&& 0x0F) 4
  putBits (p.hookMethodSelection.setWidth 32 &&& 1) 1
  putBits (p.simplexDuplexSelection.setWidth 32 &&& 1) 1
  putBits (p.basicServiceInformation.setWidth 32) 8
  putBits (p.requestToTransmitSendData.setWidth 32 &&& 1) 1
  putBits (p.callPriority.setWidth 32 &&& 0x0F) 4
  putBits (p.clirControl.setWidth 32 &&& 3) 2
  putBits (p.calledPartyTypeIdentifier.value &&& 3) 2
  putCalledParty p
  putBits (presentBit p.optionalsPresent) 1

def encodeDCallProceeding (p : CmcePdu) : BitM Unit := do
  failUnless (p.callIdentifier ≤ 0x3FFF) .EINVAL
  failUnless (p.callTimeOutSetUpPhase ≤ 7) .EINVAL
  putPduType CmcePduType.callProceeding.value
  putBits (p.callIdentifier.setWidth 32 &&& 0x3FFF) 14
  putBits (p.callTimeOutSetUpPhase.setWidth 32 &&& 7) 3
  putBits (p.hookMethodSelection.setWidth 32 &&& 1) 1
  putBits (p.simplexDuplexSelection.setWidth 32 &&& 1) 1
  putBits (presentBit p.optionalsPresent) 1

def encodeDConnect (p : CmcePdu) : BitM Unit := do
  failUnless (p.callIdentifier ≤ 0x3FFF) .EINVAL
  failUnless (p.callTimeOut ≤ 0x0F) .EINVAL
  putPduType CmcePduType.connect.value
  putBits (p.callIdentifier.setWidth 32 &&& 0x3FFF) 14
  putBits (p.callTimeOut.setWidth 32 &&& 0x0F) 4
  putBits (p.hookMethodSelection.setWidth 32 &&& 1) 1
  putBits (p.simplexDuplexSelection.setWidth 32 &&& 1) 1
  putBits (p.transmissionGrant.value &&& 3) 2
  putBits (p.transmissionRequestPermission.setWidth 32 &&& 1) 1
  putBits (p.callOwnership.setWidth 32 &&& 1) 1
  putBits (presentBit p.optionalsPresent) 1

def encodeDTxGranted (p : CmcePdu) : BitM Unit := do
  failUnless (p.callIdentifier ≤ 0x3FFF) .EINVAL
  putPduType CmcePduType.txGranted.value
  putBits (p.callIdentifier.setWidth 32 &&& 0x3FFF) 14
  putBits (p.transmissionGrant.value &&& 3) 2
  putBits (p.transmissionRequestPermission.setWidth 32 &&& 1) 1
  putBits (p.encryptionControl.setWidth 32 &&& 1) 1
  putBits 0 1
  putBits (presentBit p.optionalsPresent) 1

def encodeUTxDemand (p : CmcePdu) : BitM Unit := do
  failUnless (p.callIdentifier ≤ 0x3FFF) .EINVAL
  failUnless (p.txDemandPriority ≤ 3) .EINVAL
  putPduType CmcePduType.txDemand.value
  putBits (p.callIdentifier.setWidth 32 &&& 0x3FFF) 14
  putBits (p.txDemandPriority.setWidth 32 &&& 3) 2
  putBits (p.encryptionControl.setWidth 32 &&& 1) 1
  putBits 0 1
  putBits (presentBit p.optionalsPresent) 1

def encodeRelease (p : CmcePdu) : BitM Unit := do
  failUnless (p.callIdentifier ≤ 0x3FFF) .EINVAL
  failUnless (p.disconnectCause ≤ 0x1F) .EINVAL
  putPduType CmcePduType.release.value
  putBits (p.callIdentifier.setWidth 32 &&& 0x3FFF) 14
  putBits (p.disconnectCause &&& 0x1F) 5
  putBits (presentBit p.optionalsPresent) 1

/-- The encoder of a PDU type in a direction. -/
def cmceEncoder (p : CmcePdu) (dir : CmceDirection) : BitM Unit :=
  match p.pduType, dir with
  | .setup, .downlink => encodeDSetup p
  | .setup, .uplink => encodeUSetup p
  | .callProceeding, .downlink => encodeDCallProceeding p
  | .connect, .downlink => encodeDConnect p
  | .txDemand, .uplink => encodeUTxDemand p
  | .txGranted, .downlink => encodeDTxGranted p
  | .release, _ => encodeRelease p
  | _, _ => failWith .EINVAL

/-- Returns the buffer and the number of bits written. -/
def cmcePduEncode (out : BitBuffer) (pdu : CmcePdu) (dir : CmceDirection) :
    Except Fault (BitBuffer × Nat) := do
  let start := bbPosBits out
  let ((), out) ← (cmceEncoder pdu dir).run out
  return (out, bbPosBits out - start)

def encodeDNwrkBroadcast (p : CmcePdu) : BitM Unit := do
  failUnless (p.nwrkCellLoadCa ≤ 3) .EINVAL
  failUnless (p.nwrkNumCaNeighbourCells ≤ 7) .EINVAL
  putBits (p.nwrkCellReSelectParameters.setWidth 32) 16
  putBits (p.nwrkCellLoadCa.setWidth 32 &&& 3) 2
  putBits (presentBit p.optionalsPresent) 1
  if p.optionalsPresent then do
    putBits (presentBit p.nwrkPTetraNetworkTime) 1
    if p.nwrkPTetraNetworkTime then do
      putBits ((p.nwrkTetraNetworkTime >>> 24).setWidth 32 &&& 0xFFFFFF) 24
      putBits (p.nwrkTetraNetworkTime.setWidth 32 &&& 0xFFFFFF) 24
    else pure ()
    putBits (presentBit p.nwrkPNumCaNeighbourCells) 1
    if p.nwrkPNumCaNeighbourCells then do
      putBits (p.nwrkNumCaNeighbourCells.setWidth 32 &&& 7) 3
      failUnless (p.nwrkNumCaNeighbourCells = 0) .ENOTSUP
    else pure ()
  else pure ()

def cmcePduEncodeDNwrkBroadcast (out : BitBuffer) (pdu : CmcePdu) :
    Except Fault (BitBuffer × Nat) := do
  let start := bbPosBits out
  let ((), out) ← (encodeDNwrkBroadcast pdu).run out
  return (out, bbPosBits out - start)

def getByte (n : Nat) : BitM Byte := do
  let v ← getBits n
  return v.setWidth 8

def getFlag : BitM Bool := do
  let v ← getBits 1
  return v != 0

def getCallIdentifier : BitM (BitVec 16) := do
  let v ← getBits 14
  return v.setWidth 16

def decodeDSetup (p : CmcePdu) (inLenBits : Nat) : BitM CmcePdu := do
  failUnless (41 ≤ inLenBits) .EPROTO
  let callIdentifier ← getCallIdentifier
  let callTimeOut ← getByte 4
  let hook ← getByte 1
  let simplex ← getByte 1
  let service ← getByte 8
  let grant ← getBits 2
  let permission ← getByte 1
  let priority ← getByte 4
  let optionals ← getFlag
  return { p with callIdentifier := callIdentifier, callTimeOut := callTimeOut,
                  hookMethodSelection := hook, simplexDuplexSelection := simplex,
                  basicServiceInformation := service,
                  transmissionGrant := CmceTransmissionGrant.ofValue grant,
                  transmissionRequestPermission := permission, callPriority := priority,
                  optionalsPresent := optionals }

def getRemaining : BitM Nat := do
  let bb ← get
  return bbRemaining bb

def getCalledParty (p : CmcePdu) : BitM CmcePdu :=
  match p.calledPartyTypeIdentifier with
  | .sna => do
    let left ← getRemaining
    failUnless (8 + 1 ≤ left) .EPROTO
    let number ← getByte 8
    return { p with calledPartyShortNumberAddress := number }
  | .ssi | .tsi => do
    let left ← getRemaining
    failUnless (24 + 1 ≤ left) .EPROTO
    let ssi ← getBits 24
    return { p with calledPartyAddressSsi := ssi &&& tetraSsiMask24 }
  | .reserved => pure p

/-- U-SETUP carries no call identifier. -/
def decodeUSetup (p : CmcePdu) (inLenBits : Nat) : BitM CmcePdu := do
  failUnless (30 ≤ inLenBits) .EPROTO
  let area ← getByte 4
  let hook ← getByte 1
  let simplex ← getByte 1
  let service ← getByte 8
  let request ← getByte 1
  let priority ← getByte 4
  let clir ← getByte 2
  let party ← getBits 2
  let p ← getCalledParty
    { p with areaSelection := area, hookMethodSelection := hook,
             simplexDuplexSelection := simplex, basicServiceInformation := service,
             requestToTransmitSendData := request, callPriority := priority,
             clirControl := clir,
             calledPartyTypeIdentifier := CmcePartyType.ofValue party }
  let optionals ← getFlag
  return { p with optionalsPresent := optionals }

def decodeDCallProceeding (p : CmcePdu) (inLenBits : Nat) : BitM CmcePdu := do
  failUnless (25 ≤ inLenBits) .EPROTO
  let callIdentifier ← getCallIdentifier
  let timeOut ← getByte 3
  let hook ← getByte 1
  let simplex ← getByte 1
  let optionals ← getFlag
  return { p with callIdentifier := callIdentifier, callTimeOutSetUpPhase := timeOut,
                  hookMethodSelection := hook, simplexDuplexSelection := simplex,
                  optionalsPresent := optionals }

def decodeDConnect (p : CmcePdu) (inLenBits : Nat) : BitM CmcePdu := do
  failUnless (30 ≤ inLenBits) .EPROTO
  let callIdentifier ← getCallIdentifier
  let timeOut ← getByte 4
  let hook ← getByte 1
  let simplex ← getByte 1
  let grant ← getBits 2
  let permission ← getByte 1
  let ownership ← getByte 1
  let optionals ← getFlag
  return { p with callIdentifier := callIdentifier, callTimeOut := timeOut,
                  hookMethodSelection := hook, simplexDuplexSelection := simplex,
                  transmissionGrant := CmceTransmissionGrant.ofValue grant,
                  transmissionRequestPermission := permission, callOwnership := ownership,
                  optionalsPresent := optionals }

def decodeDTxGranted (p : CmcePdu) (inLenBits : Nat) : BitM CmcePdu := do
  failUnless (25 ≤ inLenBits) .EPROTO
  let callIdentifier ← getCallIdentifier
  let grant ← getBits 2
  let permission ← getByte 1
  let encryption ← getByte 1
  let _ ← getBits 1
  let optionals ← getFlag
  return { p with callIdentifier := callIdentifier,
                  transmissionGrant := CmceTransmissionGrant.ofValue grant,
                  transmissionRequestPermission := permission,
                  encryptionControl := encryption, optionalsPresent := optionals }

def decodeUTxDemand (p : CmcePdu) (inLenBits : Nat) : BitM CmcePdu := do
  failUnless (24 ≤ inLenBits) .EPROTO
  let callIdentifier ← getCallIdentifier
  let priority ← getByte 2
  let encryption ← getByte 1
  let _ ← getBits 1
  let optionals ← getFlag
  return { p with callIdentifier := callIdentifier, txDemandPriority := priority,
                  encryptionControl := encryption, optionalsPresent := optionals }

def decodeRelease (p : CmcePdu) (inLenBits : Nat) : BitM CmcePdu := do
  failUnless (25 ≤ inLenBits) .EPROTO
  let callIdentifier ← getCallIdentifier
  let cause ← getBits 5
  let optionals ← getFlag
  return { p with callIdentifier := callIdentifier, disconnectCause := cause,
                  optionalsPresent := optionals }

/-- The six type codes; everything else is no CMCE PDU. -/
def CmcePduType.ofRaw (raw : Byte) : CmcePduType :=
  match raw.toNat with
  | 7 => .setup
  | 1 => .callProceeding
  | 2 => .connect
  | 10 => .txDemand
  | 11 => .txGranted
  | 6 => .release
  | _ => .unknown

/-- The decoder of a PDU type in a direction. -/
def cmceDecoder (t : CmcePduType) (dir : CmceDirection) (inLenBits : Nat) : BitM CmcePdu :=
  match t, dir with
  | .setup, .downlink => decodeDSetup { pduType := .setup } inLenBits
  | .setup, .uplink => decodeUSetup { pduType := .setup } inLenBits
  | .callProceeding, .downlink => decodeDCallProceeding { pduType := .callProceeding } inLenBits
  | .connect, .downlink => decodeDConnect { pduType := .connect } inLenBits
  | .txDemand, .uplink => decodeUTxDemand { pduType := .txDemand } inLenBits
  | .txGranted, .downlink => decodeDTxGranted { pduType := .txGranted } inLenBits
  | .release, _ => decodeRelease { pduType := .release } inLenBits
  | _, _ => failWith .EPROTO

def decodeCmcePdu (dir : CmceDirection) (inLenBits : Nat) : BitM CmcePdu := do
  failUnless (5 ≤ inLenBits) .EPROTO
  let raw ← getByte 5
  let p ← cmceDecoder (CmcePduType.ofRaw raw) dir inLenBits
  return { p with encodedLenBits := inLenBits }

def cmcePduDecode (input : BitBuffer) (dir : CmceDirection) (inLenBits : Nat) :
    Except Fault (CmcePdu × BitBuffer) := (decodeCmcePdu dir inLenBits).run input

end TetraBs
