import TetraBs.Core.Sap

/-! The data types of `sw/cmce/include/tetra/cmce.h`. -/
namespace TetraBs
open TetraBs.Bits

inductive CmcePduType where
  | setup | callProceeding | connect | txDemand | txGranted | release | nwrkBroadcast | unknown
deriving DecidableEq, Repr

def CmcePduType.value : CmcePduType → Byte
  | .setup => 7
  | .callProceeding => 1
  | .connect => 2
  | .txDemand => 10
  | .txGranted => 11
  | .release => 6
  | .nwrkBroadcast => 0xFE
  | .unknown => 0xFF

inductive CmceDirection where
  | downlink | uplink
deriving DecidableEq, Repr

inductive CmceTransmissionGrant where
  | granted | notGranted | requestQueued | grantedToOtherUser
deriving DecidableEq, Repr

def CmceTransmissionGrant.value : CmceTransmissionGrant → BitVec 32
  | .granted => 0
  | .notGranted => 1
  | .requestQueued => 2
  | .grantedToOtherUser => 3

/-- The cast of a 2-bit field. -/
def CmceTransmissionGrant.ofValue (v : BitVec 32) : CmceTransmissionGrant :=
  match v.toNat with
  | 0 => .granted
  | 1 => .notGranted
  | 2 => .requestQueued
  | _ => .grantedToOtherUser

inductive CmcePartyType where
  | sna | ssi | tsi | reserved
deriving DecidableEq, Repr

def CmcePartyType.value : CmcePartyType → BitVec 32
  | .sna => 0
  | .ssi => 1
  | .tsi => 2
  | .reserved => 3

/-- The cast of a 2-bit field. -/
def CmcePartyType.ofValue (v : BitVec 32) : CmcePartyType :=
  match v.toNat with
  | 0 => .sna
  | 1 => .ssi
  | 2 => .tsi
  | _ => .reserved

def cmcePduBodyMaxBytes : Nat := 32

/-- Fields not given are zero, as after `memset`; a zero `pdu_type` names no PDU. The disconnect
cause is a plain number on the wire, so it is one here. -/
structure CmcePdu where
  pduType : CmcePduType := .unknown
  callIdentifier : BitVec 16 := 0
  callTimeOut : Byte := 0
  callTimeOutSetUpPhase : Byte := 0
  hookMethodSelection : Byte := 0
  simplexDuplexSelection : Byte := 0
  basicServiceInformation : Byte := 0
  transmissionGrant : CmceTransmissionGrant := .granted
  transmissionRequestPermission : Byte := 0
  callPriority : Byte := 0
  callOwnership : Byte := 0
  areaSelection : Byte := 0
  requestToTransmitSendData : Byte := 0
  clirControl : Byte := 0
  calledPartyTypeIdentifier : CmcePartyType := .sna
  calledPartyAddressSsi : BitVec 32 := 0
  calledPartyShortNumberAddress : Byte := 0
  txDemandPriority : Byte := 0
  encryptionControl : Byte := 0
  disconnectCause : BitVec 32 := 0
  nwrkCellReSelectParameters : BitVec 16 := 0
  nwrkCellLoadCa : Byte := 0
  optionalsPresent : Bool := false
  nwrkPTetraNetworkTime : Bool := false
  nwrkTetraNetworkTime : BitVec 64 := 0
  nwrkPNumCaNeighbourCells : Bool := false
  nwrkNumCaNeighbourCells : Byte := 0
  encodedLenBits : Nat := 0
deriving DecidableEq, Repr

inductive CmceCallState where
  | idle | setupPending | proceeding | connected | txGranted | releasing
deriving DecidableEq, Repr

def cmceMaxCalls : Nat := 8

structure CmceCallSlot where
  inUse : Bool := false
  callIdentifier : BitVec 16 := 0
  state : CmceCallState := .idle
  peerAddr : TetraAddress := {}
  endpoint : EndpointId := 0
  retryCount : Byte := 0
deriving DecidableEq, Repr

structure CmceCfg where
  nwrkBcastPeriodMultiframes : BitVec 16 := 0
  cellReSelectParametersSeed : BitVec 16 := 0
  cellLoadCa : Byte := 0
deriving DecidableEq, Repr

structure CmceStats where
  pdusRx : Nat := 0
  pdusTx : Nat := 0
  setupCount : Nat := 0
  connectCount : Nat := 0
  txGrantCount : Nat := 0
  releaseCount : Nat := 0
  nwrkBcastCount : Nat := 0
  unknownPduType : Nat := 0
  fsmDrops : Nat := 0
deriving DecidableEq, Repr

structure Cmce where
  cfg : CmceCfg := {}
  calls : Fin cmceMaxCalls → CmceCallSlot := fun _ => {}
  stats : CmceStats := {}
  initialised : Bool := false

end TetraBs
