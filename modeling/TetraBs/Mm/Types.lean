import TetraBs.Lib.Bits

/-! The data types of `sw/mm/include/tetra/mm.h`. -/
namespace TetraBs
open TetraBs.Bits

def tetraSsiMask24 : BitVec 32 := 0x00FFFFFF

inductive MmPduTypeUl where
  | dOtarCmac | authenticationDemand | uLocationUpdateDemand | uMmStatus | uCkChangeDemand
  | uDisableStatus | uItsiDetach | uAttachDetachGroupIdentity | functionNotSupported
deriving DecidableEq, Repr

inductive LocationUpdateType where
  | roamingLocation | temporaryRegistration | periodicLocation | itsiAttach | callRestoration
  | migratingLocation | demandedLocation | disabled
deriving DecidableEq, Repr

inductive EnergySavingMode where
  | stayAlive | energyEconomy1 | energyEconomy2 | energyEconomy3 | energyEconomy4
  | energyEconomy5 | energyEconomy6 | energyEconomy7
deriving DecidableEq, Repr

/-- Fields not given are zero, as after `memset`. -/
structure MmGroupIdentityUplink where
  isAttach : Bool := false
  classOfUsage : Byte := 0
  detachment : Byte := 0
  addressType : Byte := 0
  gssi : BitVec 32 := 0
  addressExtension : BitVec 32 := 0
  vgssi : BitVec 32 := 0
deriving DecidableEq, Repr

def mmGiuMax : Nat := 4

/-- `giu` lists the entries of the array that were filled in. -/
structure MmGild where
  attachDetachMode : Byte := 0
  numGiu : Nat := 0
  giu : List MmGroupIdentityUplink := []
deriving DecidableEq, Repr

structure MmDecoded where
  pduType : MmPduTypeUl := .dOtarCmac
  locationUpdateType : LocationUpdateType := .roamingLocation
  requestToAppendLa : Bool := false
  cipherControl : Bool := false
  classOfMsPresent : Bool := false
  classOfMs : BitVec 32 := 0
  energySavingModePresent : Bool := false
  energySavingMode : EnergySavingMode := .stayAlive
  laInformationPresent : Bool := false
  laInformation : BitVec 32 := 0
  ssiPresent : Bool := false
  ssi : BitVec 32 := 0
  addressExtensionPresent : Bool := false
  addressExtension : BitVec 32 := 0
  gildPresent : Bool := false
  gild : MmGild := {}
  groupIdentityReport : Bool := false
  attachDetachMode : Byte := 0
  numGiu : Nat := 0
  giu : List MmGroupIdentityUplink := []
deriving DecidableEq, Repr

structure MmGroupIdentityAttachment where
  lifetime : Byte := 0
  classOfUsage : Byte := 0
deriving DecidableEq, Repr

structure MmGroupIdentityDownlink where
  isAttach : Bool := false
  attach : MmGroupIdentityAttachment := {}
  detachmentType : Byte := 0
  addressType : Byte := 0
  gssi : BitVec 32 := 0
  addressExtension : BitVec 32 := 0
  vgssi : BitVec 32 := 0
deriving DecidableEq, Repr

def mmGidMax : Nat := 4

structure MmAcceptParams where
  acceptType : LocationUpdateType := .roamingLocation
  energySavingInfoPresent : Bool := false
  energySavingMode : EnergySavingMode := .stayAlive
  energySavingFrameNumber : Byte := 0
  energySavingMultiframe : Byte := 0
  gilaPresent : Bool := false
  gilaAcceptReject : Byte := 0
  numGid : Nat := 0
  gid : List MmGroupIdentityDownlink := []
deriving DecidableEq, Repr

structure MmGrpAckParams where
  acceptReject : Byte := 0
  gidDownlinkPresent : Bool := false
  numGid : Nat := 0
  gid : List MmGroupIdentityDownlink := []
deriving DecidableEq, Repr

def LocationUpdateType.value : LocationUpdateType → BitVec 3
  | .roamingLocation => 0
  | .temporaryRegistration => 1
  | .periodicLocation => 2
  | .itsiAttach => 3
  | .callRestoration => 4
  | .migratingLocation => 5
  | .demandedLocation => 6
  | .disabled => 7

def LocationUpdateType.ofValue (v : BitVec 3) : LocationUpdateType :=
  match v.toNat with
  | 0 => .roamingLocation
  | 1 => .temporaryRegistration
  | 2 => .periodicLocation
  | 3 => .itsiAttach
  | 4 => .callRestoration
  | 5 => .migratingLocation
  | 6 => .demandedLocation
  | _ => .disabled

def EnergySavingMode.value : EnergySavingMode → BitVec 3
  | .stayAlive => 0
  | .energyEconomy1 => 1
  | .energyEconomy2 => 2
  | .energyEconomy3 => 3
  | .energyEconomy4 => 4
  | .energyEconomy5 => 5
  | .energyEconomy6 => 6
  | .energyEconomy7 => 7

def EnergySavingMode.ofValue (v : BitVec 3) : EnergySavingMode :=
  match v.toNat with
  | 0 => .stayAlive
  | 1 => .energyEconomy1
  | 2 => .energyEconomy2
  | 3 => .energyEconomy3
  | 4 => .energyEconomy4
  | 5 => .energyEconomy5
  | 6 => .energyEconomy6
  | _ => .energyEconomy7

end TetraBs
