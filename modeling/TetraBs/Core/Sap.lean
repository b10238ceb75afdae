import TetraBs.Core.MsgBus
import TetraBs.Llc.Pdu
import TetraBs.Mm.Types

/-! The messages the daemon's entities exchange over the bus. -/
namespace TetraBs
open TetraBs.Bits

inductive SsiType where
  | unknown | ssi | issi | gssi | ussi | smi | esi | eventLabel
deriving DecidableEq, Repr

structure TetraAddress where
  ssi : BitVec 32 := 0
  ssiType : SsiType := .unknown
deriving DecidableEq, Repr

abbrev EndpointId := BitVec 32

def tmaSduMaxBytes : Nat := 64

/-- `TmaUnitdataInd`, and under its other name `TmaUnitdataReq`. -/
structure TmaUnitdata where
  endpoint : EndpointId
  addr : TetraAddress
  reqHandle : BitVec 32
  sduLenBits : Nat
  sduBits : List Byte
deriving DecidableEq, Repr

structure TleSapMsg where
  endpoint : EndpointId
  addr : TetraAddress
  pdu : LlcPdu
deriving DecidableEq, Repr

structure TlaSapPayload where
  endpoint : EndpointId
  addr : TetraAddress
  decoded : MmDecoded
  isAttach : Bool
deriving DecidableEq, Repr

inductive SapData where
  | none
  | tmaUnitdata (m : TmaUnitdata)
  | tle (m : TleSapMsg)
  | tla (m : TlaSapPayload)
deriving DecidableEq, Repr

/-- Who posted a message. The code does not record this and no handler reads it. -/
inductive Poster where
  | llc | mle | mm | environment
deriving DecidableEq, Repr

structure Payload where
  poster : Poster
  data : SapData
deriving DecidableEq, Repr

instance : Inhabited Payload := ⟨⟨.environment, .none⟩⟩

/-- The callbacks the daemon's entities register. -/
inductive Handler where
  | onTmaUnitdataInd | onTleMsgFromMle | onTleMsg | onTlaMsg | onMmRequest
deriving DecidableEq, Repr

abbrev Bus := MsgBus Payload Handler

/-- `BUS_QUEUE_CAP_PER_PRIO`, 32, is a capacity the bus accepts. -/
theorem busQueueCapPerPrio_pos : 0 < 32 := by decide

/-- `sizeof` of the payload structs. -/
def SapData.size : SapData → Nat
  | .none => 0
  | .tmaUnitdata _ => 84
  | .tle _ => 60
  | .tla _ => 204

def sapmsgInit (poster : Poster) (src dest sap : SapId) (data : SapData) : SapMsg Payload :=
  ⟨src, dest, sap, data.size, ⟨poster, data⟩⟩

/-- The bits of the TM-SDU. -/
def TmaUnitdata.bits (m : TmaUnitdata) : List Bool := window m.sduBits 0 m.sduLenBits

end TetraBs
