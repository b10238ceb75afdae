import TetraBs.Core.Sap

/-! The LLC entity of `sw/llc/llc.c`: endpoint table, transmit paths and receive path. -/
namespace TetraBs
open TetraBs.Bits

/-- `nsSend` and `nrExpected` are the one-bit counters N(S) and N(R). -/
structure LlcEndpoint where
  id : EndpointId := 0
  inUse : Bool := false
  nsSend : Bool := false
  nrExpected : Bool := false
  awaitingAck : Bool := false
  retxCount : Byte := 0
  lastSent : LlcPdu := {}
deriving DecidableEq, Repr

structure LlcStats where
  pdusRx : Nat := 0
  pdusTx : Nat := 0
  fcsFailures : Nat := 0
  unknownPduType : Nat := 0
deriving DecidableEq, Repr

def llcMaxEndpoints : Nat := 8

structure Llc where
  endpoints : Fin llcMaxEndpoints → LlcEndpoint := fun _ => {}
  stats : LlcStats := {}
  initialised : Bool := false

/-- The entity with the bus it posts on and the process-wide request handle counter. -/
structure LlcEnv where
  llc : Llc
  bus : Bus
  reqHandle : BitVec 32

/-- A one-bit counter as the `uint8_t` the code stores. -/
def seqByte (b : Bool) : Byte := if b then 1 else 0

def Llc.setEndpoint (llc : Llc) (i : Fin llcMaxEndpoints) (ep : LlcEndpoint) : Llc :=
  { llc with endpoints := fun j => if j = i then ep else llc.endpoints j }

def endpointFind (llc : Llc) (id : EndpointId) : Option (Fin llcMaxEndpoints) :=
  (List.finRange llcMaxEndpoints).find? fun i =>
    (llc.endpoints i).inUse && (llc.endpoints i).id == id

/-- The first free slot, and the table with that slot taken. -/
def endpointAlloc (llc : Llc) (id : EndpointId) : Option (Fin llcMaxEndpoints) × Llc :=
  match (List.finRange llcMaxEndpoints).find? fun i => !(llc.endpoints i).inUse with
  | some i => (some i, llc.setEndpoint i { id := id, inUse := true })
  | none => (none, llc)

def llcEndpointLookup (llc : Llc) (id : EndpointId) : Option (Fin llcMaxEndpoints) × Llc :=
  match endpointFind llc id with
  | some i => (some i, llc)
  | none => endpointAlloc llc id

/-- The stack buffer starts out as zeros here; bits past the PDU are never read. -/
def encodeToBytes (pdu : LlcPdu) (bufCapBytes : Nat) : Except Fault (List Byte × Nat) := do
  let (bb, n) ← llcPduEncode (bbInitAutoexpand (List.replicate bufCapBytes 0) (bufCapBytes * 8)
    (by rw [List.length_replicate, Nat.mul_comm])) pdu
  return (bb.buffer, n)

/-- Monotonic, skips 0. The handle returned is the new value of the counter. -/
def reqHandleNext (counter : BitVec 32) : BitVec 32 :=
  let h := counter + 1
  if h = 0 then h + 1 else h

/-- How far an attempt to send a PDU got. -/
inductive EmitResult where
  | notEncoded (f : Fault)
  | tooLong
  | posted (rc : Option Errno)
deriving DecidableEq, Repr

def tmaUnitdataReq (req : TmaUnitdata) : SapMsg Payload :=
  sapmsgInit .llc .tleSap .tmaSap .tmaSap (.tmaUnitdata req)

/-- The part all three transmit paths share: encode, wrap in a `TmaUnitdataReq`, post. -/
def emitPdu (bus : Bus) (reqHandle : BitVec 32) (endpoint : EndpointId) (addr : TetraAddress)
    (pdu : LlcPdu) (bufCapBytes : Nat) : Bus × BitVec 32 × EmitResult :=
  match encodeToBytes pdu bufCapBytes with
  | .error f => (bus, reqHandle, .notEncoded f)
  | .ok (bytes, bits) =>
    let h := reqHandleNext reqHandle
    if tmaSduMaxBytes * 8 < bits then (bus, h, .tooLong)
    else
      let req : TmaUnitdata := ⟨endpoint, addr, h, bits, bytes.take ((bits + 7) / 8)⟩
      let (bus, rc) := msgbusPost bus (sapPrioDefault .tmaSap) (tmaUnitdataReq req)
      (bus, h, .posted rc)

def isBlData : LlcPduType → Bool
  | .blData | .blDataFcs | .blAdata | .blAdataFcs => true
  | _ => false

def isBlAck : LlcPduType → Bool
  | .blAck | .blAckFcs => true
  | _ => false

/-- What a sent BL-DATA or BL-ADATA leaves in its endpoint. -/
def LlcEndpoint.commit (ep : LlcEndpoint) (pdu : LlcPdu) : LlcEndpoint :=
  { ep with lastSent := pdu, awaitingAck := true, retxCount := 0, nsSend := !ep.nsSend }

def Llc.countTx (llc : Llc) : Llc :=
  { llc with stats := { llc.stats with pdusTx := llc.stats.pdusTx + 1 } }

/-- N(S) and N(R) as `on_tle_msg_from_mle` stamps them. -/
def stampPdu (ep : LlcEndpoint) (pdu : LlcPdu) : LlcPdu :=
  { pdu with ns := if llcPduTypeHasNs pdu.pduType then seqByte ep.nsSend else pdu.ns,
             nr := if llcPduTypeHasNr pdu.pduType then seqByte ep.nrExpected else pdu.nr }

def handleTleFromMle (s : LlcEnv) (m : TleSapMsg) : LlcEnv :=
  if s.llc.initialised = false then s
  else
    match llcEndpointLookup s.llc m.endpoint with
    | (none, llc) => { s with llc := llc }
    | (some i, llc) =>
      let ep := llc.endpoints i
      let pdu := stampPdu ep m.pdu
      match emitPdu s.bus s.reqHandle m.endpoint m.addr pdu (llcPduBodyMaxBytes + 8) with
      | (bus, h, .posted rc) =>
        let llc := if rc = none then llc.countTx else llc
        -- the endpoint is updated whether or not the post went through
        let llc := if isBlData pdu.pduType then llc.setEndpoint i (ep.commit pdu) else llc
        ⟨llc, bus, h⟩
      | (bus, h, _) => ⟨llc, bus, h⟩

def onTleMsgFromMle (msg : SapMsg Payload) (s : LlcEnv) : LlcEnv :=
  match msg.payload.data with
  | .tle m => if msg.len < (SapData.tle m).size then s else handleTleFromMle s m
  | _ => s

def llcSendBlData (s : LlcEnv) (endpoint : EndpointId) (addr : TetraAddress) (body : List Byte)
    (bodyLenBits : Nat) : LlcEnv × Option Fault :=
  if llcPduBodyMaxBytes * 8 < bodyLenBits then (s, some (.errno .EINVAL))
  else
    match llcEndpointLookup s.llc endpoint with
    | (none, llc) => ({ s with llc := llc }, some (.errno .ENOSPC))
    | (some i, llc) =>
      let ep := llc.endpoints i
      if ep.awaitingAck then ({ s with llc := llc }, some (.errno .EBUSY))
      else
        let pdu : LlcPdu :=
          { pduType := .blData, ns := seqByte ep.nsSend, bodyLenBits := bodyLenBits,
            body := body.take ((bodyLenBits + 7) / 8) }
        match emitPdu s.bus s.reqHandle endpoint addr pdu (llcPduBodyMaxBytes + 8) with
        | (bus, h, .posted none) => (⟨(llc.setEndpoint i (ep.commit pdu)).countTx, bus, h⟩, none)
        | (bus, h, .posted (some e)) => (⟨llc, bus, h⟩, some (.errno e))
        | (bus, h, .tooLong) => (⟨llc, bus, h⟩, some (.errno .E2BIG))
        | (bus, h, .notEncoded f) => (⟨llc, bus, h⟩, some f)

def llcSendBlAck (s : LlcEnv) (endpoint : EndpointId) (addr : TetraAddress) :
    LlcEnv × Option Fault :=
  match llcEndpointLookup s.llc endpoint with
  | (none, llc) => ({ s with llc := llc }, some (.errno .ENOSPC))
  | (some i, llc) =>
    let pdu : LlcPdu := { pduType := .blAck, nr := seqByte (llc.endpoints i).nrExpected }
    match emitPdu s.bus s.reqHandle endpoint addr pdu 8 with
    | (bus, h, .posted none) => (⟨llc.countTx, bus, h⟩, none)
    | (bus, h, .posted (some e)) => (⟨llc, bus, h⟩, some (.errno e))
    | (bus, h, .tooLong) => (⟨llc, bus, h⟩, some (.errno .E2BIG))
    | (bus, h, .notEncoded f) => (⟨llc, bus, h⟩, some f)

def tleSapMsgUp (m : TleSapMsg) : SapMsg Payload :=
  sapmsgInit .llc .tmaSap .tleSap .tleSap (.tle m)

def llcPostToMle (s : LlcEnv) (m : TleSapMsg) : LlcEnv × Option Errno :=
  let (bus, rc) := msgbusPost s.bus (sapPrioDefault .tleSap) (tleSapMsgUp m)
  ({ s with bus := bus }, rc)

/-- The first `n` bytes, with zeros where the source has fewer. -/
def padTo (n : Nat) (bytes : List Byte) : List Byte := (bytes ++ List.replicate n 0).take n

theorem padTo_length (n : Nat) (bytes : List Byte) : (padTo n bytes).length = n := by
  simp [padTo]

inductive SduFault where
  | unknownPduType
  | fault (f : Fault)
deriving DecidableEq, Repr

/-- Overhead bits of a type: type field, N(R), N(S), FCS. -/
def sduOverhead (t : LlcPduType) : Nat :=
  if t = .alSetup then 4
  else 4 + (llcPduTypeHasNr t).toNat + (llcPduTypeHasNs t).toNat +
    (if llcPduTypeHasFcs t then 32 else 0)

/-- Peek at the type, work out the body length from the SDU length, decode from the start. -/
def llcParseBuffer (bb : BitBuffer) (sduLenBits : Nat) : Except SduFault LlcPdu :=
  if bbRemaining bb < 4 then .error (.fault (.errno .EPROTO))
  else
    match bbGetBits bb 4 with
    | .error f => .error (.fault f)
    | .ok (rawType, bb) =>
      if llcPduTypeIsValid (rawType.setWidth 8) = false then .error .unknownPduType
      else
        let t := LlcPduType.ofValue (rawType.setWidth 8)
        if sduLenBits < sduOverhead t then .error (.fault (.errno .EPROTO))
        else
          let bodyBits := if t = .alSetup then 0 else sduLenBits - sduOverhead t
          if llcPduBodyMaxBytes * 8 < bodyBits then .error (.fault (.errno .EPROTO))
          else
            match bbSeekBits bb 0 with
            | .error f => .error (.fault f)
            | .ok bb =>
              match llcPduDecode bb { bodyLenBits := bodyBits } with
              | .error f => .error (.fault f)
              | .ok (pdu, _) => .ok pdu

/-- The buffer the SDU is copied to before parsing. -/
def sduBuffer (ind : TmaUnitdata) : List Byte :=
  padTo tmaSduMaxBytes (ind.sduBits.take ((ind.sduLenBits + 7) / 8))

theorem le_sduBuffer {ind : TmaUnitdata} (h : ind.sduLenBits ≤ tmaSduMaxBytes * 8) :
    ind.sduLenBits ≤ 8 * (sduBuffer ind).length := by
  rwa [sduBuffer, padTo_length, Nat.mul_comm]

/-- `llc_handle_tma_unitdata_ind` up to the decoded PDU. -/
def llcParseSdu (ind : TmaUnitdata) : Except SduFault LlcPdu :=
  if ind.sduLenBits = 0 then .error (.fault (.errno .EINVAL))
  else if h : ind.sduLenBits ≤ tmaSduMaxBytes * 8 then
    llcParseBuffer (bbInit (sduBuffer ind) ind.sduLenBits (le_sduBuffer h)) ind.sduLenBits
  else .error (.fault (.errno .EINVAL))

def Llc.countRx (llc : Llc) : Llc :=
  { llc with stats := { llc.stats with pdusRx := llc.stats.pdusRx + 1 } }

def Llc.countFcsFailure (llc : Llc) : Llc :=
  { llc with stats := { llc.stats with fcsFailures := llc.stats.fcsFailures + 1 } }

def Llc.countUnknown (llc : Llc) : Llc :=
  { llc with stats := { llc.stats with unknownPduType := llc.stats.unknownPduType + 1 } }

/-- The receive state machine, on a decoded PDU with a good FCS. -/
def llcReceivePdu (s : LlcEnv) (ind : TmaUnitdata) (pdu : LlcPdu) : LlcEnv × Option Fault :=
  match llcEndpointLookup s.llc ind.endpoint with
  | (none, llc) => ({ s with llc := llc }, some (.errno .ENOSPC))
  | (some i, llc) =>
    let ep := llc.endpoints i
    if isBlData pdu.pduType then
      if pdu.ns = seqByte ep.nrExpected then
        let llc := llc.setEndpoint i { ep with nrExpected := !ep.nrExpected }
        let (s, _) := llcPostToMle { s with llc := llc } ⟨ind.endpoint, ind.addr, pdu⟩
        let (s, _) := llcSendBlAck s ind.endpoint ind.addr
        (s, none)
      else
        let (s, _) := llcSendBlAck { s with llc := llc } ind.endpoint ind.addr
        (s, none)
    else if isBlAck pdu.pduType then
      if ep.awaitingAck ∧ pdu.nr = seqByte ep.nsSend then
        ({ s with llc := llc.setEndpoint i { ep with awaitingAck := false, retxCount := 0 } }, none)
      else ({ s with llc := llc }, none)
    else
      let (s, _) := llcPostToMle { s with llc := llc } ⟨ind.endpoint, ind.addr, pdu⟩
      (s, none)

def llcHandleTmaUnitdataInd (s : LlcEnv) (ind : TmaUnitdata) : LlcEnv × Option Fault :=
  match llcParseSdu ind with
  | .error .unknownPduType => ({ s with llc := s.llc.countUnknown }, some (.errno .EPROTO))
  | .error (.fault f) => (s, some f)
  | .ok pdu =>
    let s := { s with llc := s.llc.countRx }
    if llcPduTypeHasFcs pdu.pduType ∧ pdu.fcsValid = false then
      ({ s with llc := s.llc.countFcsFailure }, none)
    else llcReceivePdu s ind pdu

def onTmaUnitdataInd (msg : SapMsg Payload) (s : LlcEnv) : LlcEnv :=
  match msg.payload.data with
  | .tmaUnitdata ind =>
    if msg.len < (SapData.tmaUnitdata ind).size then s else (llcHandleTmaUnitdataInd s ind).1
  | _ => s

/-- `llc_init`: clear the entity and register its two callbacks. -/
def llcInit (bus : Bus) : Except Errno (Llc × Bus) := do
  let bus ← msgbusRegister bus .tmaSap .tmaSap .onTmaUnitdataInd
  let bus ← msgbusRegister bus .tmaSap .tleSap .onTleMsgFromMle
  return ({ initialised := true }, bus)

end TetraBs
