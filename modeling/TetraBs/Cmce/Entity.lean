import TetraBs.Cmce.Pdu
import TetraBs.Lib.Slots

/-! The CMCE entity: the call slots of `sw/cmce/cmce_fsm.c` and the upcall path of
`sw/cmce/cmce.c`. -/
namespace TetraBs
open TetraBs.Bits TetraBs.Decoder

/-- The entity with the bus it posts on. -/
structure CmceEnv where
  cmce : Cmce
  bus : Bus

def Cmce.setCall (cmce : Cmce) (i : Fin cmceMaxCalls) (slot : CmceCallSlot) : Cmce :=
  { cmce with calls := Slots.set cmce.calls i slot }

def Cmce.setState (cmce : Cmce) (i : Fin cmceMaxCalls) (state : CmceCallState) : Cmce :=
  cmce.setCall i { cmce.calls i with state := state }

def Cmce.countDrop (cmce : Cmce) : Cmce :=
  { cmce with stats := { cmce.stats with fsmDrops := cmce.stats.fsmDrops + 1 } }

def Cmce.countSetup (cmce : Cmce) : Cmce :=
  { cmce with stats := { cmce.stats with setupCount := cmce.stats.setupCount + 1 } }

def Cmce.countConnect (cmce : Cmce) : Cmce :=
  { cmce with stats := { cmce.stats with connectCount := cmce.stats.connectCount + 1 } }

def Cmce.countTxGrant (cmce : Cmce) : Cmce :=
  { cmce with stats := { cmce.stats with txGrantCount := cmce.stats.txGrantCount + 1 } }

def Cmce.countRelease (cmce : Cmce) : Cmce :=
  { cmce with stats := { cmce.stats with releaseCount := cmce.stats.releaseCount + 1 } }

def Cmce.countRx (cmce : Cmce) : Cmce :=
  { cmce with stats := { cmce.stats with pdusRx := cmce.stats.pdusRx + 1 } }

def Cmce.countTx (cmce : Cmce) : Cmce :=
  { cmce with stats := { cmce.stats with pdusTx := cmce.stats.pdusTx + 1 } }

def Cmce.countUnknown (cmce : Cmce) : Cmce :=
  { cmce with stats := { cmce.stats with unknownPduType := cmce.stats.unknownPduType + 1 } }

/-! Call slots. -/

def cmceCallLookup (cmce : Cmce) (callIdentifier : BitVec 16) : Option (Fin cmceMaxCalls) :=
  Slots.find (fun slot => slot.inUse && slot.callIdentifier == callIdentifier) cmce.calls

def freshCall (callIdentifier : BitVec 16) (peer : TetraAddress) (endpoint : EndpointId) :
    CmceCallSlot :=
  { inUse := true, callIdentifier := callIdentifier, state := .setupPending, peerAddr := peer,
    endpoint := endpoint }

def cmceCallAlloc (cmce : Cmce) (callIdentifier : BitVec 16) (peer : TetraAddress)
    (endpoint : EndpointId) : Option (Fin cmceMaxCalls) × Cmce :=
  match cmceCallLookup cmce callIdentifier with
  | some _ => (none, cmce.countDrop)
  | none =>
    match Slots.find (fun slot => !slot.inUse) cmce.calls with
    | some i => (some i, cmce.setCall i (freshCall callIdentifier peer endpoint))
    | none => (none, cmce)

/-- The slot after a release; peer and endpoint stay. -/
def CmceCallSlot.released (slot : CmceCallSlot) : CmceCallSlot :=
  { slot with inUse := false, state := .idle, callIdentifier := 0, retryCount := 0 }

def cmceCallRelease (cmce : Cmce) (i : Fin cmceMaxCalls) : Cmce :=
  cmce.setCall i (cmce.calls i).released

/-- The event of a PDU for a slot in use. -/
def fsmTransition (cmce : Cmce) (i : Fin cmceMaxCalls) (pdu : CmcePdu) (dir : CmceDirection) :
    Cmce :=
  let state := (cmce.calls i).state
  match pdu.pduType with
  | .setup =>
    match dir with
    | .uplink =>
      -- a drop is counted, but the state is set in any case
      ((if state ≠ .setupPending then cmce.countDrop else cmce).countSetup).setState i
        .setupPending
    | .downlink => (cmce.setState i .setupPending).countSetup
  | .callProceeding =>
    if state = .setupPending then cmce.setState i .proceeding else cmce.countDrop
  | .connect =>
    if state = .proceeding ∨ state = .setupPending then (cmce.setState i .connected).countConnect
    else cmce.countDrop
  | .txDemand =>
    if state = .connected then (cmce.setState i .txGranted).countTxGrant else cmce.countDrop
  | .txGranted =>
    if state = .connected ∨ state = .txGranted then (cmce.setState i .txGranted).countTxGrant
    else cmce.countDrop
  | .release =>
    if state = .releasing then (cmceCallRelease cmce i).countRelease
    else if state ≠ .idle then (cmce.setState i .releasing).countRelease
    else cmce.countDrop
  | _ => cmce.countDrop

/-- `slot` is `none` for a call that has none. -/
def cmceFsmApply (cmce : Cmce) (slot : Option (Fin cmceMaxCalls)) (pdu : CmcePdu)
    (dir : CmceDirection) : CmceCallState × Cmce :=
  match slot with
  | none => (.idle, cmce.countDrop)
  | some i =>
    if (cmce.calls i).inUse = false then (.idle, cmce.countDrop)
    else
      let cmce := fsmTransition cmce i pdu dir
      ((cmce.calls i).state, cmce)

/-! The upcall path. -/

/-- The copy of the body's bytes the decoder works on. -/
def scratchOf (body : List Byte) (nbytes : Nat) : List Byte :=
  (List.range nbytes).map fun i => body.getD i 0

theorem scratchOf_cap (body : List Byte) (n : Nat) : n ≤ 8 * (scratchOf body ((n + 7) / 8)).length := by
  rw [scratchOf, List.length_map, List.length_range]
  omega

def cmcePduFromBody (body : List Byte) (bodyLenBits : Nat) (dir : CmceDirection) :
    Except Fault CmcePdu :=
  if bodyLenBits = 0 then .error (.errno .EINVAL)
  else if cmcePduBodyMaxBytes < (bodyLenBits + 7) / 8 then .error (.errno .EPROTO)
  else (cmcePduDecode (bbInit (scratchOf body ((bodyLenBits + 7) / 8)) bodyLenBits
    (scratchOf_cap body bodyLenBits)) dir bodyLenBits).map Prod.fst

def cmceTleMsg (m : TleSapMsg) : SapMsg Payload :=
  sapmsgInit .environment .tleSap .tmaSap .tleSap (.tle m)

/-- The zeroed buffer a PDU is encoded into. -/
def cmceEncodeBuffer : BitBuffer :=
  bbInitAutoexpand (List.replicate cmcePduBodyMaxBytes 0) (cmcePduBodyMaxBytes * 8)
    (by rw [List.length_replicate]; exact Nat.le_of_eq (Nat.mul_comm _ _))

def encodeForPost (pdu : CmcePdu) (dir : CmceDirection) : Except Fault (BitBuffer × Nat) :=
  if pdu.pduType = .nwrkBroadcast then cmcePduEncodeDNwrkBroadcast cmceEncodeBuffer pdu
  else cmcePduEncode cmceEncodeBuffer pdu dir

/-- The BL-DATA a CMCE PDU travels in. -/
def cmceDownlink (endpoint : EndpointId) (addr : TetraAddress) (bytes : List Byte) (n : Nat) :
    TleSapMsg :=
  { endpoint := endpoint, addr := addr,
    pdu := { pduType := .blData, bodyLenBits := n, body := bytes.take ((n + 7) / 8) } }

def cmcePostTmaUnitdataReq (s : CmceEnv) (endpoint : EndpointId) (addr : TetraAddress)
    (pdu : CmcePdu) (dir : CmceDirection) : CmceEnv × Option Fault :=
  if s.cmce.initialised = false then (s, some (.errno .EINVAL))
  else
    match encodeForPost pdu dir with
    | .error e => (s, some e)
    | .ok (enc, n) =>
      if llcPduBodyMaxBytes * 8 < n then (s, some (.errno .E2BIG))
      else
        match msgbusPost s.bus (sapPrioDefault .tleSap)
            (cmceTleMsg (cmceDownlink endpoint addr enc.buffer n)) with
        | (bus, some e) => ({ s with bus := bus }, some (.errno e))
        | (bus, none) => ({ cmce := s.cmce.countTx, bus := bus }, none)

def callProceedingResp (pdu : CmcePdu) : CmcePdu :=
  { pduType := .callProceeding, callIdentifier := pdu.callIdentifier }

def txGrantedResp (pdu : CmcePdu) : CmcePdu :=
  { pduType := .txGranted, callIdentifier := pdu.callIdentifier, transmissionGrant := .granted,
    transmissionRequestPermission := 1, encryptionControl := pdu.encryptionControl }

def releaseResp (pdu : CmcePdu) : CmcePdu :=
  { pduType := .release, callIdentifier := pdu.callIdentifier, disconnectCause := 0 }

/-- The event of a decoded uplink PDU on the slot found or taken for it, and the response. -/
def cmceHandlePdu (s : CmceEnv) (m : TleSapMsg) (i : Fin cmceMaxCalls) (pdu : CmcePdu) :
    CmceEnv :=
  let s := { s with cmce := (cmceFsmApply s.cmce (some i) pdu .uplink).2 }
  match pdu.pduType with
  | .setup => (cmcePostTmaUnitdataReq s m.endpoint m.addr (callProceedingResp pdu) .downlink).1
  | .txDemand => (cmcePostTmaUnitdataReq s m.endpoint m.addr (txGrantedResp pdu) .downlink).1
  | .release =>
    let s := (cmcePostTmaUnitdataReq s m.endpoint m.addr (releaseResp pdu) .downlink).1
    { s with cmce := (cmceFsmApply s.cmce (some i) (releaseResp pdu) .downlink).2 }
  | _ => s

/-- The PDU of a call without a slot, if it is a U-SETUP. -/
def cmceHandleNewCall (s : CmceEnv) (m : TleSapMsg) (pdu : CmcePdu) : CmceEnv × Option Fault :=
  match cmceCallAlloc s.cmce pdu.callIdentifier m.addr m.endpoint with
  | (some i, cmce) => (cmceHandlePdu { s with cmce := cmce } m i pdu, none)
  | (none, cmce) => ({ s with cmce := cmce.countDrop }, some (.errno .ENOSPC))

def cmceHandleTleMsg (s : CmceEnv) (m : TleSapMsg) : CmceEnv × Option Fault :=
  if s.cmce.initialised = false then (s, some (.errno .EINVAL))
  else
    let s := { s with cmce := s.cmce.countRx }
    match cmcePduFromBody m.pdu.body m.pdu.bodyLenBits .uplink with
    | .error e => ({ s with cmce := s.cmce.countUnknown }, some e)
    | .ok pdu =>
      match cmceCallLookup s.cmce pdu.callIdentifier with
      | some i => (cmceHandlePdu s m i pdu, none)
      | none =>
        if pdu.pduType = .setup then cmceHandleNewCall s m pdu
        else ({ s with cmce := s.cmce.countDrop }, some (.errno .EPROTO))

/-- The filter on the first five bits of a body. -/
def looksCmce (body : List Byte) : Bool :=
  let pt := (body.getD 0 0 >>> 3) &&& 0x1F
  [CmcePduType.setup, .callProceeding, .connect, .txDemand, .txGranted, .release].any fun t =>
    pt == t.value

def onTleUpcall (msg : SapMsg Payload) (s : CmceEnv) : CmceEnv :=
  match msg.payload.data with
  | .tle m =>
    if msg.len < (SapData.tle m).size then s
    else if m.pdu.bodyLenBits < 5 then s
    else if looksCmce m.pdu.body = false then s
    else (cmceHandleTleMsg s m).1
  | _ => s

def nwrkBroadcastPdu (cfg : CmceCfg) : CmcePdu :=
  { pduType := .nwrkBroadcast, nwrkCellReSelectParameters := cfg.cellReSelectParametersSeed,
    nwrkCellLoadCa := cfg.cellLoadCa }

/-- To the broadcast SSI on timeslot 1. -/
def cmceSendDNwrkBroadcast (s : CmceEnv) : CmceEnv × Option Fault :=
  if s.cmce.initialised = false then (s, some (.errno .EINVAL))
  else
    match cmcePostTmaUnitdataReq s 1 { ssi := 0x00FFFFFF, ssiType := .ssi }
        (nwrkBroadcastPdu s.cmce.cfg) .downlink with
    | (s, some e) => (s, some e)
    | (s, none) =>
      ({ s with cmce := { s.cmce with stats :=
          { s.cmce.stats with nwrkBcastCount := s.cmce.stats.nwrkBcastCount + 1 } } }, none)

end TetraBs
