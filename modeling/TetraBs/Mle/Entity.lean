import TetraBs.Core.Sap
import TetraBs.Mm.Iep
import TetraBs.Persistence.DbFile

/-! The MLE of `sw/mle/mle.c` and its registration state machine `sw/mle/mle_fsm.c`. -/
namespace TetraBs
open TetraBs.Bits

inductive MleDisc where
  | reserved0 | mm | cmce | reserved3 | sndcp | mleItself | tmcoSync | reserved7
deriving DecidableEq, Repr

inductive MleState where
  | idle | attachPending | registered | groupAttach | detaching
deriving DecidableEq, Repr

inductive MleEvt where
  | demandReceived | acceptSent | acceptAcked | grpDemandReceived | grpAckSent | detachReceived
  | detachComplete
deriving DecidableEq, Repr

/-- `mle_fsm_step` on the state of a session. -/
def mleFsmStep : MleState → MleEvt → MleState
  | .idle, .demandReceived => .attachPending
  | .attachPending, .acceptSent => .registered
  | .attachPending, .detachReceived => .detaching
  | .registered, .grpDemandReceived => .groupAttach
  | .registered, .detachReceived => .detaching
  | .registered, .demandReceived => .attachPending
  | .groupAttach, .grpAckSent => .registered
  | .groupAttach, .detachReceived => .detaching
  | .detaching, .detachComplete => .idle
  | s, _ => s

structure MleSession where
  inUse : Bool := false
  issi : BitVec 32 := 0
  endpoint : EndpointId := 0
  state : MleState := .idle
  gilaClass : Byte := 0
  gilaLifetime : Byte := 0
  fallbackGssi : BitVec 32 := 0
deriving DecidableEq, Repr

def mleSessionMax : Nat := 16

structure MleCfg where
  acceptUnknown : Bool := false
  defaultProfileId : Byte := 0
  fallbackGssi : BitVec 32 := 0
deriving DecidableEq, Repr

structure MleStats where
  demandsReceived : Nat := 0
  acceptsSent : Nat := 0
  grpDemandsReceived : Nat := 0
  grpAcksSent : Nat := 0
  lookupsFailed : Nat := 0
  fsmTransitions : Nat := 0
deriving DecidableEq, Repr

structure Mle where
  cfg : MleCfg := {}
  sessions : Fin mleSessionMax → MleSession := fun _ => {}
  stats : MleStats := {}
  initialised : Bool := false

/-- The entity with the bus it posts on and the database it shares with MM. -/
structure MleEnv where
  mle : Mle
  bus : Bus
  db : SubscriberDb

def Mle.setSession (mle : Mle) (i : Fin mleSessionMax) (s : MleSession) : Mle :=
  { mle with sessions := fun j => if j = i then s else mle.sessions j }

def mleSessionLookup (mle : Mle) (issi : BitVec 32) : Option (Fin mleSessionMax) :=
  (List.finRange mleSessionMax).find? fun i =>
    (mle.sessions i).inUse && (mle.sessions i).issi == issi &&& tetraSsiMask24

/-- The session a free slot starts out with. -/
def freshSession (cfg : MleCfg) (issi : BitVec 32) : MleSession :=
  { inUse := true, issi := issi &&& tetraSsiMask24, gilaClass := 4, gilaLifetime := 1,
    fallbackGssi := cfg.fallbackGssi }

def mleSessionAlloc (mle : Mle) (issi : BitVec 32) : Option (Fin mleSessionMax) × Mle :=
  match mleSessionLookup mle issi with
  | some i => (some i, mle)
  | none =>
    match (List.finRange mleSessionMax).find? fun i => !(mle.sessions i).inUse with
    | some i => (some i, mle.setSession i (freshSession mle.cfg issi))
    | none => (none, mle)

/-- The valid profile of the entity of an ISSI. -/
def profileOf (db : SubscriberDb) (issi : BitVec 32) : Option Profile :=
  match dbLookupEntity db issi with
  | .error _ => none
  | .ok idx =>
    match dbGetEntity db idx with
    | .error _ => none
    | .ok e =>
      if e.valid = false then none
      else
        match dbGetProfile db e.profileId.toNat with
        | .error _ => none
        | .ok pr => if pr.valid then some pr else none

def refreshSessionFromDb (mle : Mle) (db : SubscriberDb) (i : Fin mleSessionMax) : Mle :=
  match profileOf db (mle.sessions i).issi with
  | none => mle
  | some pr => mle.setSession i
      { mle.sessions i with gilaClass := pr.gilaClass, gilaLifetime := pr.gilaLifetime }

def Mle.countLookupFailed (mle : Mle) : Mle :=
  { mle with stats := { mle.stats with lookupsFailed := mle.stats.lookupsFailed + 1 } }

/-- The first entry that can be read and is not valid. -/
def freeEntity (db : SubscriberDb) : Option (Fin tetraDbEntityCount) :=
  (List.finRange tetraDbEntityCount).find? fun i =>
    match dbGetEntity db i with
    | .error _ => false
    | .ok e => !e.valid

def maybeAutoEnroll (mle : Mle) (db : SubscriberDb) (issi : BitVec 32) :
    Bool × Mle × SubscriberDb :=
  match dbLookupEntity db (issi &&& tetraSsiMask24) with
  | .ok _ => (true, mle, db)
  | .error _ =>
    if mle.cfg.acceptUnknown = false then (false, mle.countLookupFailed, db)
    else
      match freeEntity db with
      | none => (false, mle, db)
      | some i =>
        -- a refused put still counts as enrolled
        match dbPutEntity db i { entityId := issi &&& tetraSsiMask24,
                                 profileId := mle.cfg.defaultProfileId, valid := true } with
        | .ok db' => (true, mle, db')
        | .error _ => (true, mle, db)

def MleDisc.ofValue (v : Byte) : MleDisc :=
  match v.toNat with
  | 0 => .reserved0
  | 1 => .mm
  | 2 => .cmce
  | 3 => .reserved3
  | 4 => .sndcp
  | 5 => .mleItself
  | 6 => .tmcoSync
  | _ => .reserved7

/-- The discriminator, and the body behind it with its length. -/
def stripMlePd (pdu : LlcPdu) (outCapBits : Nat) : Except Errno (MleDisc × List Byte × Nat) :=
  if pdu.bodyLenBits < 3 then .error .EPROTO
  else if outCapBits < pdu.bodyLenBits - 3 then .error .ENOSPC
  else .ok (MleDisc.ofValue ((pdu.body.getD 0 0 >>> 5) &&& 7),
    orBits pdu.body 3 (List.replicate ((outCapBits + 7) / 8) 0) 0 (pdu.bodyLenBits - 3),
    pdu.bodyLenBits - 3)

def mleRequestMsg (pl : TlaSapPayload) : SapMsg Payload :=
  sapmsgInit .mle .tleSap .tmaSap .tlmcSap (.tla pl)

def forwardMmRequest (s : MleEnv) (endpoint : EndpointId) (addr : TetraAddress)
    (decoded : MmDecoded) : MleEnv × Option Errno :=
  let pl : TlaSapPayload :=
    { endpoint := endpoint, addr := addr, decoded := decoded,
      isAttach := decoded.locationUpdateType == .itsiAttach ||
        decoded.pduType == .uAttachDetachGroupIdentity }
  let (bus, rc) := msgbusPost s.bus (sapPrioDefault .tlmcSap) (mleRequestMsg pl)
  ({ s with bus := bus }, rc)

/-- Feed an event to a session. -/
def Mle.feed (mle : Mle) (i : Fin mleSessionMax) (e : MleEvt) : Mle :=
  let mle := mle.setSession i
    { mle.sessions i with state := mleFsmStep (mle.sessions i).state e }
  { mle with stats := { mle.stats with fsmTransitions := mle.stats.fsmTransitions + 1 } }

def Mle.countDemand (mle : Mle) : Mle :=
  { mle with stats := { mle.stats with demandsReceived := mle.stats.demandsReceived + 1 } }

def Mle.countGrpDemand (mle : Mle) : Mle :=
  { mle with stats := { mle.stats with grpDemandsReceived := mle.stats.grpDemandsReceived + 1 } }

def Mle.countAccept (mle : Mle) : Mle :=
  { mle with stats := { mle.stats with acceptsSent := mle.stats.acceptsSent + 1 } }

def Mle.countGrpAck (mle : Mle) : Mle :=
  { mle with stats := { mle.stats with grpAcksSent := mle.stats.grpAcksSent + 1 } }

def handleMmPdu (s : MleEnv) (m : TleSapMsg) (body : List Byte) (bodyBits : Nat) :
    MleEnv × Option Errno :=
  match mmIepDecode body bodyBits with
  | .error e => (s, some e)
  | .ok decoded =>
    match mleSessionAlloc s.mle m.addr.ssi with
    | (none, mle) => ({ s with mle := mle }, some .ENOSPC)
    | (some i, mle) =>
      let mle := mle.setSession i { mle.sessions i with endpoint := m.endpoint }
      let (_, mle, db) := maybeAutoEnroll mle s.db m.addr.ssi
      let mle := refreshSessionFromDb mle db i
      match decoded.pduType with
      | .uLocationUpdateDemand =>
        forwardMmRequest ⟨mle.countDemand.feed i .demandReceived, s.bus, db⟩ m.endpoint m.addr
          decoded
      | .uAttachDetachGroupIdentity =>
        forwardMmRequest ⟨mle.countGrpDemand.feed i .grpDemandReceived, s.bus, db⟩ m.endpoint
          m.addr decoded
      | .uItsiDetach =>
        forwardMmRequest ⟨mle.feed i .detachReceived, s.bus, db⟩ m.endpoint m.addr decoded
      | _ => (⟨mle, s.bus, db⟩, none)

/-- PDUs of the MLE itself are not looked at yet. -/
def handleMleItself (s : MleEnv) : MleEnv × Option Errno := (s, none)

def mleHandleTleMsg (s : MleEnv) (m : TleSapMsg) : MleEnv × Option Errno :=
  if s.mle.initialised = false then (s, some .EINVAL)
  else
    match stripMlePd m.pdu (llcPduBodyMaxBytes * 8) with
    | .error e => (s, some e)
    | .ok (disc, body, bits) =>
      match disc with
      | .mm => handleMmPdu s m body bits
      | .mleItself => handleMleItself s
      | _ => (s, none)

def mleHandleTlaMsg (s : MleEnv) (m : TlaSapPayload) : MleEnv × Option Errno :=
  if s.mle.initialised = false then (s, some .EINVAL)
  else
    match mleSessionLookup s.mle m.addr.ssi with
    | none => (s, some .ENOENT)
    | some i =>
      match m.decoded.pduType with
      | .uLocationUpdateDemand => ({ s with mle := (s.mle.feed i .acceptSent).countAccept }, none)
      | .uAttachDetachGroupIdentity =>
        ({ s with mle := (s.mle.feed i .grpAckSent).countGrpAck }, none)
      | .uItsiDetach => ({ s with mle := s.mle.feed i .detachComplete }, none)
      | _ => (s, none)

def onTleMsg (msg : SapMsg Payload) (s : MleEnv) : MleEnv :=
  match msg.payload.data with
  | .tle m => if msg.len < (SapData.tle m).size then s else (mleHandleTleMsg s m).1
  | _ => s

def onTlaMsg (msg : SapMsg Payload) (s : MleEnv) : MleEnv :=
  match msg.payload.data with
  | .tla m => if msg.len < (SapData.tla m).size then s else (mleHandleTlaMsg s m).1
  | _ => s

def mleInit (bus : Bus) (cfg : MleCfg) : Except Errno (Mle × Bus) := do
  let bus ← msgbusRegister bus .tmaSap .tleSap .onTleMsg
  let bus ← msgbusRegister bus .tmaSap .tnmmSap .onTlaMsg
  return ({ cfg := cfg, initialised := true }, bus)

end TetraBs
