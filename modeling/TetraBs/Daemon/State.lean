import TetraBs.Lib.Run
import TetraBs.Llc.Ops
import TetraBs.Mm.Spec

/-! The entities that `sw/tetra_d.c` starts, on one bus. -/
namespace TetraBs
open TetraBs.Bits TetraBs.Run

/-- What is recorded of a run. No handler sees it. -/
inductive Event where
  /-- `llc_handle_tma_unitdata_ind` took this body in sequence -/
  | accepted (m : TleSapMsg)
  /-- `mle_handle_tle_msg` was called with this message, not over the bus -/
  | arrived (m : TleSapMsg)
  /-- a dispatch called this callback -/
  | handled (cb : Handler) (msg : SapMsg Payload)
  /-- a handler added this message to the Normal bucket -/
  | posted (msg : SapMsg Payload)
deriving DecidableEq

structure Daemon where
  llc : Llc := {}
  mle : Mle := {}
  mm : Mm := {}
  db : SubscriberDb := {}
  reqHandle : BitVec 32 := 0
  bus : Bus
  trace : List Event := []

def Daemon.llcEnv (d : Daemon) : LlcEnv := ⟨d.llc, d.bus, d.reqHandle⟩

def Daemon.mleEnv (d : Daemon) : MleEnv := ⟨d.mle, d.bus, d.db⟩

def Daemon.mmEnv (d : Daemon) : MmEnv := ⟨d.mm, d.bus, d.db⟩

def Daemon.setLlc (d : Daemon) (s : LlcEnv) : Daemon :=
  { d with llc := s.llc, bus := s.bus, reqHandle := s.reqHandle }

def Daemon.setMle (d : Daemon) (s : MleEnv) : Daemon :=
  { d with mle := s.mle, bus := s.bus, db := s.db }

def Daemon.setMm (d : Daemon) (s : MmEnv) : Daemon := { d with mm := s.mm, bus := s.bus, db := s.db }

/-- The messages added to the Normal bucket between `b` and `b'`. -/
def added (b b' : Bus) : List (SapMsg Payload) :=
  (b'.pending .normal).drop (b.pending .normal).length

/-- `d'`, reached from `d`, with what happened on the way. -/
def Daemon.record (d : Daemon) (es : List Event) (d' : Daemon) : Daemon :=
  { d' with trace := d.trace ++ es ++ (added d.bus d'.bus).map Event.posted }

/-- The body `llc_handle_tma_unitdata_ind` takes in sequence from `ind`. -/
def acceptedBody (llc : Llc) (ind : TmaUnitdata) : Option TleSapMsg :=
  (goodPdu ind).bind fun pdu =>
    match llcEndpointLookup llc ind.endpoint with
    | (none, _) => none
    | (some i, llc) =>
      if isBlData pdu.pduType ∧ pdu.ns = seqByte (llc.endpoints i).nrExpected then
        some ⟨ind.endpoint, ind.addr, pdu⟩
      else none

def acceptedEvents (llc : Llc) (ind : TmaUnitdata) : List Event :=
  ((acceptedBody llc ind).map Event.accepted).toList

/-- A callback on the state it was registered with. -/
def Daemon.callback (d : Daemon) (cb : Handler) (msg : SapMsg Payload) : Daemon :=
  match cb with
  | .onTmaUnitdataInd => d.setLlc (onTmaUnitdataInd msg d.llcEnv)
  | .onTleMsgFromMle => d.setLlc (onTleMsgFromMle msg d.llcEnv)
  | .onTleMsg => d.setMle (onTleMsg msg d.mleEnv)
  | .onTlaMsg => d.setMle (onTlaMsg msg d.mleEnv)
  | .onMmRequest => d.setMm (onMmRequest msg d.mmEnv)

def Daemon.callbackEvents (d : Daemon) (cb : Handler) (msg : SapMsg Payload) : List Event :=
  .handled cb msg ::
    (if cb = .onTmaUnitdataInd then (indOf msg).elim [] (acceptedEvents d.llc) else [])

def Daemon.call (d : Daemon) (cb : Handler) (msg : SapMsg Payload) : Daemon :=
  d.record (d.callbackEvents cb msg) (d.callback cb msg)

instance : BusHost Daemon Payload Handler where
  bus d := d.bus
  setBus d bus := { d with bus := bus }
  call cb msg d := d.call cb msg

/-- `llc_handle_tma_unitdata_ind`, called from the receive loop. -/
def Daemon.inject (d : Daemon) (ind : TmaUnitdata) : Daemon :=
  d.record (acceptedEvents d.llc ind) (d.setLlc (llcHandleTmaUnitdataInd d.llcEnv ind).1)

/-- `mle_handle_tle_msg`, called directly. -/
def Daemon.receive (d : Daemon) (m : TleSapMsg) : Daemon :=
  d.record [.arrived m] (d.setMle (mleHandleTleMsg d.mleEnv m).1)

def Daemon.dispatch (d : Daemon) : Daemon := (msgbusDispatchOne d).1

/-! What a step leaves on the bus and in the record. -/

theorem added_eq {b b' : Bus} {h n : List (SapMsg Payload)} (hp : Posts b b' h n) :
    added b b' = n := by
  rw [added]
  rw [hp.normal_eq, List.drop_left]

/-- `d'` is `d` after the events `es`, with `high` and `new` added to the High and the Normal
bucket. -/
structure Moved (d d' : Daemon) (es : List Event) (high new : List (SapMsg Payload)) : Prop where
  posts : Posts d.bus d'.bus high new
  trace_eq : d'.trace = d.trace ++ es ++ new.map Event.posted

theorem moved_record (d : Daemon) (es : List Event) {d' : Daemon}
    {high new : List (SapMsg Payload)} (hp : Posts d.bus d'.bus high new) :
    Moved d (d.record es d') es high new :=
  ⟨hp, by rw [Daemon.record, added_eq hp]⟩

theorem onTleMsg_eq (msg : SapMsg Payload) (s : MleEnv) :
    onTleMsg msg s = (tleOf msg).elim s fun m => (mleHandleTleMsg s m).1 := by
  rw [onTleMsg, tleOf]
  cases msg.payload.data with
  | tle m => simp only; split <;> rfl
  | _ => rfl

/-- The MLE does nothing with a TLE message that carries no request. -/
theorem callback_no_request {d : Daemon} (h : d.mle.initialised = true) {msg : SapMsg Payload}
    {m : TleSapMsg} (hm : tleOf msg = some m) (hno : mleRequest m = none) :
    d.callback .onTleMsg msg = d := by
  have hcall : d.callback .onTleMsg msg = d.setMle (mleHandleTleMsg d.mleEnv m).1 := by
    rw [Daemon.callback, onTleMsg_eq, hm]
    rfl
  obtain ⟨heq, -⟩ | ⟨dec, hdec, -⟩ := mleHandleTleMsg_cases d.mleEnv m h
  · rw [hcall, heq]
    rfl
  · rw [hno] at hdec
    cases hdec

/-- The entry just dispatched freed. -/
def Daemon.freed (d : Daemon) (p : MsgPriority) : Daemon :=
  { d with bus := msgbusAdvance d.bus p }

theorem dispatch_some {d : Daemon} {p : MsgPriority} {msg : SapMsg Payload}
    (h : d.bus.next = some (p, msg)) :
    d.dispatch = ((matchingRegs d.bus msg).foldl (fun d cb => d.call cb msg) d).freed p := by
  have hb : (BusHost.bus d : Bus) = d.bus := rfl
  rw [Daemon.dispatch]
  rw [msgbusDispatchOne_eq, hb, h]
  rfl

theorem dispatch_none {d : Daemon} (h : d.bus.next = none) : d.dispatch = d := by
  have hb : (BusHost.bus d : Bus) = d.bus := rfl
  rw [Daemon.dispatch]
  rw [msgbusDispatchOne_eq, hb, h]

end TetraBs
