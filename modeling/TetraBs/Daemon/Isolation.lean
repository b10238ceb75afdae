import TetraBs.Lib.Run
import TetraBs.Llc.Ops

/-! Subscribers at the receive path of `sw/main_loop.c`: every frame is handed to the LLC on
endpoint 1, whoever sent it. -/
namespace TetraBs
open TetraBs.Bits TetraBs.Run

/-- The indication made of the bytes of a TMA-RX frame. -/
def tmaRxInd (body : List Byte) : TmaUnitdata where
  endpoint := 1
  addr := { ssi := 0, ssiType := .issi }
  reqHandle := 0
  sduLenBits := min body.length tmaSduMaxBytes * 8
  sduBits := body.take tmaSduMaxBytes

def mlDispatchTmaRx (s : LlcEnv) (body : List Byte) : LlcEnv :=
  (llcHandleTmaUnitdataInd s (tmaRxInd body)).1

/-- A frame with the subscriber it came from, which the dispatcher is not told, and the bus it
is handled on. -/
structure RxFrame where
  sender : Bool
  bus : Bus
  body : List Byte

def rxStep (s : LlcEnv) (f : RxFrame) : LlcEnv := mlDispatchTmaRx { s with bus := f.bus } f.body

def tleIn (msg : SapMsg Payload) : Option TleSapMsg :=
  match msg.payload.data with
  | .tle m => some m
  | _ => none

/-- The messages for the MLE added between `b` and `b'`. -/
def upward (b b' : Bus) : List TleSapMsg :=
  ((b'.pending .normal).drop (b.pending .normal).length).filterMap tleIn

/-- What a frame brings about: the messages delivered upward and the PDUs sent back, with
endpoint and address. -/
structure Outcome where
  up : List TleSapMsg
  back : List (EndpointId × TetraAddress × List Bool)
deriving DecidableEq

def outcome (s : LlcEnv) (f : RxFrame) : Outcome where
  up := upward f.bus (rxStep s f).bus
  back := (emitted f.bus (rxStep s f).bus).map fun r => (r.endpoint, r.addr, r.bits)

/-- The outcomes of the frames of subscriber `x`, in order. -/
def outcomesOf (x : Bool) : LlcEnv → List RxFrame → List Outcome
  | _, [] => []
  | s, f :: fs =>
    if f.sender = x then outcome s f :: outcomesOf x (rxStep s f) fs
    else outcomesOf x (rxStep s f) fs

def framesOf (x : Bool) (fs : List RxFrame) : List RxFrame := fs.filter fun f => f.sender == x

/-- `x` notices nothing of the other subscriber. -/
def Isolated (x : Bool) (s : LlcEnv) (fs : List RxFrame) : Prop :=
  outcomesOf x s fs = outcomesOf x s (framesOf x fs)

/-- The N(S) of a frame that carries a good data PDU. -/
def dataNs (f : RxFrame) : Option Bool :=
  (goodPdu (tmaRxInd f.body)).bind fun pdu =>
    if isBlData pdu.pduType then some (pdu.ns.getLsbD 0) else none

/-- The N(S) to expect after a frame, if `n` was expected before. -/
def nextExpected (n : Bool) (f : RxFrame) : Bool := (dataNs f).elim n fun ns => !ns

/-! What one frame does, as a function of the sequence bit expected. -/

/-- The outcome of a frame when `n` is expected on endpoint 1. -/
def outcomeAt (n : Bool) (f : RxFrame) : Outcome :=
  match goodPdu (tmaRxInd f.body) with
  | none => ⟨[], []⟩
  | some pdu =>
    if isBlData pdu.pduType then
      ⟨if pdu.ns.getLsbD 0 = n ∧ UpRoom f.bus then [⟨1, (tmaRxInd f.body).addr, pdu⟩] else [],
        if TxRoom f.bus then [(1, (tmaRxInd f.body).addr, (ackPdu (!pdu.ns.getLsbD 0)).bits)] else []⟩
    else if isBlAck pdu.pduType then ⟨[], []⟩
    else ⟨if UpRoom f.bus then [⟨1, (tmaRxInd f.body).addr, pdu⟩] else [], []⟩

theorem upward_eq {b b' : Bus} {h n : List (SapMsg Payload)} (hp : Posts b b' h n) :
    upward b b' = n.filterMap tleIn := by
  rw [upward]
  rw [hp.normal_eq, List.drop_left]

theorem upward_ifRoom {b b' : Bus} {m : TleSapMsg} {h : List (SapMsg Payload)}
    (hp : Posts b b' h (ifRoom (UpRoom b) (tleSapMsgUp m))) :
    upward b b' = if UpRoom b then [m] else [] := by
  rw [upward_eq hp]
  rw [ifRoom]
  split <;> rfl

/-- The acknowledgement sent back, if it fits. -/
theorem back_eq {b b' : Bus} {req : TmaUnitdata} {id : EndpointId} {addr : TetraAddress}
    {nr : Bool} {n : List (SapMsg Payload)} (hreq : ReqFor req id addr (ackPdu nr))
    (hp : Posts b b' (ifRoom (TxRoom b) (tmaUnitdataReq req)) n) :
    ((emitted b b').map fun r => (r.endpoint, r.addr, r.bits)) =
      if TxRoom b then [(id, addr, (ackPdu nr).bits)] else [] := by
  rw [emitted_ifRoom hp, ← hreq.endpoint_eq, ← hreq.addr_eq, ← hreq.bits_eq]
  split <;> rfl

/-- With a slot for endpoint 1, outcome and next state depend on the state only through the
sequence bit expected. -/
theorem rxStep_eq (s : LlcEnv) (f : RxFrame) (h : s.llc.HasSlot 1) :
    outcome s f = outcomeAt (s.llc.view 1).nrExpected f ∧
      ((rxStep s f).llc.view 1).nrExpected = nextExpected (s.llc.view 1).nrExpected f := by
  rw [outcome, outcomeAt, nextExpected, dataNs, rxStep, mlDispatchTmaRx]
  cases llcHandleTmaUnitdataInd_cases { s with bus := f.bus } (tmaRxInd f.body) with
  | ignored why views posts =>
    obtain why | why := why
    · rw [goodPdu_eq_none.2 why, emitted_eq posts, upward_eq posts, views.view_eq]
      exact ⟨rfl, rfl⟩
    · exact absurd h why
  | inSequence pdu req good slot data seq ack upd posts =>
    have hns : pdu.ns.getLsbD 0 = (s.llc.view 1).nrExpected :=
      (eq_seqByte_iff good.parses.ns_bit).1 seq
    have hview := upd.view_eq 1
    rw [goodPdu_eq_some.2 good, back_eq ack posts, upward_ifRoom posts, hview]
    simp only [data, hns, if_true, Option.bind_some]
    refine ⟨?_, rfl⟩
    simp only [true_and]
    rfl
  | duplicate pdu req good slot data seq ack views posts =>
    have hne : pdu.ns.getLsbD 0 ≠ (s.llc.view 1).nrExpected :=
      fun h => seq ((eq_seqByte_iff good.parses.ns_bit).2 h)
    have hns : (s.llc.view 1).nrExpected = !pdu.ns.getLsbD 0 := Bool.eq_not_of_ne hne.symm
    rw [goodPdu_eq_some.2 good, back_eq ack posts, upward_eq posts, views.view_eq]
    simp only [data, if_true, Option.bind_some, if_neg fun h => hne (And.left h)]
    exact ⟨by rw [← hns]; rfl, hns⟩
  | acked pdu good slot isAck answers upd posts =>
    have hview := upd.view_eq 1
    rw [goodPdu_eq_some.2 good, emitted_eq posts, upward_eq posts, hview]
    simp only [blAck_not_data isAck, isAck, Option.bind_some]
    exact ⟨rfl, rfl⟩
  | ackIgnored pdu good slot isAck answers views posts =>
    rw [goodPdu_eq_some.2 good, emitted_eq posts, upward_eq posts, views.view_eq]
    simp only [blAck_not_data isAck, isAck, Option.bind_some]
    exact ⟨rfl, rfl⟩
  | passed pdu good slot data isAck views posts =>
    rw [goodPdu_eq_some.2 good, emitted_eq posts, upward_ifRoom posts, views.view_eq]
    simp only [data, isAck, Option.bind_some]
    exact ⟨rfl, rfl⟩

theorem rxStep_slot (s : LlcEnv) (f : RxFrame) :
    (rxStep s f).llc.HasSlot 1 ↔ s.llc.HasSlot 1 :=
  llcHandleTmaUnitdataInd_slot { s with bus := f.bus } (tmaRxInd f.body)

theorem outcome_no_slot {s : LlcEnv} (h : ¬s.llc.HasSlot 1) (f : RxFrame) :
    outcome s f = ⟨[], []⟩ := by
  rw [outcome, rxStep, mlDispatchTmaRx]
  cases llcHandleTmaUnitdataInd_cases { s with bus := f.bus } (tmaRxInd f.body) with
  | ignored _ _ posts =>
    rw [emitted_eq posts, upward_eq posts]
    rfl
  | inSequence _ _ _ slot => exact absurd slot h
  | duplicate _ _ _ slot => exact absurd slot h
  | acked _ _ slot => exact absurd slot h
  | ackIgnored _ _ slot => exact absurd slot h
  | passed _ _ slot => exact absurd slot h

/-- The sequence bit shows in an outcome exactly if the frame carries a data PDU and its body
has room. -/
theorem outcomeAt_eq_iff (n m : Bool) (f : RxFrame) :
    outcomeAt n f = outcomeAt m f ↔ (dataNs f ≠ none → UpRoom f.bus → n = m) := by
  unfold outcomeAt dataNs
  cases goodPdu (tmaRxInd f.body) with
  | none => simp
  | some pdu =>
    by_cases hdata : isBlData pdu.pduType = true
    · by_cases hroom : UpRoom f.bus
      · simp only [hdata, hroom, if_true, and_true, Option.bind_some]
        generalize pdu.ns.getLsbD 0 = ns
        cases n <;> cases m <;> cases ns <;> simp
      · simp [hdata, hroom]
    · simp [hdata]

/-! Two runs, with and without the other subscriber. -/

/-- The outcomes of the frames of `x` if `n` is expected first. -/
def outcomesAt (x : Bool) : Bool → List RxFrame → List Outcome
  | _, [] => []
  | n, f :: fs =>
    if f.sender = x then outcomeAt n f :: outcomesAt x (nextExpected n f) fs
    else outcomesAt x (nextExpected n f) fs

theorem outcomesOf_eq (x : Bool) (fs : List RxFrame) (s : LlcEnv) (h : s.llc.HasSlot 1) :
    outcomesOf x s fs = outcomesAt x (s.llc.view 1).nrExpected fs := by
  induction fs generalizing s with
  | nil => rfl
  | cons f fs ih =>
    obtain ⟨hout, hnext⟩ := rxStep_eq s f h
    rw [outcomesOf, outcomesAt, ih _ ((rxStep_slot s f).2 h), hout, hnext]

theorem outcomesOf_no_slot (x : Bool) (fs : List RxFrame) (s : LlcEnv) (h : ¬s.llc.HasSlot 1) :
    outcomesOf x s fs = (framesOf x fs).map fun _ => ⟨[], []⟩ := by
  induction fs generalizing s with
  | nil => rfl
  | cons f fs ih =>
    rw [outcomesOf, ih _ (mt (rxStep_slot s f).1 h), outcome_no_slot h]
    by_cases hx : f.sender = x
    · simp [framesOf, hx]
    · simp [framesOf, hx]

theorem framesOf_cons (x : Bool) (f : RxFrame) (fs : List RxFrame) :
    framesOf x (f :: fs) = if f.sender = x then f :: framesOf x fs else framesOf x fs := by
  by_cases hx : f.sender = x
  · simp [framesOf, hx]
  · simp [framesOf, hx]

theorem framesOf_framesOf (x : Bool) (fs : List RxFrame) :
    framesOf x (framesOf x fs) = framesOf x fs := by
  simp [framesOf]

/-- Two expectations, each followed through its own run, show the same outcomes exactly if they
agree at every frame of `x` on which they show. -/
theorem outcomesAt_framesOf_iff (x : Bool) (fs : List RxFrame) (n m : Bool) :
    outcomesAt x n fs = outcomesAt x m (framesOf x fs) ↔
      ∀ pre f post, fs = pre ++ f :: post → f.sender = x → dataNs f ≠ none → UpRoom f.bus →
        pre.foldl nextExpected n = (framesOf x pre).foldl nextExpected m := by
  induction fs generalizing n m with
  | nil => simp [outcomesAt, framesOf]
  | cons f fs ih =>
    rw [forall_split_cons (P := fun pre f => f.sender = x → dataNs f ≠ none → UpRoom f.bus →
      pre.foldl nextExpected n = (framesOf x pre).foldl nextExpected m), framesOf_cons]
    by_cases hx : f.sender = x
    · rw [if_pos hx, outcomesAt, outcomesAt, if_pos hx, if_pos hx, List.cons.injEq,
        outcomeAt_eq_iff, ih]
      simp only [framesOf_cons, List.foldl_cons, hx, if_true, true_implies]
      rfl
    · rw [if_neg hx, outcomesAt, if_neg hx, ih]
      simp only [framesOf_cons, List.foldl_cons, hx, if_false, false_implies, true_and]

def rxBus : Bus := msgbusInit Payload Handler 32 256 busQueueCapPerPrio_pos

end TetraBs
