import TetraBs.Daemon.State

/-! The MLE and MM on a bus of their own: MM PDUs arrive at `mle_handle_tle_msg` in any order,
with dispatches in between. -/
namespace TetraBs
open TetraBs.Bits TetraBs.Run

inductive PairOp where
  | receive (m : TleSapMsg)
  | dispatch
deriving DecidableEq

def Daemon.pairStep (d : Daemon) : PairOp → Daemon
  | .receive m => d.receive m
  | .dispatch => d.dispatch

/-- What `mle_init` and `mm_init` leave on a bus with nothing waiting and nobody registered. -/
structure PairStarted (cfg : MleCfg) (d : Daemon) : Prop where
  init : ∃ bus bus' : Bus, (∀ p, bus.pending p = []) ∧ bus.regs = [] ∧
    mleInit bus cfg = .ok (d.mle, bus') ∧ mmInit bus' = .ok (d.mm, d.bus)
  trace_nil : d.trace = []

def pairRegs : List (MsgBusReg Handler) :=
  [⟨.tmaSap, .tleSap, .onTleMsg⟩, ⟨.tmaSap, .tnmmSap, .onTlaMsg⟩, ⟨.tmaSap, .tlmcSap, .onMmRequest⟩]

/-- A request the MLE forwards, or a downlink of MM that is no request itself. -/
def PairMsg (msg : SapMsg Payload) : Prop :=
  (∃ pl, msg = mleRequestMsg pl) ∨ ∃ m, msg = mmDownlinkMsg m ∧ mleRequest m = none

/-- What holds between operations. -/
structure PairInv (d : Daemon) : Prop where
  regs_eq : d.bus.regs = pairRegs
  mle_init : d.mle.initialised = true
  mm_init : d.mm.initialised = true
  high_nil : d.bus.pending .high = []
  low_nil : d.bus.pending .low = []
  waiting : ∀ msg ∈ d.bus.pending .normal, PairMsg msg ∧ .posted msg ∈ d.trace

/-- Both kinds of messages, by the room they need in the Normal bucket. -/
def RequestRoom (bus : Bus) : Prop :=
  204 ≤ (bus.queues .normal).maxPayload ∧
    (bus.pending .normal).length < (bus.queues .normal).ring.cap

instance (bus : Bus) : Decidable (RequestRoom bus) := inferInstanceAs (Decidable (_ ∧ _))

theorem accepts_request (bus : Bus) (pl : TlaSapPayload) :
    bus.Accepts .normal (mleRequestMsg pl) ↔ RequestRoom bus :=
  MsgBus.accepts_addressed SapId.noConfusion SapId.noConfusion

theorem accepts_downlink (bus : Bus) (m : TleSapMsg) :
    bus.Accepts .normal (mmDownlinkMsg m) ↔ UpRoom bus :=
  MsgBus.accepts_addressed SapId.noConfusion SapId.noConfusion

theorem posts_request (bus : Bus) (pl : TlaSapPayload) :
    Posts bus (msgbusPost bus .normal (mleRequestMsg pl)).1 []
      (ifRoom (RequestRoom bus) (mleRequestMsg pl)) := by
  have h := posts_normal bus (mleRequestMsg pl)
  simp only [accepts_request] at h
  exact h

theorem posts_downlink (bus : Bus) (m : TleSapMsg) :
    Posts bus (msgbusPost bus .normal (mmDownlinkMsg m)).1 []
      (ifRoom (UpRoom bus) (mmDownlinkMsg m)) := by
  have h := posts_normal bus (mmDownlinkMsg m)
  simp only [accepts_downlink] at h
  exact h

/-! What an operation can do. -/

/-- `mle_handle_tle_msg`: nothing, unless the message carries a request whose ISSI finds a
session; then the session is fed and the request posted. -/
inductive Arrived (d : Daemon) (m : TleSapMsg) (d' : Daemon) : Prop where
  | ignored (why : mleRequest m = none ∨ ¬HasSession d.mle m.addr.ssi) (mle_eq : d'.mle = d.mle)
      (db_eq : d'.db = d.db) (moved : Moved d d' [.arrived m] [] [])
  | requested (dec : MmDecoded) (request : mleRequest m = some dec)
      (session : HasSession d.mle m.addr.ssi)
      (fed : Fed d.mle d'.mle m.addr.ssi (requestEvt dec))
      (db_eq : d.mle.cfg.acceptUnknown = false → d'.db = d.db)
      (moved : Moved d d' [.arrived m] []
        (ifRoom (RequestRoom d.bus) (mleRequestMsg (requestPayload m dec))))

theorem receive_cases (d : Daemon) (m : TleSapMsg) (h : d.mle.initialised = true) :
    Arrived d m (d.receive m) := by
  obtain ⟨hsame, hwhy⟩ | ⟨dec, hdec, hreq⟩ := mleHandleTleMsg_cases d.mleEnv m h
  · have hd : d.setMle d.mleEnv = d := rfl
    rw [Daemon.receive]
    rw [hsame, hd]
    exact .ignored hwhy rfl rfl (moved_record d _ (Posts.refl _))
  · refine .requested dec hdec hreq.session hreq.fed hreq.db_eq (moved_record d _ ?_)
    have hbus : (d.setMle (mleHandleTleMsg d.mleEnv m).1).bus =
        (msgbusPost d.bus .normal (mleRequestMsg (requestPayload m dec))).1 := hreq.bus_eq
    rw [hbus]
    exact posts_request _ _

/-- MM was called with `pl`: it posts an answer, or did not have to. -/
structure Answered (d d' : Daemon) (pl : TlaSapPayload) (new : List (SapMsg Payload)) : Prop where
  mle_eq : d'.mle = d.mle
  mm_init : d'.mm.initialised = d.mm.initialised
  db_eq : d'.db = d.db
  answer : new = [] ∧ pl.decoded.pduType ≠ .uLocationUpdateDemand ∨
    ∃ m, AnswerTo pl m ∧ new = ifRoom (UpRoom d.bus) (mmDownlinkMsg m)
  moved : Moved d d' [.handled .onMmRequest (mleRequestMsg pl)] [] new

/-- A dispatch on a bus as `PairInv` describes it. A downlink comes back to the MLE, which finds
no request in it. -/
inductive Dispatched (d d' : Daemon) : Prop where
  | idle (next : d.bus.next = none) (same : d' = d)
  | request (pl : TlaSapPayload) (next : d.bus.next = some (.normal, mleRequestMsg pl))
      (mid : Daemon) (new : List (SapMsg Payload)) (answered : Answered d mid pl new)
      (same : d' = mid.freed .normal)
  | downlink (m : TleSapMsg) (next : d.bus.next = some (.normal, mmDownlinkMsg m))
      (same : d' = (d.record [.handled .onTleMsg (mmDownlinkMsg m)] d).freed .normal)

theorem onMmRequest_request {s : MmEnv} (h : s.mm.initialised = true) (pl : TlaSapPayload) :
    onMmRequest (mleRequestMsg pl) s = mmHandleRequest s pl := by
  have hlen : (mleRequestMsg pl).len = (SapData.tla pl).size := rfl
  have hdata : (mleRequestMsg pl).payload.data = .tla pl := rfl
  rw [onMmRequest]
  rw [hdata, hlen]
  simp only
  rw [if_neg (Nat.lt_irrefl _), if_neg (by rw [h]; exact Bool.noConfusion)]

theorem mm_callback {d : Daemon} (h : d.mm.initialised = true) (pl : TlaSapPayload) :
    ∃ new, Answered d (d.record [.handled .onMmRequest (mleRequestMsg pl)]
      (d.callback .onMmRequest (mleRequestMsg pl))) pl new := by
  have hcall : d.callback .onMmRequest (mleRequestMsg pl) =
      d.setMm (mmHandleRequest d.mmEnv pl) := congrArg d.setMm (onMmRequest_request h pl)
  obtain ⟨hdb, hinit, hans⟩ := mmHandleRequest_cases d.mmEnv pl
  rw [hcall]
  obtain ⟨hbus, hne⟩ | ⟨m, hm, hbus⟩ := hans
  · have hposts : Posts d.bus (d.setMm (mmHandleRequest d.mmEnv pl)).bus [] [] := by
      have heq : (d.setMm (mmHandleRequest d.mmEnv pl)).bus = d.bus := hbus
      rw [heq]
      exact Posts.refl _
    exact ⟨[], rfl, hinit, hdb, Or.inl ⟨rfl, hne⟩, moved_record d _ hposts⟩
  · have hposts : Posts d.bus (d.setMm (mmHandleRequest d.mmEnv pl)).bus []
        (ifRoom (UpRoom d.bus) (mmDownlinkMsg m)) := by
      have heq : (d.setMm (mmHandleRequest d.mmEnv pl)).bus =
          (msgbusPost d.bus .normal (mmDownlinkMsg m)).1 := hbus
      rw [heq]
      exact posts_downlink _ _
    exact ⟨_, rfl, hinit, hdb, Or.inr ⟨m, hm, rfl⟩, moved_record d _ hposts⟩

theorem dispatch_cases {d : Daemon} (h : PairInv d) : Dispatched d d.dispatch := by
  cases hnext : d.bus.next with
  | none => exact .idle hnext (dispatch_none hnext)
  | some next =>
    obtain ⟨p, msg⟩ := next
    have hmem := pending_eq_cons hnext
    cases p with
    | high =>
      rw [h.high_nil] at hmem
      cases hmem
    | low =>
      rw [h.low_nil] at hmem
      cases hmem
    | normal =>
      have hpair : PairMsg msg := (h.waiting msg (by rw [hmem]; exact List.mem_cons_self)).1
      obtain ⟨pl, rfl⟩ | ⟨m, rfl, hno⟩ := hpair
      · have hcb : matchingRegs d.bus (mleRequestMsg pl) = [.onMmRequest] := by
          rw [matchingRegs, h.regs_eq]
          rfl
        obtain ⟨new, hans⟩ := mm_callback h.mm_init pl
        refine .request pl hnext _ new hans ?_
        rw [dispatch_some hnext, hcb]
        rfl
      · have hcb : matchingRegs d.bus (mmDownlinkMsg m) = [.onTleMsg] := by
          rw [matchingRegs, h.regs_eq]
          rfl
        refine .downlink m hnext ?_
        rw [dispatch_some hnext, hcb, List.foldl_cons, List.foldl_nil, Daemon.call,
          callback_no_request h.mle_init rfl hno]
        rfl

/-! The invariant. -/

theorem pairStarted_inv {cfg : MleCfg} {d : Daemon} (h : PairStarted cfg d) :
    PairInv d ∧ d.mle = { cfg := cfg, initialised := true } := by
  obtain ⟨⟨bus, bus', hempty, hregs, hmle, hmm⟩, htrace⟩ := h
  obtain ⟨hm, hr, hp⟩ := mleInit_ok hmle
  obtain ⟨hi, hr', hp'⟩ := mmInit_ok hmm
  have hnone : ∀ p, d.bus.pending p = [] := fun p => (hp' p).trans ((hp p).trans (hempty p))
  refine ⟨⟨?_, by rw [hm], hi, hnone _, hnone _, fun msg hmem => ?_⟩, hm⟩
  · rw [hr', hr, hregs]
    rfl
  · rw [hnone] at hmem
    cases hmem

theorem Moved.pairInv {d d' : Daemon} {es : List Event} {new : List (SapMsg Payload)}
    (h : Moved d d' es [] new) (hd : PairInv d) (hmle : d'.mle.initialised = true)
    (hmm : d'.mm.initialised = true) (hnew : ∀ msg ∈ new, PairMsg msg) : PairInv d' := by
  refine ⟨h.posts.regs_eq.trans hd.regs_eq, hmle, hmm, ?_, h.posts.low_eq.trans hd.low_nil, ?_⟩
  · rw [h.posts.high_eq, hd.high_nil]
    rfl
  · intro msg hmem
    rw [h.posts.normal_eq] at hmem
    rw [h.trace_eq]
    obtain hold | hn := List.mem_append.1 hmem
    · obtain ⟨hpair, htrace⟩ := hd.waiting msg hold
      exact ⟨hpair, List.mem_append_left _ (List.mem_append_left _ htrace)⟩
    · exact ⟨hnew msg hn, List.mem_append_right _ (List.mem_map.2 ⟨msg, hn, rfl⟩)⟩

theorem PairInv.freed {d : Daemon} (h : PairInv d) : PairInv (d.freed .normal) := by
  refine ⟨?_, h.mle_init, h.mm_init, ?_, ?_, ?_⟩
  · rw [Daemon.freed, regs_advance, h.regs_eq]
  · rw [Daemon.freed, pending_advance]
    exact h.high_nil
  · rw [Daemon.freed, pending_advance]
    exact h.low_nil
  · intro msg hmem
    rw [Daemon.freed, pending_advance, if_pos rfl] at hmem
    exact h.waiting msg (List.mem_of_mem_tail hmem)

theorem Answered.pairMsg {d d' : Daemon} {pl : TlaSapPayload} {new : List (SapMsg Payload)}
    (h : Answered d d' pl new) {msg : SapMsg Payload} (hmem : msg ∈ new) :
    ∃ m, msg = mmDownlinkMsg m ∧ AnswerTo pl m := by
  obtain ⟨hnil, -⟩ | ⟨m, hm, hnew⟩ := h.answer
  · rw [hnil] at hmem
    cases hmem
  · rw [hnew] at hmem
    exact ⟨m, mem_ifRoom hmem, hm⟩

theorem pairStep_inv {d : Daemon} (h : PairInv d) (op : PairOp) : PairInv (d.pairStep op) := by
  cases op with
  | receive m =>
    have hmm : (d.receive m).mm.initialised = true := h.mm_init
    cases receive_cases d m h.mle_init with
    | ignored why mle_eq db_eq moved =>
      exact moved.pairInv h (mle_eq ▸ h.mle_init) hmm fun _ hmem => absurd hmem List.not_mem_nil
    | requested dec request session fed db_eq moved =>
      apply moved.pairInv h (fed.init_eq.trans h.mle_init) hmm
      intro msg hmem
      exact Or.inl ⟨_, mem_ifRoom hmem⟩
  | dispatch =>
    have hstep : d.pairStep .dispatch = d.dispatch := rfl
    rw [hstep]
    cases dispatch_cases h with
    | idle next same =>
      rw [same]
      exact h
    | request pl next mid new answered same =>
      rw [same]
      apply PairInv.freed
      apply answered.moved.pairInv h (answered.mle_eq ▸ h.mle_init)
        (answered.mm_init.trans h.mm_init)
      intro msg hmem
      obtain ⟨m, heq, hm⟩ := answered.pairMsg hmem
      exact Or.inr ⟨m, heq, hm.not_request⟩
    | downlink m next same =>
      rw [same]
      apply PairInv.freed
      exact (moved_record d _ (Posts.refl _)).pairInv h h.mle_init h.mm_init
        fun _ hmem => absurd hmem List.not_mem_nil

/-! A pair to run examples on. -/

/-- After `mle_init` and `mm_init` on a bus of the daemon's size. -/
def pairAfterInit (cfg : MleCfg) (db : SubscriberDb) : Daemon where
  mle := { cfg := cfg, initialised := true }
  mm := { initialised := true }
  db := db
  bus := { msgbusInit Payload Handler 32 256 busQueueCapPerPrio_pos with regs := pairRegs, regs_le := by decide }

theorem pairAfterInit_started (cfg : MleCfg) (db : SubscriberDb) :
    PairStarted cfg (pairAfterInit cfg db) :=
  ⟨⟨msgbusInit Payload Handler 32 256 busQueueCapPerPrio_pos, _, fun p => by cases p <;> rfl, rfl, rfl, rfl⟩,
    rfl⟩

/-- U-LOCATION-UPDATE-DEMAND without optional elements, behind the MM discriminator. -/
def demandFrom (issi : BitVec 32) : TleSapMsg where
  endpoint := 1
  addr := { ssi := issi, ssiType := .issi }
  pdu := { pduType := .blData, bodyLenBits := 13, body := [0x24, 0x00] }

end TetraBs
