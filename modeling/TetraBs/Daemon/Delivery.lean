import TetraBs.Daemon.State

/-! Delivery in the daemon: what the LLC hands to the MLE and what MM hands to the LLC, by the
keys they post and register under. -/
namespace TetraBs
open TetraBs.Bits TetraBs.Run

/-- A downlink of CMCE. The types its encoders put in front read as no request. -/
def CmceDownlink : Type := { m : TleSapMsg // mleRequest m = none }

def cmceDownlinkMsg (m : CmceDownlink) : SapMsg Payload :=
  sapmsgInit .environment .tleSap .tmaSap .tleSap (.tle m.val)

/-- An uplink frame, an answer or a broadcast of CMCE, or one dispatch. The callback of CMCE has
no other effect on the bus than its posts. -/
inductive DaemonOp where
  | inject (ind : TmaUnitdata)
  | cmce (m : CmceDownlink)
  | dispatch

def Daemon.step (d : Daemon) : DaemonOp → Daemon
  | .inject ind => d.inject ind
  | .cmce m =>
    d.record [] { d with bus := (msgbusPost d.bus (sapPrioDefault .tleSap) (cmceDownlinkMsg m)).1 }
  | .dispatch => d.dispatch

/-- The daemon's start: `llc_init`, `mle_init` and `mm_init` on a bus with nothing waiting and
nobody registered. -/
structure DaemonStarted (cfg : MleCfg) (d : Daemon) : Prop where
  init : ∃ bus bus1 bus2 : Bus, (∀ p, bus.pending p = []) ∧ bus.regs = [] ∧
    llcInit bus = .ok (d.llc, bus1) ∧ mleInit bus1 cfg = .ok (d.mle, bus2) ∧
    mmInit bus2 = .ok (d.mm, d.bus)
  trace_nil : d.trace = []

def daemonRegs : List (MsgBusReg Handler) :=
  [⟨.tmaSap, .tmaSap, .onTmaUnitdataInd⟩, ⟨.tmaSap, .tleSap, .onTleMsgFromMle⟩,
    ⟨.tmaSap, .tleSap, .onTleMsg⟩, ⟨.tmaSap, .tnmmSap, .onTlaMsg⟩,
    ⟨.tmaSap, .tlmcSap, .onMmRequest⟩]

/-! What was delivered. -/

/-- The body taken in sequence. -/
def takenBody : Event → Option TleSapMsg
  | .accepted m => some m
  | _ => none

/-- The TLE message of `who` that callback `cb` handled. -/
def handledTle (cb : Handler) (who : Poster) : Event → Option TleSapMsg
  | .handled cb' msg => if cb' = cb ∧ msg.payload.poster = who then tleOf msg else none
  | _ => none

/-- The TLE message `who` posted. -/
def postedTle (who : Poster) : Event → Option TleSapMsg
  | .posted msg => if msg.payload.poster = who then tleOf msg else none
  | _ => none

/-- Bodies taken in sequence reach the MLE's uplink handler, once each and in order; what MM
posts reaches the LLC's transmit handler, once each, and never the MLE's uplink handler. -/
structure Delivered (d : Daemon) : Prop where
  uplink : d.trace.filterMap (handledTle .onTleMsg .llc) = d.trace.filterMap takenBody
  downlink : d.trace.filterMap (handledTle .onTleMsgFromMle .mm) =
    d.trace.filterMap (postedTle .mm)
  not_uplink : d.trace.filterMap (handledTle .onTleMsg .mm) = []

/-- The operation hands the LLC no frame that is in sequence. -/
def TakesNoBody (d : Daemon) : DaemonOp → Prop
  | .inject ind => ¬InSequence d.llc ind
  | .cmce _ => True
  | .dispatch => ∀ req, d.bus.next = some (.high, tmaUnitdataReq req) → ¬InSequence d.llc req

/-! The keys do not meet. -/

/-- Nothing of MM, and nothing of the LLC at the MLE's uplink handler. -/
def Quiet : Event → Prop
  | .handled cb msg =>
    msg.payload.poster ≠ .mm ∧ (cb = .onTleMsg → msg.payload.poster ≠ .llc)
  | .posted msg => msg.payload.poster ≠ .mm
  | _ => True

/-- What holds between operations: bodies for the MLE wait under a key nobody registered. -/
structure DaemonInv (d : Daemon) : Prop where
  regs_eq : d.bus.regs = daemonRegs
  mle_init : d.mle.initialised = true
  high : ∀ msg ∈ d.bus.pending .high, ∃ req, msg = tmaUnitdataReq req
  normal : ∀ msg ∈ d.bus.pending .normal,
    (∃ t, msg = tleSapMsgUp t) ∨ ∃ m, msg = cmceDownlinkMsg m
  low_nil : d.bus.pending .low = []
  quiet : ∀ e ∈ d.trace, Quiet e

theorem filterMap_quiet {es : List Event} (h : ∀ e ∈ es, Quiet e) :
    es.filterMap (handledTle .onTleMsg .llc) = [] ∧
      es.filterMap (handledTle .onTleMsgFromMle .mm) = [] ∧
      es.filterMap (postedTle .mm) = [] ∧ es.filterMap (handledTle .onTleMsg .mm) = [] := by
  have hquiet : ∀ e, Quiet e → handledTle .onTleMsg .llc e = none ∧
      handledTle .onTleMsgFromMle .mm e = none ∧ postedTle .mm e = none ∧
      handledTle .onTleMsg .mm e = none := by
    intro e he
    cases e with
    | handled cb msg =>
      exact ⟨if_neg fun hc => he.2 hc.1 hc.2, if_neg fun hc => he.1 hc.2, rfl,
        if_neg fun hc => he.1 hc.2⟩
    | posted msg => exact ⟨rfl, rfl, if_neg he, rfl⟩
    | accepted m => exact ⟨rfl, rfl, rfl, rfl⟩
    | arrived m => exact ⟨rfl, rfl, rfl, rfl⟩
  refine ⟨?_, ?_, ?_, ?_⟩
  · exact List.filterMap_eq_nil_iff.2 fun e he => (hquiet e (h e he)).1
  · exact List.filterMap_eq_nil_iff.2 fun e he => (hquiet e (h e he)).2.1
  · exact List.filterMap_eq_nil_iff.2 fun e he => (hquiet e (h e he)).2.2.1
  · exact List.filterMap_eq_nil_iff.2 fun e he => (hquiet e (h e he)).2.2.2

/-- So a body that was taken is never delivered. -/
theorem delivered_iff_none_taken {d : Daemon} (h : DaemonInv d) :
    Delivered d ↔ d.trace.filterMap takenBody = [] := by
  obtain ⟨hup, hdown, hposted, hnot⟩ := filterMap_quiet h.quiet
  constructor
  · intro hd
    rw [← hd.uplink, hup]
  · intro hnone
    exact ⟨by rw [hup, hnone], by rw [hdown, hposted], hnot⟩

theorem acceptedBody_eq_none {llc : Llc} {ind : TmaUnitdata} :
    acceptedBody llc ind = none ↔ ¬InSequence llc ind := by
  rw [acceptedBody]
  cases hg : goodPdu ind with
  | none =>
    refine ⟨fun _ hin => ?_, fun _ => rfl⟩
    obtain ⟨pdu, hgood, -⟩ := hin
    exact goodPdu_eq_none.1 hg pdu hgood
  | some pdu =>
    have hgood := goodPdu_eq_some.1 hg
    rw [Option.bind_some]
    obtain ⟨hl, hno⟩ | ⟨i, l, hl, hs, -, hep, -, -⟩ := llcEndpointLookup_cases llc ind.endpoint
    · rw [hl]
      exact ⟨fun _ hin => hno hin.choose_spec.2.1, fun _ => rfl⟩
    · rw [hl]
      simp only [hep]
      by_cases hin : isBlData pdu.pduType = true ∧
          pdu.ns = seqByte (llc.view ind.endpoint).nrExpected
      · rw [if_pos hin]
        refine ⟨fun hnone => ?_, fun hnot => absurd ⟨pdu, hgood, hs, hin.1, hin.2⟩ hnot⟩
        cases hnone
      · rw [if_neg hin]
        refine ⟨fun _ hseq => ?_, fun _ => rfl⟩
        obtain ⟨q, hq, -, hdata, hns⟩ := hseq
        rw [goodPdu_unique hq hgood] at hdata hns
        exact hin ⟨hdata, hns⟩

/-! One step. -/

theorem Moved.daemonInv {d d' : Daemon} {es : List Event} {high new : List (SapMsg Payload)}
    (h : Moved d d' es high new) (hd : DaemonInv d) (hmle : d'.mle.initialised = true)
    (hhigh : ∀ msg ∈ high, ∃ req, msg = tmaUnitdataReq req)
    (hnew : ∀ msg ∈ new, (∃ t, msg = tleSapMsgUp t) ∨ ∃ m, msg = cmceDownlinkMsg m)
    (hes : ∀ e ∈ es, Quiet e) : DaemonInv d' := by
  refine ⟨h.posts.regs_eq.trans hd.regs_eq, hmle, fun msg hm => ?_, fun msg hm => ?_,
    h.posts.low_eq.trans hd.low_nil, fun e he => ?_⟩
  · rw [h.posts.high_eq] at hm
    obtain hm | hm := List.mem_append.1 hm
    · exact hd.high msg hm
    · exact hhigh msg hm
  · rw [h.posts.normal_eq] at hm
    obtain hm | hm := List.mem_append.1 hm
    · exact hd.normal msg hm
    · exact hnew msg hm
  · rw [h.trace_eq] at he
    obtain he | he := List.mem_append.1 he
    · obtain he | he := List.mem_append.1 he
      · exact hd.quiet e he
      · exact hes e he
    · obtain ⟨msg, hm, rfl⟩ := List.mem_map.1 he
      obtain ⟨t, rfl⟩ | ⟨m, rfl⟩ := hnew msg hm
      · exact Poster.noConfusion
      · exact Poster.noConfusion

theorem Moved.taken {d d' : Daemon} {es : List Event} {high new : List (SapMsg Payload)}
    (h : Moved d d' es high new) :
    d'.trace.filterMap takenBody = d.trace.filterMap takenBody ++ es.filterMap takenBody := by
  have hnew : (new.map Event.posted).filterMap takenBody = [] := by
    apply List.filterMap_eq_nil_iff.2
    intro e he
    obtain ⟨msg, -, rfl⟩ := List.mem_map.1 he
    rfl
  rw [h.trace_eq, List.filterMap_append, List.filterMap_append, hnew, List.append_nil]

theorem DaemonInv.freed {d : Daemon} (h : DaemonInv d) (p : MsgPriority) :
    DaemonInv (d.freed p) := by
  have hsub : ∀ q, ∀ msg ∈ (d.freed p).bus.pending q, msg ∈ d.bus.pending q := by
    intro q msg hm
    rw [Daemon.freed, pending_advance] at hm
    by_cases hq : q = p
    · rw [if_pos hq] at hm
      exact List.mem_of_mem_tail hm
    · rw [if_neg hq] at hm
      exact hm
  refine ⟨(regs_advance _ _).trans h.regs_eq, h.mle_init, fun msg hm => h.high msg (hsub _ msg hm),
    fun msg hm => h.normal msg (hsub _ msg hm), ?_, h.quiet⟩
  apply List.eq_nil_iff_forall_not_mem.2
  intro msg hm
  have hlow := hsub _ msg hm
  rw [h.low_nil] at hlow
  cases hlow

theorem acceptedEvents_taken (llc : Llc) (ind : TmaUnitdata) :
    (acceptedEvents llc ind).filterMap takenBody = [] ↔ ¬InSequence llc ind := by
  rw [← acceptedBody_eq_none, acceptedEvents]
  cases acceptedBody llc ind with
  | none => exact ⟨fun _ => rfl, fun _ => rfl⟩
  | some m =>
    constructor
    · intro h
      cases h
    · intro h
      cases h

theorem acceptedEvents_quiet {llc : Llc} {ind : TmaUnitdata} {e : Event}
    (h : e ∈ acceptedEvents llc ind) : Quiet e := by
  unfold acceptedEvents at h
  obtain ⟨m, -, rfl⟩ := Option.mem_map.1 (Option.mem_toList.1 h)
  trivial

/-- A frame handled by the LLC: it posts requests and bodies, and takes at most one. -/
theorem llc_moved {d d' : Daemon} (es : List Event) (hd : DaemonInv d)
    (hposts : LlcPosts d.bus d'.bus) (hmle : d'.mle = d.mle) (hes : ∀ e ∈ es, Quiet e) :
    DaemonInv (d.record es d') ∧ (d.record es d').trace.filterMap takenBody =
      d.trace.filterMap takenBody ++ es.filterMap takenBody := by
  obtain ⟨high, normal, hp, hhigh, hnormal⟩ := hposts
  have hmoved := moved_record d es hp
  refine ⟨hmoved.daemonInv hd ?_ hhigh (fun msg hm => Or.inl (hnormal msg hm)) hes, hmoved.taken⟩
  have heq : (d.record es d').mle = d'.mle := rfl
  rw [heq, hmle]
  exact hd.mle_init

/-- Keeping the invariant, a step that does `TakesNoBody` adds no body to the record, any other
one does. -/
structure StepOk (d d' : Daemon) (c : Prop) : Prop where
  inv : DaemonInv d'
  taken : d'.trace.filterMap takenBody = [] ↔ d.trace.filterMap takenBody = [] ∧ c

theorem step_inject {d : Daemon} (h : DaemonInv d) (ind : TmaUnitdata) :
    StepOk d (d.inject ind) (¬InSequence d.llc ind) := by
  have hposts : LlcPosts d.bus (d.setLlc (llcHandleTmaUnitdataInd d.llcEnv ind).1).bus :=
    llcHandleTmaUnitdataInd_llcPosts d.llcEnv ind
  obtain ⟨hinv, htaken⟩ := llc_moved _ h hposts rfl fun e he => acceptedEvents_quiet he
  refine ⟨hinv, ?_⟩
  rw [← acceptedEvents_taken, ← List.append_eq_nil_iff, ← htaken]
  rfl

theorem step_cmce {d : Daemon} (h : DaemonInv d) (m : CmceDownlink) :
    StepOk d (d.step (.cmce m)) True := by
  have hposts := posts_normal d.bus (cmceDownlinkMsg m)
  have hmoved : Moved d (d.step (.cmce m)) [] [] _ := moved_record d [] hposts
  refine ⟨hmoved.daemonInv h h.mle_init (fun _ hm => absurd hm List.not_mem_nil)
    (fun msg hm => Or.inr ⟨m, ?_⟩) fun _ he => absurd he List.not_mem_nil, ?_⟩
  · exact mem_ifRoom hm
  · rw [hmoved.taken, List.filterMap_nil, List.append_nil, and_true]

theorem step_request {d : Daemon} (h : DaemonInv d) {req : TmaUnitdata}
    (hnext : d.bus.next = some (.high, tmaUnitdataReq req)) :
    StepOk d d.dispatch (¬InSequence d.llc req) := by
  have hcb : matchingRegs d.bus (tmaUnitdataReq req) = [.onTmaUnitdataInd] := by
    rw [matchingRegs, h.regs_eq]
    rfl
  have hposts : LlcPosts d.bus (d.callback .onTmaUnitdataInd (tmaUnitdataReq req)).bus :=
    onTmaUnitdataInd_llcPosts (tmaUnitdataReq req) d.llcEnv
  have hes : d.callbackEvents .onTmaUnitdataInd (tmaUnitdataReq req) =
      .handled .onTmaUnitdataInd (tmaUnitdataReq req) :: acceptedEvents d.llc req := rfl
  obtain ⟨hinv, htaken⟩ := llc_moved (d.callbackEvents .onTmaUnitdataInd (tmaUnitdataReq req))
    h hposts rfl fun e he => by
      rw [hes] at he
      obtain rfl | he := List.mem_cons.1 he
      · exact ⟨Poster.noConfusion, Handler.noConfusion⟩
      · exact acceptedEvents_quiet he
  rw [dispatch_some hnext, hcb]
  refine ⟨hinv.freed _, ?_⟩
  rw [← acceptedEvents_taken, ← List.append_eq_nil_iff]
  rw [hes] at htaken
  exact (congrArg (· = []) htaken).to_iff

theorem step_up {d : Daemon} (h : DaemonInv d) {t : TleSapMsg}
    (hnext : d.bus.next = some (.normal, tleSapMsgUp t)) : StepOk d d.dispatch True := by
  have hcb : matchingRegs d.bus (tleSapMsgUp t) = [] := by
    rw [matchingRegs, h.regs_eq]
    rfl
  rw [dispatch_some hnext, hcb]
  refine ⟨h.freed _, ?_⟩
  rw [and_true]
  rfl

/-- A downlink of CMCE goes to the LLC, which sends it, and to the MLE, which ignores it. -/
theorem step_downlink {d : Daemon} (h : DaemonInv d) {m : CmceDownlink}
    (hnext : d.bus.next = some (.normal, cmceDownlinkMsg m)) : StepOk d d.dispatch True := by
  have hcb : matchingRegs d.bus (cmceDownlinkMsg m) = [.onTleMsgFromMle, .onTleMsg] := by
    rw [matchingRegs, h.regs_eq]
    rfl
  have hquiet : ∀ cb, ∀ e ∈ [Event.handled cb (cmceDownlinkMsg m)], Quiet e := by
    intro cb e he
    rw [List.mem_singleton.1 he]
    exact ⟨Poster.noConfusion, fun _ => Poster.noConfusion⟩
  have hposts : LlcPosts d.bus (d.callback .onTleMsgFromMle (cmceDownlinkMsg m)).bus :=
    onTleMsgFromMle_llcPosts (cmceDownlinkMsg m) d.llcEnv
  obtain ⟨hsent, htaken⟩ := llc_moved _ h hposts rfl (hquiet .onTleMsgFromMle)
  have hback : (d.call .onTleMsgFromMle (cmceDownlinkMsg m)).callback .onTleMsg
      (cmceDownlinkMsg m) = d.call .onTleMsgFromMle (cmceDownlinkMsg m) :=
    callback_no_request hsent.mle_init rfl m.property
  have hsecond : (d.call .onTleMsgFromMle (cmceDownlinkMsg m)).call .onTleMsg (cmceDownlinkMsg m) =
      (d.call .onTleMsgFromMle (cmceDownlinkMsg m)).record [.handled .onTleMsg (cmceDownlinkMsg m)]
        (d.call .onTleMsgFromMle (cmceDownlinkMsg m)) := congrArg (Daemon.record _ _) hback
  have hmoved := moved_record (d.call .onTleMsgFromMle (cmceDownlinkMsg m))
    [.handled .onTleMsg (cmceDownlinkMsg m)] (Posts.refl _)
  have hinv := hmoved.daemonInv hsent hsent.mle_init (fun _ hm => absurd hm List.not_mem_nil)
    (fun _ hm => absurd hm List.not_mem_nil) (hquiet .onTleMsg)
  rw [dispatch_some hnext, hcb, List.foldl_cons, List.foldl_cons, List.foldl_nil, hsecond]
  refine ⟨hinv.freed _, ?_⟩
  have hsame := hmoved.taken.trans (List.append_nil _)
  have hfirst := htaken.trans (List.append_nil _)
  rw [and_true]
  exact (congrArg (· = []) (hsame.trans hfirst)).to_iff

theorem step_ok {d : Daemon} (h : DaemonInv d) (op : DaemonOp) :
    StepOk d (d.step op) (TakesNoBody d op) := by
  cases op with
  | inject ind => exact step_inject h ind
  | cmce m => exact step_cmce h m
  | dispatch =>
    have hstep : d.step .dispatch = d.dispatch := rfl
    rw [hstep]
    cases hnext : d.bus.next with
    | none =>
      rw [dispatch_none hnext]
      refine ⟨h, fun ht => ⟨ht, fun req hreq => ?_⟩, fun ht => ht.1⟩
      rw [hnext] at hreq
      cases hreq
    | some next =>
      obtain ⟨p, msg⟩ := next
      have hmem : msg ∈ d.bus.pending p := by
        rw [pending_eq_cons hnext]
        exact List.mem_cons_self
      cases p with
      | high =>
        obtain ⟨req, rfl⟩ := h.high msg hmem
        obtain ⟨hinv, htaken⟩ := step_request h hnext
        refine ⟨hinv, htaken.trans (and_congr_right fun _ => ⟨fun hno req' hreq => ?_,
          fun hno => hno req hnext⟩)⟩
        rw [hnext] at hreq
        cases hreq
        exact hno
      | normal =>
        have hnone : TakesNoBody d .dispatch := by
          intro req hreq
          rw [hnext] at hreq
          cases hreq
        have hok : StepOk d d.dispatch True := by
          obtain ⟨t, rfl⟩ | ⟨m, rfl⟩ := h.normal msg hmem
          · exact step_up h hnext
          · exact step_downlink h hnext
        exact ⟨hok.inv, hok.taken.trans (and_congr_right fun _ => iff_of_true trivial hnone)⟩
      | low =>
        rw [h.low_nil] at hmem
        cases hmem

/-! Runs. -/

theorem daemonStarted_inv {cfg : MleCfg} {d : Daemon} (h : DaemonStarted cfg d) :
    DaemonInv d ∧ d.trace.filterMap takenBody = [] := by
  obtain ⟨⟨bus, bus1, bus2, hempty, hregs, hllc, hmle, hmm⟩, htrace⟩ := h
  obtain ⟨-, hr1, hp1⟩ := llcInit_ok hllc
  obtain ⟨hm, hr2, hp2⟩ := mleInit_ok hmle
  obtain ⟨-, hr3, hp3⟩ := mmInit_ok hmm
  have hnone : ∀ p, d.bus.pending p = [] := fun p =>
    (hp3 p).trans ((hp2 p).trans ((hp1 p).trans (hempty p)))
  refine ⟨⟨?_, by rw [hm], fun msg hmem => ?_, fun msg hmem => ?_, hnone _, fun e he => ?_⟩, ?_⟩
  · rw [hr3, hr2, hr1, hregs]
    rfl
  · rw [hnone] at hmem
    cases hmem
  · rw [hnone] at hmem
    cases hmem
  · rw [htrace] at he
    cases he
  · rw [htrace]
    rfl

/-- In the daemon everything is delivered as it should exactly as long as the LLC takes no body
at all. -/
theorem delivered_iff {cfg : MleCfg} {d : Daemon} (h : DaemonStarted cfg d)
    (ops : List DaemonOp) :
    Delivered (exec Daemon.step d ops) ↔ Along Daemon.step TakesNoBody d ops := by
  obtain ⟨hinv, hnone⟩ := daemonStarted_inv h
  have hrun := exec_invariant DaemonInv (fun d op hd _ => (step_ok hd op).inv) hinv
    (along_true Daemon.step d ops)
  rw [delivered_iff_none_taken hrun,
    exec_iff_along (P := fun d => d.trace.filterMap takenBody = []) (Q := TakesNoBody) DaemonInv
      (fun d op hd => (step_ok hd op).inv) (fun d op hd => (step_ok hd op).taken) hinv]
  exact ⟨fun hs => hs.2, fun hs => ⟨hnone, hs⟩⟩

/-- After the three inits on a bus of the daemon's size. -/
def daemonAfterInit : Daemon where
  llc := { initialised := true }
  mle := { initialised := true }
  mm := { initialised := true }
  bus := { msgbusInit Payload Handler 32 256 busQueueCapPerPrio_pos with regs := daemonRegs, regs_le := by decide }

theorem daemonAfterInit_started : DaemonStarted {} daemonAfterInit :=
  ⟨⟨msgbusInit Payload Handler 32 256 busQueueCapPerPrio_pos, _, _, fun p => by cases p <;> rfl, rfl, rfl,
    rfl, rfl⟩, rfl⟩

/-- A BL-DATA with N(S) = 0 that carries a location update demand of ISSI 5. -/
def demandFrame : TmaUnitdata where
  endpoint := 1
  addr := { ssi := 5, ssiType := .issi }
  reqHandle := 0
  sduLenBits := 18
  sduBits := [0x11, 0x20, 0x00]

/-- A BL-ACK only. -/
def ackFrame0 : TmaUnitdata where
  endpoint := 1
  addr := { ssi := 5, ssiType := .issi }
  reqHandle := 0
  sduLenBits := 5
  sduBits := [0x30]

theorem delivered_acks : Delivered (exec Daemon.step daemonAfterInit [.inject ackFrame0, .dispatch]) := by
  apply (delivered_iff daemonAfterInit_started _).2
  refine ⟨?_, ?_, trivial⟩
  · apply acceptedBody_eq_none.1
    decide +kernel
  · have hidle : (daemonAfterInit.inject ackFrame0).bus.next.isNone = true := by decide +kernel
    intro req hnext
    have hnone : (daemonAfterInit.inject ackFrame0).bus.next = none :=
      Option.isNone_iff_eq_none.1 hidle
    have hsome : (daemonAfterInit.inject ackFrame0).bus.next = some (.high, tmaUnitdataReq req) :=
      hnext
    rw [hnone] at hsome
    cases hsome

/-- The demand is taken and acknowledged; once the bus is drained the MLE has not seen it. -/
theorem demand_not_delivered :
    DaemonStarted {} daemonAfterInit ∧
      (exec Daemon.step daemonAfterInit [.inject demandFrame, .dispatch, .dispatch]).bus.next = none ∧
      ¬Delivered (exec Daemon.step daemonAfterInit [.inject demandFrame, .dispatch, .dispatch]) := by
  refine ⟨daemonAfterInit_started, ?_, fun hd => ?_⟩
  · have hnone : (exec Daemon.step daemonAfterInit
        [.inject demandFrame, .dispatch, .dispatch]).bus.next.isNone = true := by
      decide +kernel
    exact Option.isNone_iff_eq_none.1 hnone
  · have huplink := hd.uplink
    revert huplink
    decide +kernel

end TetraBs