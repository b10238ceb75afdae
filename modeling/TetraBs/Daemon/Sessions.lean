import TetraBs.Daemon.Pair

/-! The registration state of each ISSI, against the transitions its PDUs call for. -/
namespace TetraBs
open TetraBs.Bits TetraBs.Run

/-- What a received PDU is for the session of its ISSI. A detach is complete once received: no
answer to it is ever sent. -/
def uplinkEvents (m : TleSapMsg) : List MleEvt :=
  match mleRequest m with
  | some dec => [requestEvt dec]
  | none =>
    if mmTypeOf m = some MmPduTypeUl.uItsiDetach.value then [.detachReceived, .detachComplete]
    else []

/-- What a downlink PDU of MM is for the session of its ISSI. -/
def downlinkEvents (m : TleSapMsg) : List MleEvt :=
  if mmTypeOf m = some (dLocationUpdateAccept.setWidth 32) then [.acceptSent]
  else if mmTypeOf m = some (dAttachDetachGroupIdentityAck.setWidth 32) then [.grpAckSent]
  else []

def sessionEvents (issi : BitVec 32) : Event → List MleEvt
  | .arrived m =>
    if issi &&& tetraSsiMask24 = m.addr.ssi &&& tetraSsiMask24 then uplinkEvents m else []
  | .posted ⟨_, _, _, _, ⟨.mm, .tle m⟩⟩ =>
    if issi &&& tetraSsiMask24 = m.addr.ssi &&& tetraSsiMask24 then downlinkEvents m else []
  | _ => []

/-- The transition table run over the PDUs received from and posted to an ISSI. -/
def expectedState (d : Daemon) (issi : BitVec 32) : MleState :=
  (d.trace.flatMap (sessionEvents issi)).foldl mleFsmStep .idle

def SessionsFollow (d : Daemon) : Prop :=
  ∀ issi, sessionState d.mle issi = expectedState d issi

/-- The operation drops no event: a detach finds its session idle, a demand finds a session, and
no accept is posted for a session that waits for it. -/
def KeepsEvents (d : Daemon) : PairOp → Prop
  | .receive m =>
    (mmTypeOf m = some MmPduTypeUl.uItsiDetach.value → sessionState d.mle m.addr.ssi = .idle) ∧
      (MleEvt.demandReceived ∈ uplinkEvents m → HasSession d.mle m.addr.ssi)
  | .dispatch => ∀ pl, d.bus.next = some (.normal, mleRequestMsg pl) →
    pl.decoded.pduType = .uLocationUpdateDemand → UpRoom d.bus →
    sessionState d.mle pl.addr.ssi ≠ .attachPending

/-! Only two states occur. -/

def EarlyState (s : MleState) : Prop := s = .idle ∨ s = .attachPending

structure SessionInv (d : Daemon) : Prop where
  pair : PairInv d
  early : ∀ issi, EarlyState (sessionState d.mle issi)

theorem sessionState_congr (mle : Mle) {issi issi' : BitVec 32}
    (h : issi &&& tetraSsiMask24 = issi' &&& tetraSsiMask24) :
    sessionState mle issi = sessionState mle issi' := by
  rw [sessionState_eq, sessionState_eq, h]

theorem sessionState_no_session {mle : Mle} {issi : BitVec 32} (h : ¬HasSession mle issi) :
    sessionState mle issi = .idle := by
  unfold sessionState
  cases hl : mleSessionLookup mle issi with
  | none => rfl
  | some i =>
    exfalso
    apply h
    unfold HasSession mleSessionAlloc
    rw [hl]
    exact Option.some_ne_none i

theorem request_events {m : TleSapMsg} {dec : MmDecoded} (h : mleRequest m = some dec) :
    uplinkEvents m = [requestEvt dec] ∧
      mmTypeOf m ≠ some MmPduTypeUl.uItsiDetach.value ∧
      (requestEvt dec = .demandReceived ∨ requestEvt dec = .grpDemandReceived) := by
  refine ⟨by rw [uplinkEvents, h], ?_⟩
  obtain ⟨htype, hevt, -⟩ | ⟨htype, hevt, -⟩ := mleRequest_type h
  · rw [htype]
    exact ⟨by decide, Or.inl hevt⟩
  · rw [htype]
    exact ⟨by decide, Or.inr hevt⟩

theorem earlyState_request {s : MleState} {e : MleEvt} (hs : EarlyState s)
    (he : e = .demandReceived ∨ e = .grpDemandReceived) : EarlyState (mleFsmStep s e) := by
  obtain rfl | rfl := hs <;> obtain rfl | rfl := he
  · exact Or.inr rfl
  · exact Or.inl rfl
  · exact Or.inr rfl
  · exact Or.inr rfl

theorem sessionInv_step {d : Daemon} (h : SessionInv d) (op : PairOp) :
    SessionInv (d.pairStep op) := by
  refine ⟨pairStep_inv h.pair op, fun issi => ?_⟩
  cases op with
  | receive m =>
    have hstep : d.pairStep (.receive m) = d.receive m := rfl
    rw [hstep]
    cases receive_cases d m h.pair.mle_init with
    | ignored why mle_eq =>
      rw [mle_eq]
      exact h.early issi
    | requested dec request session fed =>
      rw [fed.state_eq]
      by_cases hk : issi &&& tetraSsiMask24 = m.addr.ssi &&& tetraSsiMask24
      · rw [if_pos hk]
        exact earlyState_request (h.early _) (request_events request).2.2
      · rw [if_neg hk]
        exact h.early issi
  | dispatch =>
    have hstep : d.pairStep .dispatch = d.dispatch := rfl
    rw [hstep]
    cases dispatch_cases h.pair with
    | idle next same =>
      rw [same]
      exact h.early issi
    | request pl next mid new answered same =>
      have hmle : (mid.freed .normal).mle = d.mle := answered.mle_eq
      rw [same, hmle]
      exact h.early issi
    | downlink m next same =>
      rw [same]
      exact h.early issi

/-! One step. -/

theorem expectedState_moved {d d' : Daemon} {es : List Event} {new : List (SapMsg Payload)}
    (h : Moved d d' es [] new) (issi : BitVec 32) :
    expectedState d' issi = ((es ++ new.map Event.posted).flatMap (sessionEvents issi)).foldl
      mleFsmStep (expectedState d issi) := by
  unfold expectedState
  rw [h.trace_eq, List.append_assoc, List.flatMap_append, List.foldl_append]

/-- A step with the events `es` for one ISSI and no change of any session. -/
theorem sessionsFollow_same {d d' : Daemon} (hok : SessionsFollow d) {key : BitVec 32}
    {es : List MleEvt} (hmle : d'.mle = d.mle)
    (hes : ∀ issi, expectedState d' issi =
      if issi &&& tetraSsiMask24 = key &&& tetraSsiMask24 then
        es.foldl mleFsmStep (expectedState d issi)
      else expectedState d issi) :
    SessionsFollow d' ↔ es.foldl mleFsmStep (sessionState d.mle key) = sessionState d.mle key := by
  unfold SessionsFollow
  rw [hmle]
  constructor
  · intro hs
    have hkey := hs key
    rw [hes, if_pos rfl, ← hok key] at hkey
    exact hkey.symm
  · intro hs issi
    rw [hes, ← hok issi]
    by_cases hk : issi &&& tetraSsiMask24 = key &&& tetraSsiMask24
    · rw [if_pos hk, sessionState_congr d.mle hk, hs]
    · rw [if_neg hk]

theorem detach_events {m : TleSapMsg} (h : mmTypeOf m = some MmPduTypeUl.uItsiDetach.value) :
    uplinkEvents m = [.detachReceived, .detachComplete] := by
  cases hr : mleRequest m with
  | none => rw [uplinkEvents, hr, if_pos h]
  | some dec => exact absurd h (request_events hr).2.1

theorem no_events {m : TleSapMsg} (hr : mleRequest m = none)
    (h : mmTypeOf m ≠ some MmPduTypeUl.uItsiDetach.value) : uplinkEvents m = [] := by
  rw [uplinkEvents, hr, if_neg h]

/-- A detach takes an early state to idle. -/
theorem detach_fold {s : MleState} (hs : EarlyState s) :
    [MleEvt.detachReceived, .detachComplete].foldl mleFsmStep s = s ↔ s = .idle := by
  obtain rfl | rfl := hs <;> decide

/-- What `KeepsEvents` says of a received PDU, as a fact about its events. -/
theorem uplink_fold {d : Daemon} (h : SessionInv d) {m : TleSapMsg}
    (hwhy : mleRequest m = none ∨ ¬HasSession d.mle m.addr.ssi) :
    (uplinkEvents m).foldl mleFsmStep (sessionState d.mle m.addr.ssi) =
      sessionState d.mle m.addr.ssi ↔ KeepsEvents d (.receive m) := by
  cases hr : mleRequest m with
  | some dec =>
    obtain ⟨hevts, hnot, hevt⟩ := request_events hr
    have hno : ¬HasSession d.mle m.addr.ssi := by
      obtain hnone | hno := hwhy
      · rw [hr] at hnone
        cases hnone
      · exact hno
    rw [KeepsEvents, hevts, sessionState_no_session hno]
    obtain he | he := hevt
    · rw [he]
      constructor
      · intro hidle
        cases hidle
      · intro hk
        exact absurd (hk.2 (List.mem_singleton_self _)) hno
    · rw [he]
      refine ⟨fun _ => ⟨fun ht => absurd ht hnot, fun hd => ?_⟩, fun _ => rfl⟩
      cases List.mem_singleton.1 hd
  | none =>
    by_cases ht : mmTypeOf m = some MmPduTypeUl.uItsiDetach.value
    · rw [KeepsEvents, detach_events ht, detach_fold (h.early _)]
      exact ⟨fun hidle => ⟨fun _ => hidle, fun hd => absurd hd (by decide)⟩, fun hk => hk.1 ht⟩
    · rw [KeepsEvents, no_events hr ht]
      exact ⟨fun _ => ⟨fun htype => absurd htype ht, fun hd => absurd hd List.not_mem_nil⟩,
        fun _ => rfl⟩

theorem expectedState_received {d d' : Daemon} {m : TleSapMsg} {pl : TlaSapPayload} {c : Prop}
    [Decidable c] (h : Moved d d' [.arrived m] [] (ifRoom c (mleRequestMsg pl))) (issi : BitVec 32) :
    expectedState d' issi =
      if issi &&& tetraSsiMask24 = m.addr.ssi &&& tetraSsiMask24 then
        (uplinkEvents m).foldl mleFsmStep (expectedState d issi)
      else expectedState d issi := by
  have hnew : ((ifRoom c (mleRequestMsg pl)).map Event.posted).flatMap (sessionEvents issi) = [] := by
    unfold ifRoom
    by_cases hc : c
    · rw [if_pos hc]
      rfl
    · rw [if_neg hc]
      rfl
  have harrived : [Event.arrived m].flatMap (sessionEvents issi) =
      if issi &&& tetraSsiMask24 = m.addr.ssi &&& tetraSsiMask24 then uplinkEvents m else [] :=
    List.append_nil _
  rw [expectedState_moved h, List.flatMap_append, hnew, List.append_nil, harrived]
  split <;> rfl

theorem sessionsFollow_receive {d : Daemon} (h : SessionInv d) (hok : SessionsFollow d)
    (m : TleSapMsg) : SessionsFollow (d.receive m) ↔ KeepsEvents d (.receive m) := by
  cases receive_cases d m h.pair.mle_init with
  | ignored why mle_eq db_eq moved =>
    have hnone : Moved d (d.receive m) [.arrived m] []
        (ifRoom False (mleRequestMsg (requestPayload m {}))) := by
      rw [ifRoom, if_neg not_false]
      exact moved
    rw [sessionsFollow_same hok mle_eq (expectedState_received hnone)]
    exact uplink_fold h why
  | requested dec request session fed db_eq moved =>
    obtain ⟨hevts, hnot, -⟩ := request_events request
    refine ⟨fun _ => ⟨fun ht => absurd ht hnot, fun _ => session⟩, fun _ issi => ?_⟩
    rw [fed.state_eq, expectedState_received moved, hevts, ← hok issi]
    by_cases hk : issi &&& tetraSsiMask24 = m.addr.ssi &&& tetraSsiMask24
    · rw [if_pos hk, if_pos hk, sessionState_congr d.mle hk]
      rfl
    · rw [if_neg hk, if_neg hk]

/-- What an answer is for the session, by the type of the request. -/
theorem answer_events {pl : TlaSapPayload} {m : TleSapMsg} (h : AnswerTo pl m) :
    pl.decoded.pduType = .uLocationUpdateDemand ∧ downlinkEvents m = [.acceptSent] ∨
      pl.decoded.pduType ≠ .uLocationUpdateDemand ∧ downlinkEvents m = [.grpAckSent] := by
  obtain ⟨t, ht, hm⟩ := h.type_eq
  rw [downlinkEvents, hm]
  cases hp : pl.decoded.pduType <;> rw [hp] at ht <;> cases ht
  · exact Or.inl ⟨rfl, rfl⟩
  · exact Or.inr ⟨MmPduTypeUl.noConfusion, rfl⟩

theorem accept_fold {s : MleState} (hs : EarlyState s) :
    [MleEvt.acceptSent].foldl mleFsmStep s = s ↔ s ≠ .attachPending := by
  obtain rfl | rfl := hs <;> decide

theorem grpAck_fold {s : MleState} (hs : EarlyState s) :
    [MleEvt.grpAckSent].foldl mleFsmStep s = s := by
  obtain rfl | rfl := hs <;> rfl

/-- The events of an answer, if one was posted. -/
theorem expectedState_answered {d d' : Daemon} {pl : TlaSapPayload} {new : List (SapMsg Payload)}
    (h : Answered d d' pl new) : ∃ es, (∀ issi, expectedState d' issi =
      if issi &&& tetraSsiMask24 = pl.addr.ssi &&& tetraSsiMask24 then
        es.foldl mleFsmStep (expectedState d issi)
      else expectedState d issi) ∧
      (es = [] ∧ (pl.decoded.pduType = .uLocationUpdateDemand → ¬UpRoom d.bus) ∨
        es = [.acceptSent] ∧ pl.decoded.pduType = .uLocationUpdateDemand ∧ UpRoom d.bus ∨
        es = [.grpAckSent] ∧ pl.decoded.pduType ≠ .uLocationUpdateDemand) := by
  have hquiet : new = [] → ∀ issi, expectedState d' issi =
      if issi &&& tetraSsiMask24 = pl.addr.ssi &&& tetraSsiMask24 then
        ([] : List MleEvt).foldl mleFsmStep (expectedState d issi)
      else expectedState d issi := by
    intro hnil issi
    rw [expectedState_moved h.moved, hnil]
    exact (ite_self _).symm
  obtain ⟨hnil, hne⟩ | ⟨m, hm, hnew⟩ := h.answer
  · exact ⟨[], hquiet hnil, Or.inl ⟨rfl, fun hd => absurd hd hne⟩⟩
  by_cases hroom : UpRoom d.bus
  · refine ⟨downlinkEvents m, fun issi => ?_, Or.inr ?_⟩
    · rw [expectedState_moved h.moved, hnew, ifRoom, if_pos hroom, ← hm.addr_eq]
      have hevts : ([Event.handled .onMmRequest (mleRequestMsg pl)] ++
          [mmDownlinkMsg m].map Event.posted).flatMap (sessionEvents issi) =
          if issi &&& tetraSsiMask24 = m.addr.ssi &&& tetraSsiMask24 then downlinkEvents m
          else [] := List.append_nil _
      rw [hevts]
      split <;> rfl
    · obtain ⟨hd, hes⟩ | ⟨hd, hes⟩ := answer_events hm
      · exact Or.inl ⟨hes, hd, hroom⟩
      · exact Or.inr ⟨hes, hd⟩
  · have hnil : new = [] := by
      rw [hnew, ifRoom, if_neg hroom]
    exact ⟨[], hquiet hnil, Or.inl ⟨rfl, fun _ => hroom⟩⟩

theorem sessionsFollow_dispatch {d : Daemon} (h : SessionInv d) (hok : SessionsFollow d) :
    SessionsFollow d.dispatch ↔ KeepsEvents d .dispatch := by
  cases dispatch_cases h.pair with
  | idle next same =>
    rw [same]
    refine ⟨fun _ pl hnext => ?_, fun _ => hok⟩
    rw [next] at hnext
    cases hnext
  | request pl next mid new answered same =>
    obtain ⟨es, hexp, hes⟩ := expectedState_answered answered
    have hfreed : SessionsFollow (mid.freed .normal) ↔ SessionsFollow mid := Iff.rfl
    have hkeeps : KeepsEvents d .dispatch ↔ (pl.decoded.pduType = .uLocationUpdateDemand →
        UpRoom d.bus → sessionState d.mle pl.addr.ssi ≠ .attachPending) := by
      refine ⟨fun hk => hk pl next, fun hk pl' hnext => ?_⟩
      rw [next] at hnext
      cases hnext
      exact hk
    rw [same, hfreed, sessionsFollow_same hok answered.mle_eq hexp, hkeeps]
    obtain ⟨rfl, hno⟩ | ⟨rfl, hd, hroom⟩ | ⟨rfl, hd⟩ := hes
    · exact ⟨fun _ htype hroom => absurd hroom (hno htype), fun _ => rfl⟩
    · rw [accept_fold (h.early _)]
      exact ⟨fun hne _ _ => hne, fun hk => hk hd hroom⟩
    · exact ⟨fun _ htype => absurd htype hd, fun _ => grpAck_fold (h.early _)⟩
  | downlink m next same =>
    have hfreed : SessionsFollow ((d.record [.handled .onTleMsg (mmDownlinkMsg m)] d).freed .normal) ↔
        SessionsFollow (d.record [.handled .onTleMsg (mmDownlinkMsg m)] d) := Iff.rfl
    rw [same, hfreed]
    refine ⟨fun _ pl hnext => ?_, fun _ issi => ?_⟩
    · rw [next] at hnext
      have hmsg := congrArg Prod.snd (Option.some.inj hnext)
      cases hmsg
    · rw [expectedState_moved (moved_record d _ (Posts.refl _)) issi]
      exact hok issi

/-- After every step of a run the sessions are where the transition table puts them exactly if
no step drops an event. -/
theorem sessions_follow_iff {cfg : MleCfg} {d : Daemon} (h : PairStarted cfg d)
    (ops : List PairOp) :
    Along Daemon.pairStep (fun d op => SessionsFollow (d.pairStep op)) d ops ↔
      Along Daemon.pairStep KeepsEvents d ops := by
  obtain ⟨hinv, hmle⟩ := pairStarted_inv h
  have hidle : ∀ issi, sessionState d.mle issi = .idle := by
    intro issi
    rw [hmle]
    unfold sessionState
    split <;> rfl
  have hok : SessionsFollow d := by
    intro issi
    rw [hidle, expectedState, h.trace_nil]
    rfl
  apply along_after_iff SessionInv (fun d op hd => sessionInv_step hd op) _
    ⟨hinv, fun issi => Or.inl (hidle issi)⟩ hok
  intro d op hd hp
  cases op with
  | receive m => exact sessionsFollow_receive hd hp m
  | dispatch => exact sessionsFollow_dispatch hd hp

theorem sessions_follow_demands :
    Along Daemon.pairStep (fun d op => SessionsFollow (d.pairStep op))
      (pairAfterInit {} { opened := true }) [.receive (demandFrom 5), .receive (demandFrom 6)] := by
  apply (sessions_follow_iff (pairAfterInit_started {} { opened := true }) _).2
  refine ⟨⟨fun ht => ?_, fun _ => ?_⟩, ⟨fun ht => ?_, fun _ => ?_⟩, trivial⟩
  · exact absurd ht (by decide +kernel)
  · decide +kernel
  · exact absurd ht (by decide +kernel)
  · decide +kernel

/-- U-ITSI-DETACH, behind the MM discriminator. -/
def detachFrom (issi : BitVec 32) : TleSapMsg where
  endpoint := 1
  addr := { ssi := issi, ssiType := .issi }
  pdu := { pduType := .blData, bodyLenBits := 7, body := [0x2C] }

def demandPending : Daemon := (pairAfterInit {} { opened := true }).receive (demandFrom 5)

theorem demandPending_state : sessionState demandPending.mle 5 = .attachPending := by decide +kernel

theorem demandPending_next : ∃ pl, demandPending.bus.next = some (.normal, mleRequestMsg pl) ∧
    pl.decoded.pduType = .uLocationUpdateDemand ∧ pl.addr.ssi = 5 ∧ UpRoom demandPending.bus := by
  have hstart := pairAfterInit_started {} { opened := true }
  cases receive_cases (pairAfterInit {} { opened := true }) (demandFrom 5) rfl with
  | ignored why =>
    exfalso
    revert why
    decide +kernel
  | requested dec request session fed db_eq moved =>
    have hroom : RequestRoom (pairAfterInit {} { opened := true }).bus := by decide +kernel
    have hposts := moved.posts
    rw [ifRoom, if_pos hroom] at hposts
    refine ⟨_, next_eq_normal hposts.high_eq hposts.normal_eq, ?_, rfl, ?_, ?_⟩
    · obtain ⟨-, -, htype⟩ | ⟨htype, -⟩ := mleRequest_type request
      · exact htype
      · exact absurd htype (by decide +kernel)
    · rw [demandPending, hposts.max_eq]
      decide
    · rw [demandPending, hposts.cap_eq, hposts.normal_eq]
      exact (by decide : 1 < 32)

/-- The accept was posted and the session still waits for it; the detach was received and the
session did not notice. -/
theorem accept_and_detach_dropped :
    PairStarted {} (pairAfterInit {} { opened := true }) ∧
      ¬Along Daemon.pairStep (fun d op => SessionsFollow (d.pairStep op))
        (pairAfterInit {} { opened := true }) [.receive (demandFrom 5), .dispatch] ∧
      ¬Along Daemon.pairStep (fun d op => SessionsFollow (d.pairStep op))
        (pairAfterInit {} { opened := true })
        [.receive (demandFrom 5), .receive (detachFrom 5)] := by
  have hstart := pairAfterInit_started {} { opened := true }
  have hinv : SessionInv demandPending := by
    refine sessionInv_step ⟨(pairStarted_inv hstart).1, fun issi => Or.inl ?_⟩
      (.receive (demandFrom 5))
    unfold sessionState
    split <;> rfl
  obtain ⟨pl, hnext, htype, hssi, hroom⟩ := demandPending_next
  refine ⟨hstart, fun hrun => ?_, fun hrun => ?_⟩
  · obtain ⟨h1, h2, -⟩ := hrun
    have hkeeps := (sessionsFollow_dispatch hinv h1).1 h2
    apply hkeeps pl hnext htype hroom
    rw [hssi]
    exact demandPending_state
  · obtain ⟨h1, h2, -⟩ := hrun
    have hkeeps := (sessionsFollow_receive hinv h1 (detachFrom 5)).1 h2
    have hidle := hkeeps.1 (by decide +kernel)
    have hstate : sessionState demandPending.mle (detachFrom 5).addr.ssi = .attachPending :=
      demandPending_state
    rw [hstate] at hidle
    cases hidle

end TetraBs
