import TetraBs.Daemon.Pair

/-! Access control: whose requests a cell closed to unknown subscribers forwards and answers. -/
namespace TetraBs
open TetraBs.Bits TetraBs.Run

/-- The ISSI whose request was forwarded to MM, or to whom an answer was posted. -/
def servedIssi : Event → Option (BitVec 32)
  | .posted ⟨_, _, _, _, ⟨.mle, .tla pl⟩⟩ => some pl.addr.ssi
  | .posted ⟨_, _, _, _, ⟨.mm, .tle m⟩⟩ => some m.addr.ssi
  | _ => none

/-- Only subscribers in the database were served. -/
def OnlyKnownServed (d : Daemon) : Prop :=
  ∀ e ∈ d.trace, ∀ issi ∈ servedIssi e, Known d.db (issi &&& tetraSsiMask24)

instance (d : Daemon) : Decidable (OnlyKnownServed d) :=
  inferInstanceAs (Decidable (∀ e ∈ d.trace, ∀ issi ∈ servedIssi e, _))

/-- A request of an unknown subscriber that finds a session and room on the bus. -/
def UnknownAdmitted (d : Daemon) (op : PairOp) : Prop :=
  ∃ m, op = .receive m ∧ mleRequest m ≠ none ∧ HasSession d.mle m.addr.ssi ∧ RequestRoom d.bus ∧
    ¬Known d.db (m.addr.ssi &&& tetraSsiMask24)

theorem servedIssi_request (pl : TlaSapPayload) :
    servedIssi (.posted (mleRequestMsg pl)) = some pl.addr.ssi := rfl

theorem servedIssi_downlink (m : TleSapMsg) :
    servedIssi (.posted (mmDownlinkMsg m)) = some m.addr.ssi := rfl

/-- The events of a step and the messages it posts, judged apart. -/
theorem onlyKnownServed_moved {d d' : Daemon} {es : List Event} {new : List (SapMsg Payload)}
    (h : Moved d d' es [] new) (hdb : d'.db = d.db) (hes : ∀ e ∈ es, servedIssi e = none) :
    OnlyKnownServed d' ↔ OnlyKnownServed d ∧ ∀ msg ∈ new, ∀ issi,
      servedIssi (.posted msg) = some issi → Known d.db (issi &&& tetraSsiMask24) := by
  rw [OnlyKnownServed]
  rw [h.trace_eq, hdb]
  constructor
  · intro hs
    refine ⟨fun e he => hs e (List.mem_append_left _ (List.mem_append_left _ he)),
      fun msg hm => hs _ (List.mem_append_right _ (List.mem_map.2 ⟨msg, hm, rfl⟩))⟩
  · rintro ⟨hold, hnew⟩ e he issi hissi
    obtain he | he := List.mem_append.1 he
    · obtain he | he := List.mem_append.1 he
      · exact hold e he issi hissi
      · rw [hes e he] at hissi
        cases hissi
    · obtain ⟨msg, hm, rfl⟩ := List.mem_map.1 he
      exact hnew msg hm issi hissi

theorem onlyKnownServed_receive {d : Daemon} (h : PairInv d)
    (hclosed : d.mle.cfg.acceptUnknown = false) (m : TleSapMsg) :
    OnlyKnownServed (d.receive m) ↔ OnlyKnownServed d ∧ ¬UnknownAdmitted d (.receive m) := by
  have hes : ∀ e ∈ [Event.arrived m], servedIssi e = none := by
    intro e he
    rw [List.mem_singleton.1 he]
    rfl
  cases receive_cases d m h.mle_init with
  | ignored why mle_eq db_eq moved =>
    rw [onlyKnownServed_moved moved db_eq hes]
    refine and_congr_right fun _ => ⟨fun _ hadm => ?_, fun _ msg hm => absurd hm List.not_mem_nil⟩
    obtain ⟨m', hop, hreq, hsess, -⟩ := hadm
    cases hop
    obtain hnone | hno := why
    · exact hreq hnone
    · exact hno hsess
  | requested dec request session fed db_eq moved =>
    rw [onlyKnownServed_moved moved (db_eq hclosed) hes]
    refine and_congr_right fun _ => ⟨fun hnew hadm => ?_, fun hadm msg hm issi hissi => ?_⟩
    · obtain ⟨m', hop, -, -, hroom, hunknown⟩ := hadm
      cases hop
      apply hunknown
      apply hnew (mleRequestMsg (requestPayload m dec)) _ _ (servedIssi_request _)
      rw [ifRoom, if_pos hroom]
      exact List.mem_singleton_self _
    · by_contra hunknown
      rw [mem_ifRoom hm, servedIssi_request] at hissi
      cases hissi
      refine hadm ⟨m, rfl, by rw [request]; exact Option.some_ne_none dec, session, ?_, hunknown⟩
      by_contra hroom
      rw [ifRoom, if_neg hroom] at hm
      cases hm

/-- MM answers nobody whose request was not forwarded. -/
theorem onlyKnownServed_dispatch {d : Daemon} (h : PairInv d) :
    OnlyKnownServed d.dispatch ↔ OnlyKnownServed d := by
  cases dispatch_cases h with
  | idle next same => rw [same]
  | request pl next mid new answered same =>
    have hfreed : OnlyKnownServed (mid.freed .normal) ↔ OnlyKnownServed mid := Iff.rfl
    have hes : ∀ e ∈ [Event.handled .onMmRequest (mleRequestMsg pl)], servedIssi e = none := by
      intro e he
      rw [List.mem_singleton.1 he]
      rfl
    rw [same, hfreed, onlyKnownServed_moved answered.moved answered.db_eq hes]
    refine ⟨fun hs => hs.1, fun hs => ⟨hs, fun msg hm issi hissi => ?_⟩⟩
    obtain ⟨m, rfl, hans⟩ := answered.pairMsg hm
    rw [servedIssi_downlink, hans.addr_eq] at hissi
    have hmem : mleRequestMsg pl ∈ d.bus.pending .normal := by
      rw [pending_eq_cons next]
      exact List.mem_cons_self
    exact hs _ (h.waiting _ hmem).2 issi hissi
  | downlink m next same =>
    have hfreed : OnlyKnownServed ((d.record [.handled .onTleMsg (mmDownlinkMsg m)] d).freed .normal) ↔
        OnlyKnownServed (d.record [.handled .onTleMsg (mmDownlinkMsg m)] d) := Iff.rfl
    have hes : ∀ e ∈ [Event.handled .onTleMsg (mmDownlinkMsg m)], servedIssi e = none := by
      intro e he
      rw [List.mem_singleton.1 he]
      rfl
    rw [same, hfreed, onlyKnownServed_moved (moved_record d _ (Posts.refl _)) rfl hes]
    exact ⟨fun hs => hs.1, fun hs => ⟨hs, fun msg hm => absurd hm List.not_mem_nil⟩⟩

theorem pairStep_cfg {d : Daemon} (h : PairInv d) (op : PairOp) :
    (d.pairStep op).mle.cfg = d.mle.cfg := by
  cases op with
  | receive m =>
    cases receive_cases d m h.mle_init with
    | ignored why mle_eq => exact congrArg Mle.cfg mle_eq
    | requested dec request session fed => exact fed.cfg_eq
  | dispatch =>
    have hstep : d.pairStep .dispatch = d.dispatch := rfl
    rw [hstep]
    cases dispatch_cases h with
    | idle next same => rw [same]
    | request pl next mid new answered same =>
      rw [same]
      exact congrArg Mle.cfg answered.mle_eq
    | downlink m next same => rw [same]; rfl

/-- A closed cell serves only subscribers of its database exactly as long as no request of an
unknown one finds a session and room on the bus. -/
theorem only_known_served_iff {cfg : MleCfg} {d : Daemon} (h : PairStarted cfg d)
    (hclosed : cfg.acceptUnknown = false) (ops : List PairOp) :
    OnlyKnownServed (exec Daemon.pairStep d ops) ↔
      Along Daemon.pairStep (fun d op => ¬UnknownAdmitted d op) d ops := by
  obtain ⟨hinv, hmle⟩ := pairStarted_inv h
  have hcfg : d.mle.cfg.acceptUnknown = false := by
    rw [hmle]
    exact hclosed
  rw [exec_iff_along (P := OnlyKnownServed) (Q := fun d op => ¬UnknownAdmitted d op)
    (fun d => PairInv d ∧ d.mle.cfg.acceptUnknown = false) ?_ ?_ ⟨hinv, hcfg⟩]
  · refine ⟨fun hs => hs.2, fun hs => ⟨fun e he => ?_, hs⟩⟩
    rw [h.trace_nil] at he
    cases he
  · intro d op hd
    exact ⟨pairStep_inv hd.1 op, (congrArg MleCfg.acceptUnknown (pairStep_cfg hd.1 op)).trans hd.2⟩
  · intro d op hd
    cases op with
    | receive m => exact onlyKnownServed_receive hd.1 hd.2 m
    | dispatch =>
      have hno : ¬UnknownAdmitted d .dispatch := by
        rintro ⟨m, hop, -⟩
        cases hop
      exact (onlyKnownServed_dispatch hd.1).trans ⟨fun hs => ⟨hs, hno⟩, fun hs => hs.1⟩

/-! A demand of ISSI 5 in a closed cell. -/

def memberDb (issi : BitVec 32) : SubscriberDb where
  entities i := if i.val = 0 then { entityId := issi, valid := true } else {}
  opened := true

theorem demandFrom_request : mleRequest (demandFrom 5) ≠ none := by decide +kernel

theorem only_known_served_member :
    OnlyKnownServed (exec Daemon.pairStep (pairAfterInit {} (memberDb 5))
      [.receive (demandFrom 5), .dispatch]) := by
  apply (only_known_served_iff (pairAfterInit_started {} (memberDb 5)) rfl _).2
  have hknown : Known (memberDb 5) ((demandFrom 5).addr.ssi &&& tetraSsiMask24) := by
    decide +kernel
  refine ⟨fun hadm => ?_, fun hadm => ?_, trivial⟩
  · obtain ⟨m, hop, -, -, -, hunknown⟩ := hadm
    cases hop
    exact hunknown hknown
  · obtain ⟨m, hop, -⟩ := hadm
    cases hop

/-- The demand is forwarded to MM although the database has no entity for ISSI 5. -/
theorem unknown_subscriber_served :
    PairStarted {} (pairAfterInit {} { opened := true }) ∧
      ¬OnlyKnownServed (exec Daemon.pairStep (pairAfterInit {} { opened := true })
        [.receive (demandFrom 5)]) := by
  have hstart := pairAfterInit_started {} { opened := true }
  refine ⟨hstart, fun hserved => ?_⟩
  have hnot := ((onlyKnownServed_receive (pairStarted_inv hstart).1 rfl (demandFrom 5)).1
    hserved).2
  apply hnot
  refine ⟨demandFrom 5, rfl, demandFrom_request, ?_, ?_, ?_⟩
  · decide +kernel
  · decide +kernel
  · decide +kernel

end TetraBs
