import TetraBs.Lib.Run
import TetraBs.Llc.Ops

/-! The LLC on its bus: its transmit requests go out under the key its own receive callback is
registered for. -/
namespace TetraBs
open TetraBs.Bits TetraBs.Run

/-- The entity on its bus. `rx` records, for the statements below, the messages
`on_tma_unitdata_ind` hands to `llc_handle_tma_unitdata_ind`. -/
structure LlcOnBus where
  env : LlcEnv
  rx : List (SapMsg Payload)

/-- Callbacks of other entities have no part in this system. -/
def LlcOnBus.call : Handler → SapMsg Payload → LlcOnBus → LlcOnBus
  | .onTmaUnitdataInd, msg, s =>
    ⟨onTmaUnitdataInd msg s.env, if indOf msg = none then s.rx else s.rx ++ [msg]⟩
  | .onTleMsgFromMle, msg, s => ⟨onTleMsgFromMle msg s.env, s.rx⟩
  | _, _, s => s

instance : BusHost LlcOnBus Payload Handler where
  bus s := s.env.bus
  setBus s bus := { s with env := { s.env with bus := bus } }
  call := LlcOnBus.call

/-- A post by another module, a call into the entity, or one dispatch. -/
inductive BusOp where
  | post (prio : MsgPriority) (src dest sap : SapId) (len : Nat) (data : SapData)
  | call (op : LlcOp)
  | dispatch

def LlcOnBus.step (s : LlcOnBus) : BusOp → LlcOnBus
  | .post prio src dest sap len data =>
    let bus := (msgbusPost s.env.bus prio ⟨src, dest, sap, len, ⟨.environment, data⟩⟩).1
    { s with env := { s.env with bus := bus } }
  | .call op => { s with env := op.run s.env }
  | .dispatch => (msgbusDispatchOne s).1

/-- The state `llc_init` leaves on a bus with nothing waiting. -/
structure Started (s : LlcOnBus) : Prop where
  init : ∃ bus : Bus, (∀ p, bus.pending p = []) ∧ llcInit bus = .ok (s.env.llc, s.env.bus)
  rx_nil : s.rx = []

/-- A transmit request of the LLC. -/
def OwnRequest (msg : SapMsg Payload) : Prop := ∃ req, msg = tmaUnitdataReq req

def OwnRequestNext (bus : Bus) : Prop := ∃ p msg, bus.next = some (p, msg) ∧ OwnRequest msg

/-- What holds between operations: the receive callback stays registered, and whatever carries
the LLC's name is a transmit request or a TLE message for the MLE. -/
structure BusInv (bus : Bus) : Prop where
  registered : ⟨.tmaSap, .tmaSap, .onTmaUnitdataInd⟩ ∈ bus.regs
  own : ∀ p, ∀ m ∈ bus.pending p, m.payload.poster = .llc →
    OwnRequest m ∨ ∃ t, m = tleSapMsgUp t

theorem OwnRequest.poster {msg : SapMsg Payload} (h : OwnRequest msg) :
    msg.payload.poster = .llc := by
  obtain ⟨req, rfl⟩ := h
  rfl

theorem OwnRequest.indOf {msg : SapMsg Payload} (h : OwnRequest msg) : indOf msg ≠ none := by
  obtain ⟨req, rfl⟩ := h
  exact Option.some_ne_none req

theorem indOf_tleSapMsgUp (t : TleSapMsg) : indOf (tleSapMsgUp t) = none := rfl

theorem mem_matchingRegs {bus : Bus} {msg : SapMsg Payload} {cb : Handler}
    (h : ⟨msg.dest, msg.sap, cb⟩ ∈ bus.regs) : cb ∈ matchingRegs bus msg := by
  rw [matchingRegs]
  rw [List.mem_map]
  exact ⟨_, List.mem_filter.2 ⟨h, by simp⟩, rfl⟩

theorem LlcPosts.inv {b b' : Bus} (h : LlcPosts b b') (hb : BusInv b) : BusInv b' := by
  obtain ⟨high, normal, hp, hh, hn⟩ := h
  refine ⟨hp.regs_eq ▸ hb.registered, fun p m hm hposter => ?_⟩
  cases p with
  | high =>
    rw [hp.high_eq] at hm
    obtain hm | hm := List.mem_append.1 hm
    · exact hb.own _ m hm hposter
    · exact Or.inl (hh m hm)
  | normal =>
    rw [hp.normal_eq] at hm
    obtain hm | hm := List.mem_append.1 hm
    · exact hb.own _ m hm hposter
    · exact Or.inr (hn m hm)
  | low =>
    rw [hp.low_eq] at hm
    exact hb.own _ m hm hposter

theorem busInv_post {b : Bus} (hb : BusInv b) (prio : MsgPriority) {msg : SapMsg Payload}
    (hmsg : msg.payload.poster = .environment) : BusInv (msgbusPost b prio msg).1 := by
  refine ⟨by rw [regs_post]; exact hb.registered, fun p m hm hposter => ?_⟩
  rw [pending_post] at hm
  obtain hm | hm := List.mem_append.1 hm
  · exact hb.own p m hm hposter
  · by_cases h : p = prio ∧ b.Accepts prio msg
    · rw [if_pos h, List.mem_singleton] at hm
      rw [hm, hmsg] at hposter
      cases hposter
    · rw [if_neg h] at hm
      cases hm

theorem busInv_advance {b : Bus} (hb : BusInv b) (p : MsgPriority) :
    BusInv (msgbusAdvance b p) := by
  refine ⟨by rw [regs_advance]; exact hb.registered, fun p' m hm hposter => ?_⟩
  rw [pending_advance] at hm
  by_cases h : p' = p
  · rw [if_pos h] at hm
    exact hb.own p' m (List.mem_of_mem_tail hm) hposter
  · rw [if_neg h] at hm
    exact hb.own p' m hm hposter

/-! The callbacks of one message. -/

theorem call_busInv {cb : Handler} {msg : SapMsg Payload} {s : LlcOnBus}
    (h : BusInv s.env.bus) : BusInv (LlcOnBus.call cb msg s).env.bus := by
  cases cb with
  | onTmaUnitdataInd => exact (onTmaUnitdataInd_llcPosts msg s.env).inv h
  | onTleMsgFromMle => exact (onTleMsgFromMle_llcPosts msg s.env).inv h
  | _ => exact h

/-- The log grows by copies of the message, and by at least one if it goes to the receive
callback. -/
theorem foldl_call_rx (cbs : List Handler) (msg : SapMsg Payload) (s : LlcOnBus)
    (h : BusInv s.env.bus) :
    ∃ k, BusInv (cbs.foldl (fun s cb => LlcOnBus.call cb msg s) s).env.bus ∧
      (cbs.foldl (fun s cb => LlcOnBus.call cb msg s) s).rx = s.rx ++ List.replicate k msg ∧
      (k ≠ 0 → indOf msg ≠ none) ∧
      (.onTmaUnitdataInd ∈ cbs → indOf msg ≠ none → k ≠ 0) := by
  induction cbs generalizing s with
  | nil => exact ⟨0, h, by simp, fun h => absurd rfl h, fun h => absurd h List.not_mem_nil⟩
  | cons cb cbs ih =>
    obtain ⟨k, hinv, hrx, hk, hk'⟩ := ih (LlcOnBus.call cb msg s) (call_busInv h)
    rw [List.foldl_cons]
    by_cases hind : cb = .onTmaUnitdataInd ∧ indOf msg ≠ none
    · obtain ⟨rfl, hind⟩ := hind
      refine ⟨k + 1, hinv, ?_, fun _ => hind, fun _ _ => Nat.succ_ne_zero k⟩
      rw [hrx, LlcOnBus.call, if_neg hind, List.append_assoc, List.replicate_succ]
      rfl
    · have hsame : (LlcOnBus.call cb msg s).rx = s.rx := by
        cases cb with
        | onTmaUnitdataInd =>
          have hnone : indOf msg = none := by
            by_contra hne
            exact hind ⟨rfl, hne⟩
          rw [LlcOnBus.call, if_pos hnone]
        | _ => rfl
      refine ⟨k, hinv, by rw [hrx, hsame], hk, fun hmem hne => ?_⟩
      obtain heq | hmem := List.mem_cons.1 hmem
      · exact absurd ⟨heq.symm, hne⟩ hind
      · exact hk' hmem hne

theorem dispatch_env {s : LlcOnBus} {p : MsgPriority} {msg : SapMsg Payload}
    (h : s.env.bus.next = some (p, msg)) :
    (s.step .dispatch).rx = ((matchingRegs s.env.bus msg).foldl
        (fun s cb => LlcOnBus.call cb msg s) s).rx ∧
      (s.step .dispatch).env.bus = msgbusAdvance ((matchingRegs s.env.bus msg).foldl
        (fun s cb => LlcOnBus.call cb msg s) s).env.bus p := by
  have hb : (BusHost.bus s : Bus) = s.env.bus := rfl
  rw [LlcOnBus.step, msgbusDispatchOne_eq, hb, h]
  exact ⟨rfl, rfl⟩

theorem dispatch_idle {s : LlcOnBus} (h : s.env.bus.next = none) : s.step .dispatch = s := by
  have hb : (BusHost.bus s : Bus) = s.env.bus := rfl
  rw [LlcOnBus.step, msgbusDispatchOne_eq, hb, h]

/-- The LLC was never handed a message of its own. -/
def NoSelfReception (s : LlcOnBus) : Prop := ∀ m ∈ s.rx, m.payload.poster ≠ .llc

instance (s : LlcOnBus) : Decidable (NoSelfReception s) :=
  inferInstanceAs (Decidable (∀ m ∈ s.rx, _))

/-- A step keeps the bus in order, and keeps the log clean exactly if it does not dispatch an
own request. -/
theorem step_inv (s : LlcOnBus) (op : BusOp) (h : BusInv s.env.bus) :
    BusInv (s.step op).env.bus ∧ (NoSelfReception (s.step op) ↔
      NoSelfReception s ∧ (op = .dispatch → ¬OwnRequestNext s.env.bus)) := by
  cases op with
  | post prio src dest sap len data =>
    exact ⟨busInv_post h prio rfl, by simp [LlcOnBus.step, NoSelfReception]⟩
  | call op => exact ⟨(op.llcPosts s.env).inv h, by simp [LlcOnBus.step, NoSelfReception]⟩
  | dispatch =>
    cases hnext : s.env.bus.next with
    | none =>
      rw [dispatch_idle hnext]
      refine ⟨h, fun hs => ⟨hs, fun _ hown => ?_⟩, fun hs => hs.1⟩
      obtain ⟨p, msg, heq, -⟩ := hown
      rw [hnext] at heq
      cases heq
    | some next =>
      obtain ⟨p, msg⟩ := next
      obtain ⟨hrx, hbus⟩ := dispatch_env hnext
      obtain ⟨k, hinv, hlog, hk, hk'⟩ := foldl_call_rx (matchingRegs s.env.bus msg) msg s h
      have hown : OwnRequestNext s.env.bus ↔ OwnRequest msg := by
        refine ⟨fun ⟨p', m, heq, hm⟩ => ?_, fun hm => ⟨p, msg, hnext, hm⟩⟩
        rw [hnext] at heq
        cases heq
        exact hm
      refine ⟨hbus ▸ busInv_advance hinv p, ?_⟩
      rw [NoSelfReception]
      rw [hrx, hlog, hown]
      refine ⟨fun hs => ⟨fun m hm => hs m (List.mem_append_left _ hm), fun _ hm => ?_⟩,
        fun hs m hm => ?_⟩
      · -- an own request carries the key of the receive callback
        have hkey : .onTmaUnitdataInd ∈ matchingRegs s.env.bus msg := by
          obtain ⟨req, rfl⟩ := hm
          exact mem_matchingRegs h.registered
        have hmem : msg ∈ List.replicate k msg :=
          List.mem_replicate.2 ⟨hk' hkey hm.indOf, rfl⟩
        exact hs msg (List.mem_append_right _ hmem) hm.poster
      · obtain hm | hm := List.mem_append.1 hm
        · exact hs.1 m hm
        · obtain ⟨hne, rfl⟩ := List.mem_replicate.1 hm
          intro hposter
          have hpend : m ∈ s.env.bus.pending p := by
            rw [pending_eq_cons hnext]
            exact List.mem_cons_self
          obtain hreq | ⟨t, rfl⟩ := h.own p m hpend hposter
          · exact hs.2 rfl hreq
          · exact hk hne (indOf_tleSapMsgUp t)

theorem started_inv {s : LlcOnBus} (h : Started s) : BusInv s.env.bus ∧ NoSelfReception s := by
  obtain ⟨⟨bus, hempty, hinit⟩, hrx⟩ := h
  obtain ⟨-, hregs, hpend⟩ := llcInit_ok hinit
  refine ⟨⟨?_, fun p m hm => ?_⟩, fun m hm => ?_⟩
  · rw [hregs]
    simp
  · rw [hpend, hempty] at hm
    cases hm
  · rw [hrx] at hm
    cases hm

/-- Along a run from `llc_init` the LLC is handed none of its own requests exactly if no
dispatch is made while one of them is next on the bus. -/
theorem no_self_reception_iff {s : LlcOnBus} (h : Started s) (ops : List BusOp) :
    NoSelfReception (exec LlcOnBus.step s ops) ↔
      Along LlcOnBus.step (fun s op => op = .dispatch → ¬OwnRequestNext s.env.bus) s ops := by
  obtain ⟨hinv, hclean⟩ := started_inv h
  rw [exec_iff_along (fun s => BusInv s.env.bus) (fun s op hs => (step_inv s op hs).1)
    (fun s op hs => (step_inv s op hs).2) hinv]
  exact ⟨fun h => h.2, fun h => ⟨hclean, h⟩⟩

/-- After `llc_init` on an empty bus. -/
def llcAfterInit : LlcOnBus where
  env := ⟨{ initialised := true }, { msgbusInit Payload Handler 32 256 busQueueCapPerPrio_pos with
    regs := [⟨.tmaSap, .tmaSap, .onTmaUnitdataInd⟩, ⟨.tmaSap, .tleSap, .onTleMsgFromMle⟩]
    regs_le := by decide }, 0⟩
  rx := []

theorem llcAfterInit_started : Started llcAfterInit :=
  ⟨⟨msgbusInit Payload Handler 32 256 busQueueCapPerPrio_pos, fun p => by cases p <;> rfl, rfl⟩, rfl⟩

theorem no_self_reception_sent_only :
    NoSelfReception (exec LlcOnBus.step llcAfterInit [.call (.sendBlData 1 {} [0xA5] 8)]) := by
  apply (no_self_reception_iff llcAfterInit_started _).2
  constructor
  · intro h
    cases h
  · trivial

/-- One sent BL-DATA and one dispatch: the LLC receives its own frame, advances N(R), passes
the body up and acknowledges it. -/
theorem sent_frame_received :
    Started llcAfterInit ∧
      ¬NoSelfReception (exec LlcOnBus.step llcAfterInit
        [.call (.sendBlData 1 {} [0xA5] 8), .dispatch]) ∧
      ((exec LlcOnBus.step llcAfterInit
        [.call (.sendBlData 1 {} [0xA5] 8), .dispatch]).env.llc.view 1).nrExpected = true ∧
      ((exec LlcOnBus.step llcAfterInit
        [.call (.sendBlData 1 {} [0xA5] 8), .dispatch]).env.bus.pending .normal).length = 1 ∧
      ((exec LlcOnBus.step llcAfterInit
        [.call (.sendBlData 1 {} [0xA5] 8), .dispatch]).env.bus.pending .high).length = 1 := by
  refine ⟨llcAfterInit_started, ?_⟩
  decide +kernel

end TetraBs
