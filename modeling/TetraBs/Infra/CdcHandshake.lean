import TetraBs.Lib.Run
import TetraBs.Lib.Latch

/-! `cdc_handshake`: one word at a time between two clocks. One step is one rising edge of either
clock; the first register behind a toggle takes a value that the toggle had since the edge
before. -/
namespace TetraBs.Infra
open TetraBs.Run TetraBs.Toggle

/-- An edge of `src_clk` or of `dst_clk`, with what is taken of the other side's toggle. -/
inductive HandshakeEdge (α : Type*) where
  | src (srcValid : Bool) (srcData : α) (sample : Bool)
  | dst (dstAck : Bool) (sample : Bool)

structure CdcHandshake (α : Type*) where
  srcReqTog : Bool
  dataHold : α
  /-- `src_ack_meta`, `src_ack_sync`, `src_ack_seen` -/
  srcAck : Chain
  /-- `dst_req_meta`, `dst_req_sync`, `dst_req_q` -/
  dstReq : Chain
  dstAckTog : Bool
  dstValid : Bool

namespace CdcHandshake
variable {α : Type*}

/-- The `initial` blocks; `zeros` is the word of zeros. -/
def init (zeros : α) : CdcHandshake α := ⟨false, zeros, .zero, .zero, false, false⟩

variable (s : CdcHandshake α)

def srcReady : Bool := s.srcReqTog == s.srcAck.last
def dstData : α := s.dataHold

def step : HandshakeEdge α → CdcHandshake α
  | .src srcValid srcData sample =>
    let s' := { s with srcAck := s.srcAck.shift sample }
    if srcValid && s.srcReady then { s' with dataHold := srcData, srcReqTog := !s.srcReqTog }
    else s'
  | .dst dstAck sample =>
    { s with
      dstReq := s.dstReq.shift sample
      dstValid := s.dstReq.second ^^ s.dstReq.last
      dstAckTog := if dstAck then !s.dstAckTog else s.dstAckTog }

end CdcHandshake

/-- The handshake with its history. -/
structure WatchedHandshake (α : Type*) where
  hs : CdcHandshake α
  /-- Words accepted, and words for which `dst_valid` rose or stayed, one for each cycle of
  `dst_clk`. -/
  accepted : List α
  delivered : List α
  acked : Nat
  /-- The values of each toggle since the other side's previous sample. -/
  reqSeen : List Bool
  ackSeen : List Bool

namespace WatchedHandshake
variable {α : Type*}

def init (zeros : α) : WatchedHandshake α := ⟨.init zeros, [], [], 0, [false], [false]⟩

/-- A pulse has not been answered. -/
def pending (w : WatchedHandshake α) : Bool := w.acked < w.delivered.length

def step (w : WatchedHandshake α) : HandshakeEdge α → WatchedHandshake α
  | .src srcValid srcData sample =>
    let s' := w.hs.step (.src srcValid srcData sample)
    if srcValid && w.hs.srcReady then
      { w with
        hs := s'
        accepted := w.accepted ++ [srcData]
        reqSeen := w.reqSeen ++ [s'.srcReqTog]
        ackSeen := [s'.dstAckTog] }
    else { w with hs := s', ackSeen := [s'.dstAckTog] }
  | .dst dstAck sample =>
    let s' := w.hs.step (.dst dstAck sample)
    { w with
      hs := s'
      delivered := if s'.dstValid then w.delivered ++ [s'.dstData] else w.delivered
      acked := if dstAck then w.acked + 1 else w.acked
      reqSeen := [s'.srcReqTog]
      ackSeen := if dstAck then w.ackSeen ++ [s'.dstAckTog] else w.ackSeen }

/-- Samples are values the toggle had, and the consumer answers a pulse once. -/
def Allowed (w : WatchedHandshake α) : HandshakeEdge α → Prop
  | .src _ _ sample => sample ∈ w.ackSeen
  | .dst dstAck sample => sample ∈ w.reqSeen ∧ (dstAck = true → w.pending = true)

instance (w : WatchedHandshake α) (e : HandshakeEdge α) : Decidable (Allowed w e) :=
  match e with
  | .src _ _ sample => inferInstanceAs (Decidable (sample ∈ w.ackSeen))
  | .dst _ sample => inferInstanceAs (Decidable (sample ∈ w.reqSeen ∧ _))

/-- Where the word accepted last is. -/
inductive Stage (w : WatchedHandshake α) (n m : Nat) : Prop where
  /-- It has been answered; the answer may still be on its way. -/
  | answered (tog : w.hs.dstAckTog = w.hs.srcReqTog) (req : n = 0)
      (delivered : w.delivered = w.accepted) (acked : w.acked = w.accepted.length)
  /-- Its pulse has not been answered. -/
  | offered (tog : w.hs.dstAckTog ≠ w.hs.srcReqTog) (req : n = 0) (ack : m = 0)
      (delivered : w.delivered = w.accepted) (acked : w.acked + 1 = w.accepted.length)
      (data : w.accepted.getLast? = some w.hs.dataHold)
  /-- Its request is on its way. -/
  | requested (tog : w.hs.dstAckTog ≠ w.hs.srcReqTog) (req : 0 < n) (ack : m = 0)
      (delivered : w.accepted = w.delivered ++ [w.hs.dataHold])
      (acked : w.acked = w.delivered.length)

/-- `n` edges of `dst_clk` and `m` of `src_clk` at most until the toggles have come through. -/
structure Inv (w : WatchedHandshake α) (n m : Nat) : Prop where
  req : Crossing w.hs.srcReqTog w.reqSeen w.hs.dstReq n
  ack : Crossing w.hs.dstAckTog w.ackSeen w.hs.srcAck m
  stage : Stage w n m

theorem inv_init (zeros : α) : Inv (init zeros) 0 0 :=
  ⟨crossing_zero, crossing_zero, .answered rfl rfl rfl rfl⟩

variable {w : WatchedHandshake α} {n m : Nat}

/-- The source is ready when everything has come through. -/
theorem Inv.ready_iff (h : Inv w n m) :
    w.hs.srcReady = true ↔ m = 0 ∧ w.hs.dstAckTog = w.hs.srcReqTog := by
  have hlast := h.ack.third
  rw [CdcHandshake.srcReady, beq_iff_eq]
  by_cases htog : w.hs.dstAckTog = w.hs.srcReqTog
  · rw [← htog, eq_comm, hlast, and_iff_left rfl]
  · have hm : m = 0 := by
      cases h.stage with
      | answered tog => exact absurd tog htog
      | offered _ _ ack => exact ack
      | requested _ _ ack => exact ack
    rw [hlast.2 hm]
    exact iff_of_false (Ne.symm htog) fun heq => htog heq.2

theorem Inv.answered_of_tog (h : Inv w n m) (htog : w.hs.dstAckTog = w.hs.srcReqTog) :
    n = 0 ∧ w.delivered = w.accepted ∧ w.acked = w.accepted.length := by
  cases h.stage with
  | answered _ req delivered acked => exact ⟨req, delivered, acked⟩
  | offered tog => exact absurd htog tog
  | requested tog => exact absurd htog tog

theorem Inv.tog_of_answered (h : Inv w n m) (hall : w.acked = w.accepted.length) :
    w.hs.dstAckTog = w.hs.srcReqTog := by
  cases h.stage with
  | answered tog => exact tog
  | offered _ _ _ _ acked => omega
  | requested _ _ _ delivered acked =>
    rw [delivered, List.length_append, List.length_singleton] at hall
    omega

theorem Inv.offered_of_pending (h : Inv w n m) (hp : w.pending = true) :
    w.hs.dstAckTog ≠ w.hs.srcReqTog ∧ n = 0 ∧ m = 0 ∧ w.delivered = w.accepted ∧
      w.acked + 1 = w.accepted.length ∧ w.accepted.getLast? = some w.hs.dataHold := by
  have hlt : w.acked < w.delivered.length := of_decide_eq_true hp
  cases h.stage with
  | answered _ _ delivered acked =>
    rw [acked, delivered] at hlt
    exact absurd hlt (Nat.lt_irrefl _)
  | offered tog req ack delivered acked data => exact ⟨tog, req, ack, delivered, acked, data⟩
  | requested _ _ _ _ acked => exact absurd hlt (by omega)

/-- The pulse is raised only when the request has one edge to go. -/
theorem Inv.no_pulse (h : Inv w n m) (hn : n ≠ 1) :
    (w.hs.dstReq.second ^^ w.hs.dstReq.last) = false := by
  rw [← Bool.not_eq_true, h.req.edge_detected]
  exact hn

/-- Without a pulse that is still to be answered there is no answer. -/
theorem Allowed.dstAck_eq_false {dstAck sample : Bool} (h : Allowed w (.dst dstAck sample))
    (hle : w.delivered.length ≤ w.acked) : dstAck = false := by
  rw [← Bool.not_eq_true]
  intro ha
  have hlt : w.acked < w.delivered.length := of_decide_eq_true (h.2 ha)
  omega

theorem not_taken (srcValid : Bool) (h : ¬ w.hs.srcReady = true) :
    (srcValid && w.hs.srcReady) = false := by
  rw [Bool.eq_false_iff.2 h, Bool.and_false]

/-- An edge of `src_clk` that takes no word. -/
theorem Inv.step_src (h : Inv w n m) {srcValid sample : Bool} {srcData : α}
    (hs : sample ∈ w.ackSeen) (hno : (srcValid && w.hs.srcReady) = false) :
    ∃ m', m' ≤ m - 1 ∧ Inv (w.step (.src srcValid srcData sample)) n m' := by
  obtain ⟨m', hle, -, hack⟩ := h.ack.edge hs
  refine ⟨m', hle, ?_⟩
  simp only [step, CdcHandshake.step, hno, Bool.false_eq_true, if_false]
  refine ⟨h.req, hack, ?_⟩
  cases h.stage with
  | answered tog req delivered acked => exact .answered tog req delivered acked
  | offered tog req ack delivered acked data =>
    exact .offered tog req (by omega) delivered acked data
  | requested tog req ack delivered acked =>
    exact .requested tog req (by omega) delivered acked

/-- An edge of `src_clk` that takes a word. -/
theorem Inv.step_accept (h : Inv w n m) {srcValid sample : Bool} {srcData : α}
    (hs : sample ∈ w.ackSeen) (hgo : (srcValid && w.hs.srcReady) = true) :
    Inv (w.step (.src srcValid srcData sample)) 4 0 := by
  obtain ⟨m', hle, -, hack⟩ := h.ack.edge hs
  obtain ⟨rfl, htog⟩ := h.ready_iff.1 (Bool.and_eq_true_iff.1 hgo).2
  obtain ⟨rfl, hdelivered, hacked⟩ := h.answered_of_tog htog
  obtain rfl : m' = 0 := Nat.le_zero.1 hle
  simp only [step, CdcHandshake.step, hgo, if_true]
  refine ⟨h.req.toggle, hack, .requested ?_ (by decide) rfl ?_ ?_⟩
  · show w.hs.dstAckTog ≠ !w.hs.srcReqTog
    rw [htog]
    cases w.hs.srcReqTog <;> decide
  · show w.accepted ++ [srcData] = w.delivered ++ [srcData]
    rw [hdelivered]
  · show w.acked = w.delivered.length
    rw [hacked, hdelivered]

/-- An edge of `dst_clk` at which a pulse is answered. -/
theorem Inv.step_ack (h : Inv w n m) {sample : Bool} (hs : sample ∈ w.reqSeen)
    (hp : w.pending = true) : Inv (w.step (.dst true sample)) 0 4 := by
  obtain ⟨n', hle, -, hreq⟩ := h.req.edge hs
  obtain ⟨htog, rfl, rfl, hdelivered, hacked, -⟩ := h.offered_of_pending hp
  obtain rfl : n' = 0 := Nat.le_zero.1 hle
  have hvalid := h.no_pulse (by decide)
  simp only [step, CdcHandshake.step, hvalid, Bool.false_eq_true, if_false, if_true]
  refine ⟨hreq, h.ack.toggle, .answered ?_ rfl hdelivered hacked⟩
  exact (Bool.eq_not_of_ne (Ne.symm htog)).symm

/-- An edge of `dst_clk` without an answer; it raises the pulse when the request has come
through. -/
theorem Inv.step_dst (h : Inv w n m) {sample : Bool} (hs : sample ∈ w.reqSeen) :
    ∃ n', n' ≤ n - 1 ∧ Inv (w.step (.dst false sample)) n' m := by
  obtain ⟨n', hle, hzero, hreq⟩ := h.req.edge hs
  refine ⟨n', hle, ?_⟩
  simp only [step, CdcHandshake.step, Bool.false_eq_true, if_false]
  refine ⟨hreq, h.ack, ?_⟩
  cases h.stage with
  | answered tog req delivered acked =>
    simp only [h.no_pulse (by omega), Bool.false_eq_true, if_false]
    exact .answered tog (by omega) delivered acked
  | offered tog req ack delivered acked data =>
    simp only [h.no_pulse (by omega), Bool.false_eq_true, if_false]
    exact .offered tog (by omega) ack delivered acked data
  | requested tog req ack delivered acked =>
    by_cases hn : n = 1
    · simp only [h.req.edge_detected.2 hn, if_true]
      refine .offered tog (by omega) ack delivered.symm ?_ ?_
      · show w.acked + 1 = w.accepted.length
        rw [delivered, List.length_append, List.length_singleton, acked]
      · show w.accepted.getLast? = some w.hs.dataHold
        rw [delivered, List.getLast?_concat]
    · simp only [h.no_pulse hn, Bool.false_eq_true, if_false]
      exact .requested tog (by omega) ack delivered acked

theorem Inv.step (h : Inv w n m) {e : HandshakeEdge α} (he : Allowed w e) :
    ∃ n' m', Inv (w.step e) n' m' := by
  cases e with
  | src srcValid srcData sample =>
    cases hgo : srcValid && w.hs.srcReady with
    | true => exact ⟨4, 0, h.step_accept he hgo⟩
    | false =>
      obtain ⟨m', -, hinv⟩ := h.step_src he hgo
      exact ⟨n, m', hinv⟩
  | dst dstAck sample =>
    cases dstAck with
    | true => exact ⟨0, 4, h.step_ack he.1 (he.2 rfl)⟩
    | false =>
      obtain ⟨n', -, hinv⟩ := h.step_dst he.1
      exact ⟨n', m, hinv⟩

/-- Each word accepted is delivered by one pulse, in order; from the pulse to its answer
`dst_data` is that word, and `src_ready` is low until then. -/
structure DeliversOnce (w : WatchedHandshake α) : Prop where
  inOrder : w.delivered <+: w.accepted
  oneAhead : w.accepted.length ≤ w.delivered.length + 1
  answers : w.acked ≤ w.delivered.length ∧ w.delivered.length ≤ w.acked + 1
  held : w.pending = true → w.delivered.getLast? = some w.hs.dstData
  ready : w.hs.srcReady = true → w.acked = w.accepted.length

theorem Inv.deliversOnce (h : Inv w n m) : DeliversOnce w := by
  have hready : w.hs.srcReady = true → w.acked = w.accepted.length := fun hr =>
    (h.answered_of_tog (h.ready_iff.1 hr).2).2.2
  have hheld : w.pending = true → w.delivered.getLast? = some w.hs.dstData := by
    intro hp
    obtain ⟨-, -, -, hdelivered, -, hdata⟩ := h.offered_of_pending hp
    rw [hdelivered]
    exact hdata
  cases h.stage with
  | answered _ _ delivered acked =>
    refine ⟨?_, ?_, ?_, hheld, hready⟩
    · exact ⟨[], (List.append_nil _).trans delivered⟩
    · rw [delivered]
      exact Nat.le_succ _
    · rw [delivered, acked]
      exact ⟨Nat.le_refl _, Nat.le_succ _⟩
  | offered _ _ _ delivered acked =>
    refine ⟨?_, ?_, ?_, hheld, hready⟩
    · exact ⟨[], (List.append_nil _).trans delivered⟩
    · rw [delivered]
      exact Nat.le_succ _
    · rw [delivered, ← acked]
      exact ⟨Nat.le_succ _, Nat.le_refl _⟩
  | requested _ _ _ delivered acked =>
    refine ⟨?_, ?_, ?_, hheld, hready⟩
    · rw [delivered]
      exact List.prefix_append _ _
    · exact Nat.le_of_eq (by rw [delivered, List.length_append, List.length_singleton])
    · rw [acked]
      exact ⟨Nat.le_refl _, Nat.le_succ _⟩

/-! Progress: four edges of the other clock bring a toggle through. -/

def dstEdges : List (HandshakeEdge α) → Nat
  | [] => 0
  | .src .. :: es => dstEdges es
  | .dst .. :: es => dstEdges es + 1

def srcEdges : List (HandshakeEdge α) → Nat
  | [] => 0
  | .src .. :: es => srcEdges es + 1
  | .dst .. :: es => srcEdges es

theorem delivered_length_le_step (w : WatchedHandshake α) (e : HandshakeEdge α) :
    w.delivered.length ≤ (w.step e).delivered.length := by
  cases e with
  | src srcValid srcData sample =>
    rw [step]
    split
    · exact Nat.le_refl _
    · exact Nat.le_refl _
  | dst dstAck sample =>
    simp only [step]
    split
    · rw [List.length_append]
      exact Nat.le_add_right _ _
    · exact Nat.le_refl _

theorem delivered_length_le (w : WatchedHandshake α) (es : List (HandshakeEdge α)) :
    w.delivered.length ≤ (exec WatchedHandshake.step w es).delivered.length := by
  induction es generalizing w with
  | nil => exact Nat.le_refl _
  | cons e es ih => exact Nat.le_trans (delivered_length_le_step w e) (ih (w.step e))

/-- A word on its way is delivered when its request has come through. -/
theorem Inv.delivered_of_edges (h : Inv w n m) {es : List (HandshakeEdge α)}
    (hes : Along WatchedHandshake.step Allowed w es) (hn : n ≤ dstEdges es) :
    w.accepted.length ≤ (exec WatchedHandshake.step w es).delivered.length := by
  induction es generalizing w n m with
  | nil =>
    cases h.stage with
    | answered _ _ delivered => exact Nat.le_of_eq (congrArg List.length delivered.symm)
    | offered _ _ _ delivered => exact Nat.le_of_eq (congrArg List.length delivered.symm)
    | requested _ req => exact absurd hn (Nat.not_le.2 req)
  | cons e es ih =>
    obtain ⟨he, hrest⟩ := hes
    have hdone : w.delivered = w.accepted →
        w.accepted.length ≤ (exec WatchedHandshake.step w (e :: es)).delivered.length := by
      intro heq
      rw [← heq]
      exact delivered_length_le w (e :: es)
    cases h.stage with
    | answered _ _ delivered => exact hdone delivered
    | offered _ _ _ delivered => exact hdone delivered
    | requested tog req _ _ acked =>
      cases e with
      | src srcValid srcData sample =>
        have hno := not_taken srcValid fun hr => tog (h.ready_iff.1 hr).2
        obtain ⟨m', -, hinv⟩ := h.step_src he hno
        have haccepted : (w.step (.src srcValid srcData sample)).accepted = w.accepted := by
          simp only [WatchedHandshake.step, hno, Bool.false_eq_true, if_false]
        rw [← haccepted]
        exact ih hinv hrest hn
      | dst dstAck sample =>
        obtain rfl := he.dstAck_eq_false (Nat.le_of_eq acked.symm)
        obtain ⟨n', hle, hinv⟩ := h.step_dst he.1
        have hn' : n' ≤ dstEdges es := by
          rw [dstEdges] at hn
          omega
        exact ih hinv hrest hn'

/-- The source is ready again when the answer has come through. -/
theorem Inv.ready_of_edges (h : Inv w n m) {es : List (HandshakeEdge α)}
    (hes : Along WatchedHandshake.step Allowed w es) (hm : m ≤ srcEdges es)
    (htog : w.hs.dstAckTog = w.hs.srcReqTog) :
    ∃ pre, pre <+: es ∧ (exec WatchedHandshake.step w pre).hs.srcReady = true := by
  induction es generalizing w n m with
  | nil => exact ⟨[], List.nil_prefix, h.ready_iff.2 ⟨Nat.le_zero.1 hm, htog⟩⟩
  | cons e es ih =>
    obtain ⟨he, hrest⟩ := hes
    have hlater : (∃ pre, pre <+: es ∧
          (exec WatchedHandshake.step (w.step e) pre).hs.srcReady = true) →
        ∃ pre, pre <+: e :: es ∧ (exec WatchedHandshake.step w pre).hs.srcReady = true := by
      rintro ⟨pre, hpre, hready⟩
      exact ⟨e :: pre, List.cons_prefix_cons.2 ⟨rfl, hpre⟩, hready⟩
    by_cases hzero : m = 0
    · exact ⟨[], List.nil_prefix, h.ready_iff.2 ⟨hzero, htog⟩⟩
    · cases e with
      | src srcValid srcData sample =>
        have hno := not_taken srcValid fun hr => hzero (h.ready_iff.1 hr).1
        obtain ⟨m', hle, hinv⟩ := h.step_src he hno
        have htog' : (w.step (.src srcValid srcData sample)).hs.dstAckTog =
            (w.step (.src srcValid srcData sample)).hs.srcReqTog := by
          simp only [WatchedHandshake.step, CdcHandshake.step, hno, Bool.false_eq_true, if_false]
          exact htog
        rw [srcEdges] at hm
        exact hlater (ih hinv hrest (by omega) htog')
      | dst dstAck sample =>
        obtain ⟨-, hdelivered, hacked⟩ := h.answered_of_tog htog
        obtain rfl := he.dstAck_eq_false (Nat.le_of_eq (by rw [hdelivered, hacked]))
        obtain ⟨n', -, hinv⟩ := h.step_dst he.1
        exact hlater (ih hinv hrest hm htog)

theorem Inv.exec (h : Inv w n m) {es : List (HandshakeEdge α)}
    (hes : Along WatchedHandshake.step Allowed w es) :
    ∃ n' m', Inv (TetraBs.Run.exec WatchedHandshake.step w es) n' m' :=
  exec_invariant (fun w => ∃ n m, Inv w n m) (fun _ _ ⟨_, _, hw⟩ he => hw.step he) ⟨n, m, h⟩ hes

/-- In every state of a run the words are delivered once each; whatever `pre` of the run accepted
is delivered after four more edges of `dst_clk`, and where all of it is answered the source is
ready again within four edges of `src_clk`. -/
theorem handshake_delivers (zeros : α) {pre post : List (HandshakeEdge α)}
    (h : Along step Allowed (init zeros) (pre ++ post)) :
    DeliversOnce (exec step (init zeros) (pre ++ post)) ∧
    (4 ≤ dstEdges post → (exec step (init zeros) pre).accepted.length ≤
      (exec step (init zeros) (pre ++ post)).delivered.length) ∧
    (4 ≤ srcEdges post → (exec step (init zeros) pre).acked =
        (exec step (init zeros) pre).accepted.length →
      ∃ mid, mid <+: post ∧ (exec step (init zeros) (pre ++ mid)).hs.srcReady = true) := by
  obtain ⟨hpre, hpost⟩ := along_append.1 h
  obtain ⟨n, m, hinv⟩ := (inv_init zeros).exec hpre
  obtain ⟨n', m', hinv'⟩ := (inv_init zeros).exec h
  refine ⟨hinv'.deliversOnce, fun hedges => ?_, fun hedges hall => ?_⟩
  · rw [exec_append]
    exact hinv.delivered_of_edges hpost (Nat.le_trans hinv.req.le hedges)
  · obtain ⟨mid, hmid, hready⟩ := hinv.ready_of_edges hpost (Nat.le_trans hinv.ack.le hedges)
      (hinv.tog_of_answered hall)
    refine ⟨mid, hmid, ?_⟩
    rw [exec_append]
    exact hready

/-- A word over the first four edges; its answer, and a second word after it. -/
def oneWord : List (HandshakeEdge Nat) := [.src true 7 false]

def answerAndNext : List (HandshakeEdge Nat) :=
  [.dst false false, .dst false true, .src true 8 false, .dst false true, .dst false true,
   .dst true true, .src true 8 false, .src true 8 true, .src true 8 true, .src true 8 true,
   .src true 8 true]

example : (exec step (init 0) (oneWord ++ answerAndNext)).accepted = [7, 8] := by decide

example : (exec step (init 0) (oneWord ++ answerAndNext)).delivered = [7] := by decide

theorem handshake_delivers_oneWord :
    DeliversOnce (exec step (init 0) (oneWord ++ answerAndNext)) ∧
    (4 ≤ dstEdges answerAndNext → (exec step (init 0) oneWord).accepted.length ≤
      (exec step (init 0) (oneWord ++ answerAndNext)).delivered.length) ∧
    (4 ≤ srcEdges answerAndNext → (exec step (init 0) oneWord).acked =
        (exec step (init 0) oneWord).accepted.length →
      ∃ mid, mid <+: answerAndNext ∧
        (exec step (init 0) (oneWord ++ mid)).hs.srcReady = true) :=
  handshake_delivers 0 (by decide)

end WatchedHandshake
end TetraBs.Infra
