import TetraBs.Core.Sap
import TetraBs.Dma.Receive

/-! `ml_drain_dma_chan` of the main loop: what is left of a channel when it returns. -/
namespace TetraBs.Dma
open TetraBs.Bits TetraBs.Infra TetraBs.Incremental TetraBs.Run

def ML_RX_BUF_BYTES : Nat := 4096

def EBADMSG : Int := 74
def ENOSPC : Int := 28

/-- The return code of a call. -/
def CallResult.rc : CallResult → Int
  | .found (.frame payload) => payload.length
  | .found .badMagic => -EBADMSG
  | .found .badLength => -EBADMSG
  | .found .noSpace => -ENOSPC
  | .noData => 0
  | .sysError errno => -errno

/-- What a call leaves in `buf`, as far as `*out_len` says. -/
def CallResult.body : CallResult → List Byte
  | .found (.frame payload) => payload
  | _ => []

/-- `timeout_ms` 0 on a pipe that holds `pipe`: a read takes what is there. -/
def pollOnce (pipe : List Byte) : Call :=
  ⟨true, if pipe = [] then [.timeout] else [.data pipe.length]⟩

def mlDispatchTmaRx (body : List Byte) : TmaUnitdata :=
  let body := body.take tmaSduMaxBytes
  { endpoint := 1
    addr := { ssi := 0, ssiType := .issi }
    reqHandle := 0
    sduLenBits := body.length * 8
    sduBits := body ++ List.replicate (tmaSduMaxBytes - body.length) 0 }

/-- What a channel's frame is handed on as. -/
def dispatch (ch : DmaChan) (body : List Byte) : List TmaUnitdata :=
  if ch = .tmaRx then [mlDispatchTmaRx body] else []

/-- The channel, the bytes ready in its pipe, and what was handed to the LLC. -/
structure Drained where
  chan : DmaChanState
  pipe : List Byte
  handed : List TmaUnitdata

/-- The loop. `arrivals` are the bytes the peer writes before each call's poll. -/
def drainLoop (ch : DmaChan) :
    Nat → DmaChanState → List Byte → List (List Byte) → Option Drained
  | 0, _, _, _ => none
  | fuel + 1, s, pipe, arrivals =>
    let pipe := pipe ++ arrivals.headD []
    let (r, s', pipe') := dmaRecvFrame s pipe ML_RX_BUF_BYTES (pollOnce pipe)
    if r.rc ≤ 0 ∧ r.body.length = 0 then some ⟨s', pipe', []⟩
    else if r.rc < 0 then some ⟨s', pipe', []⟩
    else
      (drainLoop ch fuel s' pipe' arrivals.tail).map fun d =>
        { d with handed := dispatch ch r.body ++ d.handed }

def mlDrainDmaChan (ch : DmaChan) (s : DmaChanState) (pipe : List Byte)
    (arrivals : List (List Byte)) : Option Drained :=
  drainLoop ch (s.reasm.length + pipe.length + arrivals.flatten.length + 1) s pipe arrivals

/-! One call in the loop takes the next result off the bytes at hand. -/

theorem parse_progress : Progress (parse ML_RX_BUF_BYTES) := by
  intro b o n h
  rcases Nat.lt_or_ge b.length DMA_FRAME_HEADER_BYTES with hs | hs
  · rw [parse_short hs] at h
    cases h
  · cases hm : frameMagicIsKnown (be32Load b) with
    | false =>
      rw [parse_unknown hs hm] at h
      cases h
      exact Nat.one_pos
    | true =>
      rcases Nat.lt_or_ge DMA_FRAME_MAX_PAYLOAD (declaredLen b) with hl | hl
      · rw [parse_long hs hm hl] at h
        cases h
        decide
      · rw [parse_fitting hs hm hl] at h
        split at h
        · cases h
        · have hcap : ¬ ML_RX_BUF_BYTES < declaredLen b := Nat.not_lt.2 hl
          rw [if_neg hcap] at h
          cases h
          exact Nat.add_pos_left (by decide) _

/-- A full staging buffer always yields. -/
theorem parse_none_short {bs : List Byte} (h : parse ML_RX_BUF_BYTES bs = none) :
    bs.length < DMA_REASM_CAP := by
  rcases Nat.lt_or_ge bs.length DMA_FRAME_HEADER_BYTES with hs | hs
  · exact hs.trans (by decide)
  · cases hm : frameMagicIsKnown (be32Load bs) with
    | false =>
      rw [parse_unknown hs hm] at h
      cases h
    | true =>
      rcases Nat.lt_or_ge DMA_FRAME_MAX_PAYLOAD (declaredLen bs) with hl | hl
      · rw [parse_long hs hm hl] at h
        cases h
      · rw [parse_fitting hs hm hl] at h
        split at h
        · unfold DMA_REASM_CAP
          omega
        · split at h <;> cases h

variable {s : DmaChanState} {pipe : List Byte}

theorem reasmReadOne_append (s : DmaChanState) (pipe : List Byte) (n : Nat) :
    (reasmReadOne s pipe n).1.reasm ++ (reasmReadOne s pipe n).2.1 = s.reasm ++ pipe := by
  rw [reasmReadOne_pipe]
  change s.reasm ++ pipe.take _ ++ _ = s.reasm ++ pipe
  rw [List.append_assoc, List.take_append_drop]

/-- A read of everything at hand shows the parser what the whole of it would. -/
theorem parse_readOne (s : DmaChanState) (pipe : List Byte) :
    parse ML_RX_BUF_BYTES (reasmReadOne s pipe pipe.length).1.reasm =
      parse ML_RX_BUF_BYTES (s.reasm ++ pipe) := by
  have happ := reasmReadOne_append s pipe pipe.length
  cases hp : parse ML_RX_BUF_BYTES (reasmReadOne s pipe pipe.length).1.reasm with
  | some r => rw [← happ, parse_stable _ |>.append _ hp]
  | none =>
    -- the buffer is not full, so the read took the whole pipe
    have hshort := parse_none_short hp
    change (s.reasm ++ pipe.take _).length < _ at hshort
    rw [List.length_append, List.length_take] at hshort
    have htake : pipe.take (min pipe.length (DMA_REASM_CAP - s.reasm.length)) = pipe :=
      List.take_of_length_le (by omega)
    have hsame : (reasmReadOne s pipe pipe.length).1.reasm = s.reasm ++ pipe := by
      change s.reasm ++ pipe.take _ = _
      rw [htake]
    rw [← hsame, hp]

theorem reasmReadOne_got (h : parse ML_RX_BUF_BYTES s.reasm = none) (hpipe : pipe ≠ []) :
    (reasmReadOne s pipe pipe.length).2.2 ≠ 0 := by
  have hroom := parse_none_short h
  have hpos := List.length_pos_iff.2 hpipe
  change (pipe.take _).length ≠ 0
  rw [List.length_take]
  omega

/-- One call of the drain takes the next result off the bytes at hand. -/
theorem dmaRecvFrame_pollOnce (s : DmaChanState) (pipe : List Byte) :
    (parse ML_RX_BUF_BYTES (s.reasm ++ pipe) = none ∧ ∃ s' pipe',
      dmaRecvFrame s pipe ML_RX_BUF_BYTES (pollOnce pipe) = (.noData, s', pipe') ∧
        s'.reasm ++ pipe' = s.reasm ++ pipe) ∨
    ∃ o n s' pipe', parse ML_RX_BUF_BYTES (s.reasm ++ pipe) = some (o, n) ∧
      dmaRecvFrame s pipe ML_RX_BUF_BYTES (pollOnce pipe) = (.found o, s', pipe') ∧
        s'.reasm ++ pipe' = (s.reasm ++ pipe).drop n := by
  rcases reasmTryExtract_spec s ML_RX_BUF_BYTES with ⟨hp, he⟩ | ⟨o, n, s', hp, he, hr, -⟩
  · by_cases hpipe : pipe = []
    · refine .inl ⟨by rw [hpipe, List.append_nil, hp], s, pipe, ?_, rfl⟩
      rw [dmaRecvFrame, he, pollOnce, if_pos hpipe]
      rfl
    · have hgot := reasmReadOne_got hp hpipe
      have happ := reasmReadOne_append s pipe pipe.length
      rw [← parse_readOne s pipe, dmaRecvFrame, he, pollOnce, if_neg hpipe, ← happ]
      simp only [recvLoop, hgot, if_false]
      rcases reasmTryExtract_spec (reasmReadOne s pipe pipe.length).1 ML_RX_BUF_BYTES with
        ⟨hp', he'⟩ | ⟨o, n, s', hp', he', hr, -⟩
      · exact .inl ⟨hp', _, _, by rw [he']; rfl, rfl⟩
      · refine .inr ⟨o, n, s', _, hp', by rw [he'], ?_⟩
        rw [hr, List.drop_append_of_le_length ((parse_stable _).le hp')]
  · refine .inr ⟨o, n, s', pipe, (parse_stable _).append pipe hp, ?_, ?_⟩
    · rw [dmaRecvFrame, he]
    · rw [hr, List.drop_append_of_le_length ((parse_stable _).le hp)]

/-! What the loop leaves behind. -/

/-- A frame with a payload: the loop goes on after it. -/
def Found.carries : Found → Bool
  | .frame payload => payload ≠ []
  | _ => false

def onStream (bs : List Byte) : List Found := results (parse ML_RX_BUF_BYTES) bs

/-- A complete frame is in `bs`, where the receiver looks for it. -/
def FrameIn (bs : List Byte) : Prop := ∃ o ∈ onStream bs, o.isFrame = true

/-- The bytes at hand when call `k` polls, less what earlier calls took. -/
def arrived (bs : List Byte) (arrivals : List (List Byte)) (k : Nat) : List Byte :=
  bs ++ (arrivals.take (k + 1)).flatten

/-- Call `k` comes to the result `o`, with `behind` at hand behind it: all results before are
frames with a payload, each there in time for its call. -/
structure Meets (bs : List Byte) (arrivals : List (List Byte)) (k : Nat) (o : Found)
    (behind : List Found) : Prop where
  here : ∃ before, before.length = k ∧ (∀ x ∈ before, x.carries = true) ∧
    onStream (arrived bs arrivals k) = before ++ o :: behind
  inTime : ∀ j < k, j < (onStream (arrived bs arrivals j)).length

/-- No complete frame is at hand behind the first result that is no frame with a payload. -/
def NoFrameBehindStop (bs : List Byte) (arrivals : List (List Byte)) : Prop :=
  ∀ k o behind, Meets bs arrivals k o behind → o.carries = false → ∀ x ∈ behind, x.isFrame = false

theorem onStream_none {bs : List Byte} (h : parse ML_RX_BUF_BYTES bs = none) : onStream bs = [] :=
  results_none h

theorem onStream_some {bs : List Byte} {o : Found} {n : Nat}
    (h : parse ML_RX_BUF_BYTES bs = some (o, n)) : onStream bs = o :: onStream (bs.drop n) :=
  results_some (parse_stable _) parse_progress h

theorem arrived_zero (bs : List Byte) (arrivals : List (List Byte)) :
    arrived bs arrivals 0 = bs ++ arrivals.headD [] := by
  cases arrivals with
  | nil => rfl
  | cons a as => simp [arrived]

theorem arrived_succ (bs : List Byte) (arrivals : List (List Byte)) (k : Nat) :
    arrived bs arrivals (k + 1) =
      arrived bs arrivals 0 ++ (arrivals.tail.take (k + 1)).flatten := by
  cases arrivals with
  | nil => simp [arrived]
  | cons a as => simp [arrived]

section
variable {bs : List Byte} {arrivals : List (List Byte)} {o : Found} {n : Nat}

/-- What is read first stays first as more arrives. -/
theorem onStream_arrived (h : parse ML_RX_BUF_BYTES (arrived bs arrivals 0) = some (o, n))
    (k : Nat) : onStream (arrived bs arrivals (k + 1)) =
      o :: onStream (arrived ((arrived bs arrivals 0).drop n) arrivals.tail k) := by
  have hlong := (parse_stable _).append (arrivals.tail.take (k + 1)).flatten h
  rw [arrived_succ, onStream_some hlong, List.drop_append_of_le_length ((parse_stable _).le h)]
  rfl

theorem meets_none (h : parse ML_RX_BUF_BYTES (arrived bs arrivals 0) = none) {k : Nat}
    {x : Found} {behind : List Found} : ¬ Meets bs arrivals k x behind := by
  intro hm
  cases k with
  | zero =>
    obtain ⟨before, -, -, heq⟩ := hm.here
    rw [onStream_none h] at heq
    simp at heq
  | succ k =>
    have hlt := hm.inTime 0 (Nat.succ_pos k)
    rw [onStream_none h] at hlt
    exact absurd hlt (Nat.not_lt_zero 0)

theorem meets_zero (h : parse ML_RX_BUF_BYTES (arrived bs arrivals 0) = some (o, n)) {x : Found}
    {behind : List Found} : Meets bs arrivals 0 x behind ↔
      x = o ∧ behind = onStream ((arrived bs arrivals 0).drop n) := by
  constructor
  · intro hm
    obtain ⟨before, hlen, -, heq⟩ := hm.here
    rw [List.length_eq_zero_iff.1 hlen, onStream_some h, List.nil_append, List.cons.injEq] at heq
    exact ⟨heq.1.symm, heq.2.symm⟩
  · rintro ⟨rfl, rfl⟩
    exact ⟨⟨[], rfl, by simp, onStream_some h⟩, fun j hj => absurd hj (Nat.not_lt_zero j)⟩

theorem meets_succ (h : parse ML_RX_BUF_BYTES (arrived bs arrivals 0) = some (o, n)) {k : Nat}
    {x : Found} {behind : List Found} : Meets bs arrivals (k + 1) x behind ↔
      o.carries = true ∧
        Meets ((arrived bs arrivals 0).drop n) arrivals.tail k x behind := by
  constructor
  · intro hm
    obtain ⟨before, hlen, hcarry, heq⟩ := hm.here
    cases before with
    | nil => cases hlen
    | cons b before =>
      rw [onStream_arrived h, List.cons_append, List.cons.injEq] at heq
      obtain ⟨rfl, heq⟩ := heq
      refine ⟨hcarry o List.mem_cons_self, ⟨before, by simpa using hlen,
        fun y hy => hcarry y (List.mem_cons_of_mem o hy), heq⟩, fun j hj => ?_⟩
      have hlt := hm.inTime (j + 1) (Nat.succ_lt_succ hj)
      rw [onStream_arrived h, List.length_cons] at hlt
      exact Nat.lt_of_succ_lt_succ hlt
  · rintro ⟨hc, ⟨before, hlen, hcarry, heq⟩, htime⟩
    refine ⟨⟨o :: before, by rw [List.length_cons, hlen], ?_, ?_⟩, fun j hj => ?_⟩
    · intro y hy
      rcases List.mem_cons.1 hy with rfl | hy
      · exact hc
      · exact hcarry y hy
    · rw [onStream_arrived h, heq]
      rfl
    · cases j with
      | zero =>
        rw [onStream_some h, List.length_cons]
        exact Nat.succ_pos _
      | succ j =>
        rw [onStream_arrived h, List.length_cons]
        exact Nat.succ_lt_succ (htime j (Nat.lt_of_succ_lt_succ hj))

theorem noFrameBehindStop_none (h : parse ML_RX_BUF_BYTES (arrived bs arrivals 0) = none) :
    NoFrameBehindStop bs arrivals := fun _ _ _ hm => absurd hm (meets_none h)

theorem noFrameBehindStop_stop (h : parse ML_RX_BUF_BYTES (arrived bs arrivals 0) = some (o, n))
    (hc : o.carries = false) : NoFrameBehindStop bs arrivals ↔
      ¬ FrameIn ((arrived bs arrivals 0).drop n) := by
  constructor
  · rintro hno ⟨x, hx, hframe⟩
    rw [hno 0 o _ ((meets_zero h).2 ⟨rfl, rfl⟩) hc x hx] at hframe
    cases hframe
  · intro hno k x behind hm _ y hy
    cases k with
    | zero =>
      obtain ⟨-, rfl⟩ := (meets_zero h).1 hm
      exact Bool.eq_false_iff.2 fun hframe => hno ⟨y, hy, hframe⟩
    | succ k =>
      have hgo := ((meets_succ h).1 hm).1
      rw [hc] at hgo
      cases hgo

theorem noFrameBehindStop_go (h : parse ML_RX_BUF_BYTES (arrived bs arrivals 0) = some (o, n))
    (hc : o.carries = true) : NoFrameBehindStop bs arrivals ↔
      NoFrameBehindStop ((arrived bs arrivals 0).drop n) arrivals.tail := by
  constructor
  · intro hno k x behind hm
    exact hno (k + 1) x behind ((meets_succ h).2 ⟨hc, hm⟩)
  · intro hno k x behind hm hx
    cases k with
    | zero =>
      obtain ⟨rfl, -⟩ := (meets_zero h).1 hm
      rw [hc] at hx
      cases hx
    | succ k => exact hno k x behind ((meets_succ h).1 hm).2 hx

end

/-! The loop itself. -/

/-- Which results end the loop. -/
theorem stops_iff (o : Found) :
    ((CallResult.found o).rc ≤ 0 ∧ (CallResult.found o).body.length = 0) ∨
      (CallResult.found o).rc < 0 ↔ o.carries = false := by
  cases o with
  | frame payload =>
    cases payload with
    | nil => simp [CallResult.rc, CallResult.body, Found.carries]
    | cons b bs =>
      simp only [CallResult.rc, CallResult.body, Found.carries, List.length_cons]
      simp
      omega
  | badMagic | badLength | noSpace => simp [CallResult.rc, Found.carries, EBADMSG, ENOSPC]

theorem drainLoop_step (ch : DmaChan) (fuel : Nat) (s : DmaChanState) (pipe : List Byte)
    (arrivals : List (List Byte)) :
    let bs := arrived (s.reasm ++ pipe) arrivals 0
    (parse ML_RX_BUF_BYTES bs = none ∧ ∃ d, d.chan.reasm ++ d.pipe = bs ∧
      drainLoop ch (fuel + 1) s pipe arrivals = some d) ∨
    (∃ o n d, parse ML_RX_BUF_BYTES bs = some (o, n) ∧ o.carries = false ∧
      d.chan.reasm ++ d.pipe = bs.drop n ∧ drainLoop ch (fuel + 1) s pipe arrivals = some d) ∨
    ∃ o n s' pipe' hs, parse ML_RX_BUF_BYTES bs = some (o, n) ∧ o.carries = true ∧
      s'.reasm ++ pipe' = bs.drop n ∧ drainLoop ch (fuel + 1) s pipe arrivals =
        (drainLoop ch fuel s' pipe' arrivals.tail).map fun d =>
          { d with handed := hs ++ d.handed } := by
  intro bs
  have hbs : bs = s.reasm ++ (pipe ++ arrivals.headD []) := by
    rw [← List.append_assoc]
    exact arrived_zero _ _
  rcases dmaRecvFrame_pollOnce s (pipe ++ arrivals.headD []) with
    ⟨hp, s', pipe', he, happ⟩ | ⟨o, n, s', pipe', hp, he, happ⟩
  · refine .inl ⟨by rw [hbs, hp], ⟨s', pipe', []⟩, by rw [hbs, ← happ], ?_⟩
    simp only [drainLoop, he]
    rfl
  · rw [← hbs] at hp happ
    cases hc : o.carries with
    | false =>
      refine .inr (.inl ⟨o, n, ⟨s', pipe', []⟩, hp, hc, happ, ?_⟩)
      simp only [drainLoop, he]
      rcases (stops_iff o).2 hc with hstop | hstop
      · rw [if_pos hstop]
      · rw [if_pos hstop, ite_self]
    | true =>
      refine .inr (.inr ⟨o, n, s', pipe', dispatch ch (CallResult.found o).body, hp, hc, happ, ?_⟩)
      have hgo : ¬ o.carries = false := by simp [hc]
      rw [← stops_iff, not_or] at hgo
      simp only [drainLoop, he]
      rw [if_neg hgo.1, if_neg hgo.2]

/-- With enough fuel the loop returns, and leaves a frame exactly if one was behind its stop. -/
theorem drainLoop_spec (ch : DmaChan) {fuel : Nat} {s : DmaChanState} {pipe : List Byte}
    {arrivals : List (List Byte)}
    (h : s.reasm.length + pipe.length + arrivals.flatten.length < fuel) :
    ∃ d, drainLoop ch fuel s pipe arrivals = some d ∧
      (¬ FrameIn (d.chan.reasm ++ d.pipe) ↔ NoFrameBehindStop (s.reasm ++ pipe) arrivals) := by
  induction fuel generalizing s pipe arrivals with
  | zero => exact absurd h (Nat.not_lt_zero _)
  | succ fuel ih =>
    rcases drainLoop_step ch fuel s pipe arrivals with
      ⟨hp, d, hd, hl⟩ | ⟨o, n, d, hp, hc, hd, hl⟩ | ⟨o, n, s', pipe', hs, hp, hc, hd, hl⟩
    · refine ⟨d, hl, iff_of_true ?_ (noFrameBehindStop_none hp)⟩
      rintro ⟨x, hx, -⟩
      rw [hd, onStream_none hp] at hx
      cases hx
    · refine ⟨d, hl, ?_⟩
      rw [hd, noFrameBehindStop_stop hp hc]
    · have hpos := parse_progress _ _ _ hp
      have hle := (parse_stable _).le hp
      have hlen := congrArg List.length hd
      have hall : (arrived (s.reasm ++ pipe) arrivals 0).length + arrivals.tail.flatten.length =
          s.reasm.length + pipe.length + arrivals.flatten.length := by
        rw [arrived_zero]
        cases arrivals with
        | nil => simp
        | cons a as => simp [Nat.add_assoc]
      rw [List.length_append, List.length_drop] at hlen
      obtain ⟨d, hd', hiff⟩ := @ih s' pipe' arrivals.tail (by omega)
      refine ⟨{ d with handed := hs ++ d.handed }, by rw [hl, hd']; rfl, ?_⟩
      rw [noFrameBehindStop_go hp hc, ← hd]
      exact hiff

/-! A channel over its life: the peer writes, the main loop drains. -/

structure Channel where
  chan : DmaChanState
  pipe : List Byte

def Channel.opened : Channel := ⟨.fresh, []⟩

/-- The peer writes, or the main loop drains while the peer writes on: `arrivals` holds what
comes before the poll of the first call, of the second and so on, as far as there are calls. -/
inductive ChanOp where
  | write (bytes : List Byte)
  | drain (arrivals : List (List Byte))

def ChanOp.run (ch : DmaChan) (c : Channel) : ChanOp → Channel
  | .write bytes => { c with pipe := c.pipe ++ bytes }
  | .drain arrivals =>
    match mlDrainDmaChan ch c.chan c.pipe arrivals with
    | some d => ⟨d.chan, d.pipe⟩
    | none => c

/-- A drain returns with no complete frame in the staging buffer and the bytes at hand. -/
def LeavesNoFrame (ch : DmaChan) (c : Channel) : ChanOp → Prop
  | .write _ => True
  | .drain arrivals => ∃ d, mlDrainDmaChan ch c.chan c.pipe arrivals = some d ∧
      ¬ FrameIn (d.chan.reasm ++ d.pipe)

/-- Before a drain: nothing it will stop at has a complete frame behind it. -/
def StopsLast (c : Channel) : ChanOp → Prop
  | .write _ => True
  | .drain arrivals => NoFrameBehindStop (c.chan.reasm ++ c.pipe) arrivals

theorem leavesNoFrame_iff (ch : DmaChan) (c : Channel) (op : ChanOp) :
    LeavesNoFrame ch c op ↔ StopsLast c op := by
  cases op with
  | write bytes => exact Iff.rfl
  | drain arrivals =>
    obtain ⟨d, hd, hiff⟩ := drainLoop_spec ch (Nat.lt_succ_self
      (c.chan.reasm.length + c.pipe.length + arrivals.flatten.length))
    constructor
    · rintro ⟨d', hd', hno⟩
      cases hd.symm.trans hd'
      exact hiff.1 hno
    · intro hstop
      exact ⟨d, hd, hiff.2 hstop⟩

/-- In the runs where no drain stops short of a complete frame, and in no others, every drain
leaves none. -/
theorem drains_leave_no_frame_iff (ch : DmaChan) (ops : List ChanOp) :
    Along (ChanOp.run ch) (LeavesNoFrame ch) .opened ops ↔
      Along (ChanOp.run ch) StopsLast .opened ops :=
  along_congr (fun _ => True) (fun _ _ _ => trivial) (fun c op _ => leavesNoFrame_iff ch c op)
    trivial

instance (bs : List Byte) : Decidable (FrameIn bs) :=
  inferInstanceAs (Decidable (∃ o ∈ onStream bs, o.isFrame = true))

/-- A stray byte, and a frame of one byte behind it. -/
def strayThenFrame : List Byte :=
  0#8 :: (wordBytes MAGIC_TMAS ++ wordBytes 1#32 ++ [0x5A#8])

theorem frame_left_behind_stray_byte :
    ¬ ∀ ch ops, Along (ChanOp.run ch) (LeavesNoFrame ch) .opened ops := by
  intro h
  obtain ⟨-, ⟨d, hd, hno⟩, -⟩ := h .tmaRx [.write strayThenFrame, .drain []]
  have hleft : (mlDrainDmaChan .tmaRx .fresh strayThenFrame []).all
      (fun d => FrameIn (d.chan.reasm ++ d.pipe)) = true := by decide +kernel
  replace hd : mlDrainDmaChan .tmaRx .fresh strayThenFrame [] = some d := hd
  rw [hd] at hleft
  exact hno (of_decide_eq_true hleft)

end TetraBs.Dma
