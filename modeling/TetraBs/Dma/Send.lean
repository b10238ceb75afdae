import TetraBs.Dma.Receive

/-! The send path of `dma_io.c`, pipe backend, and the receiver behind it. -/
namespace TetraBs.Dma
open TetraBs.Bits TetraBs.Infra TetraBs.Run

/-- What a `write` meets: room for `n` bytes, a signal, or a refusal. -/
inductive WriteResult where
  | accepts (n : Nat)
  | interrupted
  | fails (errno : Nat)
deriving DecidableEq

inductive SendError where
  | EINVAL | EMSGSIZE | EBADF
  | write (errno : Nat)
deriving DecidableEq

def dmaChanIsRx (ch : DmaChan) : Bool := ch = .tmaRx || ch = .tmdRx

def TX_MAGIC : DmaChan → Word
  | .tmaRx => 0
  | .tmaTx => MAGIC_TMAS
  | .tmdRx => 0
  | .tmdTx => MAGIC_TMDC

/-- The sending side of a channel, with all bytes its pipe has taken so far. -/
structure TxChan where
  opened : Bool
  stream : List Byte
  framesSendOk : BitVec 64
  bytesSend : BitVec 64

/-- `while (off < size)`: how far it comes, the refusal that ends it, and what the next writes
meet. Where nothing more is said, the pipe takes all. -/
def writeLoop (size : Nat) : Nat → List WriteResult → Nat × Option Nat × List WriteResult
  | _, [] => (size, none, [])
  | off, w :: ws =>
    if off < size then
      match w with
      | .interrupted => writeLoop size off ws
      | .fails errno => (off, some errno, ws)
      | .accepts n => writeLoop size (off + min n (size - off)) ws
    else (off, none, w :: ws)

def dmaSendFrame (ch : DmaChan) (t : TxChan) (buf : List Byte) (ws : List WriteResult) :
    TxChan × Option SendError :=
  if dmaChanIsRx ch then (t, some .EINVAL)
  else if DMA_FRAME_MAX_PAYLOAD < buf.length then (t, some .EMSGSIZE)
  else if !t.opened then (t, some .EBADF)
  else
    let hdr := wordBytes (TX_MAGIC ch) ++ wordBytes (BitVec.ofNat 32 buf.length)
    match writeLoop DMA_FRAME_HEADER_BYTES 0 ws with
    | (off, some errno, _) => ({ t with stream := t.stream ++ hdr.take off }, some (.write errno))
    | (_, none, ws) =>
      let t := { t with stream := t.stream ++ hdr }
      match writeLoop buf.length 0 ws with
      | (off, some errno, _) =>
        ({ t with stream := t.stream ++ buf.take off }, some (.write errno))
      | (_, none, _) =>
        ({ t with
            stream := t.stream ++ buf
            framesSendOk := t.framesSendOk + 1
            bytesSend := t.bytesSend + BitVec.ofNat 64 buf.length }, none)

/-! The writes of a frame, seen as one: a write never crosses from the header into the
payload. -/

def WriteResult.isRefusal : WriteResult → Bool
  | .fails _ => true
  | _ => false

/-- How many bytes of the frame the pipe has after a write, with `k` before it. -/
def WriteResult.advance (len k : Nat) : WriteResult → Nat
  | .accepts n =>
    if k < DMA_FRAME_HEADER_BYTES then min DMA_FRAME_HEADER_BYTES (k + n)
    else min (DMA_FRAME_HEADER_BYTES + len) (k + n)
  | _ => k

def taken (len k : Nat) (ws : List WriteResult) : Nat := ws.foldl (fun k w => w.advance len k) k

def frameLoop (len : Nat) : Nat → List WriteResult → Nat × Option Nat
  | _, [] => (DMA_FRAME_HEADER_BYTES + len, none)
  | k, w :: ws =>
    if k < DMA_FRAME_HEADER_BYTES + len then
      match w with
      | .fails errno => (k, some errno)
      | w => frameLoop len (w.advance len k) ws
    else (k, none)

theorem writeLoop_done {size off : Nat} (h : size ≤ off) (w : WriteResult)
    (ws : List WriteResult) : writeLoop size off (w :: ws) = (off, none, w :: ws) := by
  cases w <;> exact if_neg (Nat.not_lt.2 h)

theorem frameLoop_done {len k : Nat} (h : DMA_FRAME_HEADER_BYTES + len ≤ k) (w : WriteResult)
    (ws : List WriteResult) : frameLoop len k (w :: ws) = (k, none) := by
  cases w <;> exact if_neg (Nat.not_lt.2 h)

theorem frameLoop_go {len k : Nat} (h : k < DMA_FRAME_HEADER_BYTES + len) {w : WriteResult}
    (hw : w.isRefusal = false) (ws : List WriteResult) :
    frameLoop len k (w :: ws) = frameLoop len (w.advance len k) ws := by
  cases w with
  | fails errno => cases hw
  | accepts n | interrupted => exact if_pos h

theorem frameLoop_refused {len k : Nat} (h : k < DMA_FRAME_HEADER_BYTES + len) (errno : Nat)
    (ws : List WriteResult) : frameLoop len k (.fails errno :: ws) = (k, some errno) := if_pos h

theorem frameLoop_payload {len off : Nat} (h : off ≤ len) (ws : List WriteResult) :
    frameLoop len (DMA_FRAME_HEADER_BYTES + off) ws =
      (DMA_FRAME_HEADER_BYTES + (writeLoop len off ws).1, (writeLoop len off ws).2.1) := by
  induction ws generalizing off with
  | nil => rfl
  | cons w ws ih =>
    by_cases hlt : off < len
    · have hlt' : DMA_FRAME_HEADER_BYTES + off < DMA_FRAME_HEADER_BYTES + len :=
        Nat.add_lt_add_left hlt _
      cases w with
      | interrupted =>
        rw [frameLoop_go hlt' rfl, writeLoop, if_pos hlt]
        exact ih h
      | fails errno => rw [frameLoop_refused hlt', writeLoop, if_pos hlt]
      | accepts n =>
        have hadv : (WriteResult.accepts n).advance len (DMA_FRAME_HEADER_BYTES + off) =
            DMA_FRAME_HEADER_BYTES + (off + min n (len - off)) := by
          rw [WriteResult.advance, if_neg (by omega)]
          omega
        rw [frameLoop_go hlt' rfl, hadv, writeLoop, if_pos hlt]
        exact ih (by omega)
    · have hle : len ≤ off := Nat.not_lt.1 hlt
      rw [writeLoop_done hle, frameLoop_done (Nat.add_le_add_left hle _)]

theorem frameLoop_header {len off : Nat} (h : off ≤ DMA_FRAME_HEADER_BYTES)
    (ws : List WriteResult) :
    (∃ k e ws', writeLoop DMA_FRAME_HEADER_BYTES off ws = (k, some e, ws') ∧
      frameLoop len off ws = (k, some e) ∧ k < DMA_FRAME_HEADER_BYTES) ∨
    ∃ ws', writeLoop DMA_FRAME_HEADER_BYTES off ws = (DMA_FRAME_HEADER_BYTES, none, ws') ∧
      frameLoop len off ws = frameLoop len DMA_FRAME_HEADER_BYTES ws' := by
  induction ws generalizing off with
  | nil => exact .inr ⟨[], rfl, rfl⟩
  | cons w ws ih =>
    by_cases hlt : off < DMA_FRAME_HEADER_BYTES
    · have hlt' : off < DMA_FRAME_HEADER_BYTES + len := Nat.lt_add_right len hlt
      cases w with
      | interrupted =>
        rw [frameLoop_go hlt' rfl, writeLoop, if_pos hlt]
        exact ih h
      | fails errno =>
        rw [frameLoop_refused hlt', writeLoop, if_pos hlt]
        exact .inl ⟨off, errno, ws, rfl, rfl, hlt⟩
      | accepts n =>
        have hadv : (WriteResult.accepts n).advance len off =
            off + min n (DMA_FRAME_HEADER_BYTES - off) := by
          rw [WriteResult.advance, if_pos hlt]
          omega
        rw [frameLoop_go hlt' rfl, hadv, writeLoop, if_pos hlt]
        exact ih (by omega)
    · have heq : off = DMA_FRAME_HEADER_BYTES := by omega
      rw [writeLoop_done (Nat.not_lt.1 hlt), heq]
      exact .inr ⟨w :: ws, rfl, rfl⟩

theorem advance_ge {len k : Nat} (h : k ≤ DMA_FRAME_HEADER_BYTES + len) (w : WriteResult) :
    k ≤ w.advance len k ∧ w.advance len k ≤ DMA_FRAME_HEADER_BYTES + len := by
  cases w with
  | accepts n =>
    rw [WriteResult.advance]
    split <;> omega
  | interrupted | fails errno => exact ⟨Nat.le_refl k, h⟩

theorem taken_ge {len k : Nat} (h : k ≤ DMA_FRAME_HEADER_BYTES + len) (ws : List WriteResult) :
    k ≤ taken len k ws ∧ taken len k ws ≤ DMA_FRAME_HEADER_BYTES + len := by
  induction ws generalizing k with
  | nil => exact ⟨Nat.le_refl k, h⟩
  | cons w ws ih =>
    obtain ⟨hge, hle⟩ := advance_ge h w
    obtain ⟨hge', hle'⟩ := ih hle
    exact ⟨hge.trans hge', hle'⟩

/-- The writes of a frame fail where a refusal comes before they have all of it. -/
theorem frameLoop_of_refusal {len k : Nat} {before after : List WriteResult} {errno : Nat}
    (hno : ∀ w ∈ before, w.isRefusal = false) (hk : k ≤ DMA_FRAME_HEADER_BYTES + len)
    (h : taken len k before < DMA_FRAME_HEADER_BYTES + len) :
    frameLoop len k (before ++ .fails errno :: after) = (taken len k before, some errno) := by
  induction before generalizing k with
  | nil => exact frameLoop_refused h errno after
  | cons w before ih =>
    have hlt := Nat.lt_of_le_of_lt (taken_ge hk (w :: before)).1 h
    rw [List.cons_append, frameLoop_go hlt (hno w List.mem_cons_self)]
    exact ih (fun x hx => hno x (List.mem_cons_of_mem w hx)) (advance_ge hk w).2 h

theorem refusal_of_frameLoop {len k k' : Nat} {ws : List WriteResult} {errno : Nat}
    (h : frameLoop len k ws = (k', some errno)) :
    ∃ before after, ws = before ++ .fails errno :: after ∧
      (∀ w ∈ before, w.isRefusal = false) ∧ taken len k before = k' ∧
        k' < DMA_FRAME_HEADER_BYTES + len := by
  induction ws generalizing k with
  | nil => cases h
  | cons w ws ih =>
    by_cases hlt : k < DMA_FRAME_HEADER_BYTES + len
    · cases hw : w.isRefusal with
      | true =>
        cases w with
        | accepts n | interrupted => cases hw
        | fails e =>
          rw [frameLoop_refused hlt] at h
          cases h
          exact ⟨[], ws, rfl, by simp, rfl, hlt⟩
      | false =>
        rw [frameLoop_go hlt hw] at h
        obtain ⟨before, after, rfl, hno, htaken, hk'⟩ := ih h
        refine ⟨w :: before, after, rfl, fun x hx => ?_, htaken, hk'⟩
        rcases List.mem_cons.1 hx with rfl | hx
        · exact hw
        · exact hno x hx
    · rw [frameLoop_done (Nat.not_lt.1 hlt)] at h
      cases h

/-! One call. -/

/-- A call that gets as far as its writes. -/
def Admissible (ch : DmaChan) (t : TxChan) (buf : List Byte) : Prop :=
  dmaChanIsRx ch = false ∧ buf.length ≤ DMA_FRAME_MAX_PAYLOAD ∧ t.opened = true

instance (ch : DmaChan) (t : TxChan) (buf : List Byte) : Decidable (Admissible ch t buf) :=
  inferInstanceAs (Decidable (_ ∧ _ ∧ _))

def frameHeader (ch : DmaChan) (buf : List Byte) : List Byte :=
  wordBytes (TX_MAGIC ch) ++ wordBytes (BitVec.ofNat 32 buf.length)

theorem frameHeader_length (ch : DmaChan) (buf : List Byte) :
    (frameHeader ch buf).length = DMA_FRAME_HEADER_BYTES := by
  rw [frameHeader, List.length_append, wordBytes_length, wordBytes_length]
  rfl

theorem dmaSendFrame_inadmissible {ch : DmaChan} {t : TxChan} {buf : List Byte}
    (h : ¬ Admissible ch t buf) (ws : List WriteResult) :
    (dmaSendFrame ch t buf ws).1 = t ∧ (dmaSendFrame ch t buf ws).2 ≠ none := by
  rw [dmaSendFrame]
  by_cases hrx : dmaChanIsRx ch
  · rw [if_pos hrx]
    exact ⟨rfl, nofun⟩
  · by_cases hlong : DMA_FRAME_MAX_PAYLOAD < buf.length
    · rw [if_neg hrx, if_pos hlong]
      exact ⟨rfl, nofun⟩
    · have hclosed : (!t.opened) = true := by
        cases ho : t.opened with
        | false => rfl
        | true => exact absurd ⟨Bool.eq_false_iff.2 hrx, Nat.not_lt.1 hlong, ho⟩ h
      rw [if_neg hrx, if_neg hlong, if_pos hclosed]
      exact ⟨rfl, nofun⟩

/-- The pipe gets the bytes the writes came to, and the call's result is theirs. -/
theorem dmaSendFrame_spec {ch : DmaChan} {t : TxChan} {buf : List Byte}
    (h : Admissible ch t buf) (ws : List WriteResult) :
    (∃ k e, frameLoop buf.length 0 ws = (k, some e) ∧
      (dmaSendFrame ch t buf ws).2 = some (.write e) ∧ (dmaSendFrame ch t buf ws).1.stream =
        t.stream ++ (frameHeader ch buf ++ buf).take k) ∨
    ∃ k, frameLoop buf.length 0 ws = (k, none) ∧ (dmaSendFrame ch t buf ws).2 = none ∧
      (dmaSendFrame ch t buf ws).1.stream = t.stream ++ (frameHeader ch buf ++ buf) := by
  obtain ⟨hrx, hlen, hopen⟩ := h
  have hlong : ¬ DMA_FRAME_MAX_PAYLOAD < buf.length := Nat.not_lt.2 hlen
  have hhdr := frameHeader_length ch buf
  rw [frameHeader] at hhdr ⊢
  simp only [dmaSendFrame, hrx, hopen, if_neg hlong, Bool.not_true, Bool.false_eq_true, if_false]
  rcases @frameLoop_header buf.length 0 (Nat.zero_le DMA_FRAME_HEADER_BYTES) ws with
    ⟨k, e, ws', hw, hf, hk⟩ | ⟨ws', hw, hf⟩
  · refine .inl ⟨k, e, hf, by rw [hw], ?_⟩
    rw [hw, List.take_append_of_le_length (by omega)]
  · have hpay := frameLoop_payload (Nat.zero_le buf.length) ws'
    rw [hf]
    rw [Nat.add_zero] at hpay
    obtain ⟨off, e?, rest, hw'⟩ : ∃ off e? rest, writeLoop buf.length 0 ws' = (off, e?, rest) :=
      ⟨_, _, _, rfl⟩
    rw [hw'] at hpay
    simp only [hw, hw']
    cases e? with
    | some e =>
      refine .inl ⟨_, e, hpay, rfl, ?_⟩
      change t.stream ++ _ ++ buf.take off = _
      rw [List.append_assoc, ← hhdr, List.take_length_add_append]
    | none =>
      refine .inr ⟨_, hpay, rfl, ?_⟩
      exact List.append_assoc _ _ _

/-! Runs of calls. -/

structure SendCall where
  buf : List Byte
  writes : List WriteResult

/-- The sending side, and the payloads of the calls that returned 0. -/
structure SendSession where
  chan : TxChan
  accepted : List (List Byte)

def TxChan.fresh (opened : Bool) : TxChan := ⟨opened, [], 0, 0⟩

def sendCall (ch : DmaChan) (t : SendSession) (c : SendCall) : SendSession :=
  let (chan, err) := dmaSendFrame ch t.chan c.buf c.writes
  ⟨chan, if err = none then t.accepted ++ [c.buf] else t.accepted⟩

/-- A call that fails leaves the byte stream as it was. -/
def FailureKeepsStream (ch : DmaChan) (t : SendSession) (c : SendCall) : Prop :=
  (dmaSendFrame ch t.chan c.buf c.writes).2 ≠ none →
    (dmaSendFrame ch t.chan c.buf c.writes).1.stream = t.chan.stream

/-- The pipe never refuses a write while it has a part of a frame. -/
def RefusesBetweenFrames (len : Nat) (ws : List WriteResult) : Prop :=
  ∀ before errno after, ws = before ++ .fails errno :: after →
    (∀ w ∈ before, w.isRefusal = false) →
      taken len 0 before = 0 ∨ taken len 0 before = DMA_FRAME_HEADER_BYTES + len

def CallRefusedWhole (ch : DmaChan) (t : SendSession) (c : SendCall) : Prop :=
  Admissible ch t.chan c.buf → RefusesBetweenFrames c.buf.length c.writes

theorem refusesBetweenFrames_some {len k e : Nat} {ws : List WriteResult}
    (h : frameLoop len 0 ws = (k, some e)) : RefusesBetweenFrames len ws ↔ k = 0 := by
  obtain ⟨before, after, rfl, hno, htaken, hk⟩ := refusal_of_frameLoop h
  constructor
  · intro hr
    rcases hr before e after rfl hno with h0 | hall
    · exact htaken.symm.trans h0
    · omega
  · rintro rfl before' e' after' heq hno'
    by_cases hlt : taken len 0 before' < DMA_FRAME_HEADER_BYTES + len
    · have hsame : frameLoop len 0 (before' ++ .fails e' :: after') =
          (taken len 0 before', some e') := frameLoop_of_refusal hno' (Nat.zero_le _) hlt
      rw [← heq, h] at hsame
      exact .inl (congrArg Prod.fst hsame).symm
    · exact .inr (Nat.le_antisymm (taken_ge (Nat.zero_le _) before').2 (Nat.not_lt.1 hlt))

theorem refusesBetweenFrames_none {len k : Nat} {ws : List WriteResult}
    (h : frameLoop len 0 ws = (k, none)) : RefusesBetweenFrames len ws := by
  rintro before e after rfl hno
  by_cases hlt : taken len 0 before < DMA_FRAME_HEADER_BYTES + len
  · rw [frameLoop_of_refusal hno (Nat.zero_le _) hlt] at h
    cases h
  · exact .inr (Nat.le_antisymm (taken_ge (Nat.zero_le _) before).2 (Nat.not_lt.1 hlt))

theorem failureKeepsStream_iff (ch : DmaChan) (t : SendSession) (c : SendCall) :
    FailureKeepsStream ch t c ↔ CallRefusedWhole ch t c := by
  by_cases hadm : Admissible ch t.chan c.buf
  · rcases dmaSendFrame_spec hadm c.writes with ⟨k, e, hf, herr, hs⟩ | ⟨k, hf, herr, -⟩
    · have hne : frameHeader ch c.buf ++ c.buf ≠ [] := by
        intro hnil
        have hlen := congrArg List.length hnil
        rw [List.length_append, frameHeader_length] at hlen
        simp [DMA_FRAME_HEADER_BYTES] at hlen
      have hkeep : FailureKeepsStream ch t c ↔ k = 0 := by
        rw [FailureKeepsStream, herr, hs]
        simp only [ne_eq, reduceCtorEq, not_false_eq_true, true_imp_iff, List.append_right_eq_self]
        rw [List.take_eq_nil_iff]
        exact or_iff_left hne
      rw [hkeep, CallRefusedWhole, refusesBetweenFrames_some hf]
      exact ⟨fun hk _ => hk, fun hk => hk hadm⟩
    · exact iff_of_true (fun hfail => absurd herr hfail) fun _ => refusesBetweenFrames_none hf
  · exact iff_of_true (fun _ => by rw [(dmaSendFrame_inadmissible hadm c.writes).1])
      fun h => absurd h hadm

/-- The stream is made of the frames of the accepted payloads. -/
def Framed (t : SendSession) : Prop :=
  ∃ fs : List WireFrame, t.chan.stream = fs.flatMap WireFrame.bytes ∧
    fs.map WireFrame.payload = t.accepted

theorem txMagic_known {ch : DmaChan} (h : dmaChanIsRx ch = false) :
    frameMagicIsKnown (TX_MAGIC ch) = true := by
  cases ch with
  | tmaRx | tmdRx => cases h
  | tmaTx | tmdTx => rfl

theorem framed_step {ch : DmaChan} {t : SendSession} {c : SendCall} (h : Framed t)
    (hk : FailureKeepsStream ch t c) : Framed (sendCall ch t c) := by
  obtain ⟨fs, hstream, haccepted⟩ := h
  cases herr : (dmaSendFrame ch t.chan c.buf c.writes).2 with
  | some e =>
    have hkeep := hk (by rw [herr]; exact nofun)
    refine ⟨fs, hkeep.trans hstream, ?_⟩
    rw [haccepted, sendCall]
    simp only [herr, reduceCtorEq, if_false]
  | none =>
    have hadm : Admissible ch t.chan c.buf := by
      by_contra hadm
      exact (dmaSendFrame_inadmissible hadm c.writes).2 herr
    have hs : (dmaSendFrame ch t.chan c.buf c.writes).1.stream =
        t.chan.stream ++ (frameHeader ch c.buf ++ c.buf) := by
      rcases dmaSendFrame_spec hadm c.writes with ⟨k, e, -, herr', -⟩ | ⟨k, -, -, hs⟩
      · rw [herr] at herr'
        cases herr'
      · exact hs
    refine ⟨fs ++ [⟨TX_MAGIC ch, c.buf, txMagic_known hadm.1, hadm.2.1⟩], ?_, ?_⟩
    · rw [List.flatMap_append, ← hstream]
      refine hs.trans ?_
      rw [List.flatMap_cons, List.flatMap_nil, List.append_nil]
      rfl
    · rw [List.map_append, haccepted, sendCall]
      simp only [herr, if_true]
      rfl

/-- What a receiver makes of the stream: the accepted payloads in call order, all of them once
it has drained the stream. -/
def ReceivesAccepted (t : SendSession) : Prop :=
  ∀ cap cs, (∀ payload ∈ t.accepted, payload.length ≤ cap) →
    let u := exec (call cap) (start t.chan.stream) cs
    (foundIn u.results <+: t.accepted.map Found.frame) ∧
      (u.drained → foundIn u.results = t.accepted.map Found.frame)

theorem Framed.receives {t : SendSession} (h : Framed t) : ReceivesAccepted t := by
  obtain ⟨fs, hstream, haccepted⟩ := h
  intro cap cs hcap
  rw [← haccepted] at hcap
  have hreceived := frames_received (fun f hf => hcap _ (List.mem_map_of_mem hf)) cs
  have hmap : t.accepted.map Found.frame = fs.map fun f => Found.frame f.payload := by
    rw [← haccepted, List.map_map]
    rfl
  rw [hstream, hmap]
  exact hreceived

/-- Sending is atomic and the receiver decodes exactly the accepted payloads, in exactly the
runs where the pipe refuses no write while it has a part of a frame. -/
theorem sends_atomic_iff (ch : DmaChan) (opened : Bool) (calls : List SendCall) :
    let t₀ : SendSession := ⟨.fresh opened, []⟩
    (Along (sendCall ch) (FailureKeepsStream ch) t₀ calls ∧
      ReceivesAccepted (exec (sendCall ch) t₀ calls)) ↔
        Along (sendCall ch) (CallRefusedWhole ch) t₀ calls := by
  intro t₀
  have hcongr : Along (sendCall ch) (FailureKeepsStream ch) t₀ calls ↔
      Along (sendCall ch) (CallRefusedWhole ch) t₀ calls :=
    along_congr (fun _ => True) (fun _ _ _ => trivial)
      (fun t c _ => failureKeepsStream_iff ch t c) trivial
  rw [← hcongr]
  constructor
  · exact And.left
  · intro hkeep
    have hframed : Framed (exec (sendCall ch) t₀ calls) :=
      exec_invariant Framed (fun _ _ h hk => framed_step h hk) ⟨[], rfl, rfl⟩ hkeep
    exact ⟨hkeep, hframed.receives⟩

/-- Room for the header only: the call fails and the header stays in the pipe. -/
theorem stray_header_sent :
    ¬ ∀ ch opened calls, let t₀ : SendSession := ⟨.fresh opened, []⟩
      Along (sendCall ch) (FailureKeepsStream ch) t₀ calls ∧
        ReceivesAccepted (exec (sendCall ch) t₀ calls) := by
  intro h
  obtain ⟨⟨hkeep, -⟩, -⟩ := h .tmaTx true [⟨[0x5A], [.accepts 8, .fails 11]⟩]
  have hfails : (dmaSendFrame .tmaTx (.fresh true) [0x5A] [.accepts 8, .fails 11]).2 =
      some (.write 11) := rfl
  have hstays : (dmaSendFrame .tmaTx (.fresh true) [0x5A] [.accepts 8, .fails 11]).1.stream.length =
      8 := rfl
  have hgone := hkeep nofun
  cases (congrArg List.length hgone).symm.trans hstays

end TetraBs.Dma
