import TetraBs.Infra.Axis
import TetraBs.Lib.Incremental
import TetraBs.Lib.Run

/-! The receive path of `dma_io.c`, pipe backend: reassembly of frames in the staging buffer of
one open channel. -/
namespace TetraBs.Dma
open TetraBs.Bits TetraBs.Infra TetraBs.Incremental TetraBs.Run

def DMA_FRAME_HEADER_BYTES : Nat := 8
def DMA_FRAME_MAX_PAYLOAD : Nat := 4096
def DMA_REASM_CAP : Nat := DMA_FRAME_HEADER_BYTES + DMA_FRAME_MAX_PAYLOAD

inductive DmaChan where
  | tmaRx | tmaTx | tmdRx | tmdTx
deriving DecidableEq

def be32Load (p : List Byte) : Word := p.getD 0 0 ++ p.getD 1 0 ++ p.getD 2 0 ++ p.getD 3 0

def frameMagicIsKnown (magic : Word) : Bool :=
  magic = MAGIC_TMAS || magic = MAGIC_TMAR || magic = MAGIC_TMDC

/-- A channel. The pipe descriptors are the environment's, the counters wrap. -/
structure DmaChanState where
  reasm : List Byte
  reasm_fits : reasm.length ≤ DMA_REASM_CAP
  dropBadMagic : BitVec 64
  dropBadLength : BitVec 64
  framesRecvOk : BitVec 64
  bytesRecv : BitVec 64

def DmaChanState.fresh : DmaChanState := ⟨[], Nat.zero_le _, 0, 0, 0, 0⟩

/-- The `memmove` over the first `n` bytes. -/
def DmaChanState.skip (s : DmaChanState) (n : Nat) : DmaChanState :=
  { s with
    reasm := s.reasm.drop n
    reasm_fits := by
      rw [List.length_drop]
      exact (Nat.sub_le _ _).trans s.reasm_fits }

/-- What an extraction can find; both kinds of malformed frame are `-EBADMSG`. A frame without
payload makes the call return 0, as no data does, and shows in `frames_recv_ok` only. -/
inductive Found where
  | frame (payload : List Byte)
  | badMagic | badLength | noSpace
deriving DecidableEq

/-- `none` stands for 0: more bytes are needed. -/
def reasmTryExtract (s : DmaChanState) (cap : Nat) : Option Found × DmaChanState :=
  if s.reasm.length < DMA_FRAME_HEADER_BYTES then (none, s)
  else if !frameMagicIsKnown (be32Load s.reasm) then
    (some .badMagic, { s.skip 1 with dropBadMagic := s.dropBadMagic + 1 })
  else
    let plen := (be32Load (s.reasm.drop 4)).toNat
    if plen > DMA_FRAME_MAX_PAYLOAD then
      (some .badLength,
        { s.skip DMA_FRAME_HEADER_BYTES with dropBadLength := s.dropBadLength + 1 })
    else if s.reasm.length < DMA_FRAME_HEADER_BYTES + plen then (none, s)
    else if cap < plen then (some .noSpace, s)
    else
      (some (.frame ((s.reasm.drop DMA_FRAME_HEADER_BYTES).take plen)),
        { s.skip (DMA_FRAME_HEADER_BYTES + plen) with
          framesRecvOk := s.framesRecvOk + 1, bytesRecv := s.bytesRecv + BitVec.ofNat 64 plen })

/-- What one round of the read loop meets. `data n` is a `read` for which at most `n` bytes are
there; `nothing` is end of file, `EAGAIN` or `EINTR`. -/
inductive Wakeup where
  | timeout | interrupted | hangup
  | pollFailed (errno : Nat) | readFailed (errno : Nat)
  | nothing
  | data (n : Nat)

/-- What a call returns: a frame or an error found, 0, or a system call's error. -/
inductive CallResult where
  | found (f : Found)
  | noData
  | sysError (errno : Nat)

/-- `read` into the free part of the staging buffer, from the bytes the pipe will still carry. -/
def reasmReadOne (s : DmaChanState) (pipe : List Byte) (n : Nat) :
    DmaChanState × List Byte × Nat :=
  let got := pipe.take (min n (DMA_REASM_CAP - s.reasm.length))
  ({ s with
      reasm := s.reasm ++ got
      reasm_fits := by
        have := s.reasm_fits
        rw [List.length_append, List.length_take]
        omega },
    pipe.drop got.length, got.length)

/-- The read loop; an exhausted list of wakeups is a `poll` that does not return in time. -/
def recvLoop (cap : Nat) (timeoutZero : Bool) :
    DmaChanState → List Byte → List Wakeup → CallResult × DmaChanState × List Byte
  | s, pipe, [] => (.noData, s, pipe)
  | s, pipe, .timeout :: _ => (.noData, s, pipe)
  | s, pipe, .hangup :: _ => (.noData, s, pipe)
  | s, pipe, .pollFailed e :: _ => (.sysError e, s, pipe)
  | s, pipe, .readFailed e :: _ => (.sysError e, s, pipe)
  | s, pipe, .interrupted :: ws => recvLoop cap timeoutZero s pipe ws
  | s, pipe, .nothing :: ws =>
    if timeoutZero then (.noData, s, pipe) else recvLoop cap timeoutZero s pipe ws
  | s, pipe, .data n :: ws =>
    let (s', pipe', got) := reasmReadOne s pipe n
    if got = 0 then
      if timeoutZero then (.noData, s', pipe') else recvLoop cap timeoutZero s' pipe' ws
    else
      match reasmTryExtract s' cap with
      | (some f, s'') => (.found f, s'', pipe')
      | (none, s'') =>
        if timeoutZero then (.noData, s'', pipe') else recvLoop cap timeoutZero s'' pipe' ws

/-- One call: whether `timeout_ms` is 0, and what its loop meets. -/
structure Call where
  timeoutZero : Bool
  wakeups : List Wakeup

def dmaRecvFrame (s : DmaChanState) (pipe : List Byte) (cap : Nat) (c : Call) :
    CallResult × DmaChanState × List Byte :=
  match reasmTryExtract s cap with
  | (some f, s') => (.found f, s', pipe)
  | (none, s') => recvLoop cap c.timeoutZero s' pipe c.wakeups

/-! The stream as a whole. -/

/-- What the head of a stream holds and how many bytes it takes. -/
def parse (cap : Nat) (bs : List Byte) : Option (Found × Nat) :=
  if bs.length < DMA_FRAME_HEADER_BYTES then none
  else if !frameMagicIsKnown (be32Load bs) then some (.badMagic, 1)
  else
    let plen := (be32Load (bs.drop 4)).toNat
    if plen > DMA_FRAME_MAX_PAYLOAD then some (.badLength, DMA_FRAME_HEADER_BYTES)
    else if bs.length < DMA_FRAME_HEADER_BYTES + plen then none
    else if cap < plen then some (.noSpace, 0)
    else some (.frame ((bs.drop DMA_FRAME_HEADER_BYTES).take plen), DMA_FRAME_HEADER_BYTES + plen)

theorem be32Load_append {b : List Byte} (h : 4 ≤ b.length) (c : List Byte) :
    be32Load (b ++ c) = be32Load b := by
  match b with
  | _ :: _ :: _ :: _ :: _ => rfl
  | [] | [_] | [_, _] | [_, _, _] => simp at h

theorem be32Load_drop_append {b : List Byte} (h : 8 ≤ b.length) (c : List Byte) :
    be32Load ((b ++ c).drop 4) = be32Load (b.drop 4) := by
  rw [List.drop_append_of_le_length (by omega), be32Load_append]
  rw [List.length_drop]
  omega

/-- The declared payload length of the frame at the head. -/
def declaredLen (bs : List Byte) : Nat := (be32Load (bs.drop 4)).toNat

theorem parse_short {cap : Nat} {bs : List Byte} (h : bs.length < DMA_FRAME_HEADER_BYTES) :
    parse cap bs = none := if_pos h

theorem parse_unknown {cap : Nat} {bs : List Byte} (h : DMA_FRAME_HEADER_BYTES ≤ bs.length)
    (hm : frameMagicIsKnown (be32Load bs) = false) : parse cap bs = some (.badMagic, 1) := by
  rw [parse, if_neg (Nat.not_lt.2 h), hm]
  rfl

theorem parse_long {cap : Nat} {bs : List Byte} (h : DMA_FRAME_HEADER_BYTES ≤ bs.length)
    (hm : frameMagicIsKnown (be32Load bs) = true) (hl : DMA_FRAME_MAX_PAYLOAD < declaredLen bs) :
    parse cap bs = some (.badLength, DMA_FRAME_HEADER_BYTES) := by
  rw [parse, if_neg (Nat.not_lt.2 h), hm]
  exact if_pos hl

/-- A header whose frame fits the staging buffer. -/
theorem parse_fitting {cap : Nat} {bs : List Byte} (h : DMA_FRAME_HEADER_BYTES ≤ bs.length)
    (hm : frameMagicIsKnown (be32Load bs) = true) (hl : declaredLen bs ≤ DMA_FRAME_MAX_PAYLOAD) :
    parse cap bs =
      if bs.length < DMA_FRAME_HEADER_BYTES + declaredLen bs then none
      else if cap < declaredLen bs then some (.noSpace, 0)
      else some (.frame ((bs.drop DMA_FRAME_HEADER_BYTES).take (declaredLen bs)),
        DMA_FRAME_HEADER_BYTES + declaredLen bs) := by
  rw [parse, if_neg (Nat.not_lt.2 h), hm]
  exact if_neg (Nat.not_lt.2 hl)

theorem parse_stable (cap : Nat) : Stable (parse cap) where
  le {b o n} h := by
    rcases Nat.lt_or_ge b.length DMA_FRAME_HEADER_BYTES with hs | hs
    · rw [parse_short hs] at h
      cases h
    · cases hm : frameMagicIsKnown (be32Load b) with
      | false =>
        rw [parse_unknown hs hm] at h
        cases h
        exact Nat.le_trans (by decide) hs
      | true =>
        rcases Nat.lt_or_ge DMA_FRAME_MAX_PAYLOAD (declaredLen b) with hl | hl
        · rw [parse_long hs hm hl] at h
          cases h
          exact hs
        · rw [parse_fitting hs hm hl] at h
          split at h
          · cases h
          · split at h <;> cases h <;> omega
  append {b o n} c h := by
    rcases Nat.lt_or_ge b.length DMA_FRAME_HEADER_BYTES with hs | hs
    · rw [parse_short hs] at h
      cases h
    · have hs' : DMA_FRAME_HEADER_BYTES ≤ (b ++ c).length := by
        rw [List.length_append]
        omega
      have hmagic := be32Load_append (Nat.le_trans (by decide) hs : 4 ≤ b.length) c
      have hlen : declaredLen (b ++ c) = declaredLen b :=
        congrArg BitVec.toNat (be32Load_drop_append hs c)
      cases hm : frameMagicIsKnown (be32Load b) with
      | false =>
        rw [parse_unknown hs hm] at h
        rwa [parse_unknown hs' (by rw [hmagic, hm])]
      | true =>
        rcases Nat.lt_or_ge DMA_FRAME_MAX_PAYLOAD (declaredLen b) with hl | hl
        · rw [parse_long hs hm hl] at h
          rwa [parse_long hs' (by rw [hmagic, hm]) (by rwa [hlen])]
        · rw [parse_fitting hs hm hl] at h
          rw [parse_fitting hs' (by rw [hmagic, hm]) (by rwa [hlen]), hlen]
          split at h
          · cases h
          · rename_i henough
            have henough' : ¬ (b ++ c).length < DMA_FRAME_HEADER_BYTES + declaredLen b := by
              rw [List.length_append]
              omega
            rw [if_neg henough', List.drop_append_of_le_length hs, List.take_append_of_le_length]
            · exact h
            · rw [List.length_drop]
              omega

def Found.isFrame : Found → Bool
  | .frame _ => true
  | _ => false

/-- How often a kind of result occurs, as a 64-bit counter has it. -/
def tally (os : List Found) (p : Found → Bool) : BitVec 64 := BitVec.ofNat 64 (os.countP p)

/-- The counters of a channel that found `os`. -/
structure Counted (s : DmaChanState) (os : List Found) : Prop where
  badMagic : s.dropBadMagic = tally os (· == .badMagic)
  badLength : s.dropBadLength = tally os (· == .badLength)
  framesOk : s.framesRecvOk = tally os Found.isFrame

/-- The extraction finds what the parser finds at the head of the staging buffer. -/
theorem reasmTryExtract_spec (s : DmaChanState) (cap : Nat) :
    (parse cap s.reasm = none ∧ reasmTryExtract s cap = (none, s)) ∨
      ∃ o n s', parse cap s.reasm = some (o, n) ∧ reasmTryExtract s cap = (some o, s') ∧
        s'.reasm = s.reasm.drop n ∧
        s'.dropBadMagic = s.dropBadMagic + (if o = .badMagic then 1 else 0) ∧
        s'.dropBadLength = s.dropBadLength + (if o = .badLength then 1 else 0) ∧
        s'.framesRecvOk = s.framesRecvOk + (if o.isFrame then 1 else 0) := by
  unfold parse reasmTryExtract
  split
  · exact .inl ⟨rfl, rfl⟩
  · split
    · exact .inr ⟨_, _, _, rfl, rfl, rfl, by simp, by simp [DmaChanState.skip],
        by simp [DmaChanState.skip, Found.isFrame]⟩
    · dsimp only
      split
      · exact .inr ⟨_, _, _, rfl, rfl, rfl, by simp [DmaChanState.skip], by simp,
          by simp [DmaChanState.skip, Found.isFrame]⟩
      · split
        · exact .inl ⟨rfl, rfl⟩
        · split
          · exact .inr ⟨_, _, _, rfl, rfl, rfl, by simp, by simp, by simp [Found.isFrame]⟩
          · exact .inr ⟨_, _, _, rfl, rfl, rfl, by simp [DmaChanState.skip],
              by simp [DmaChanState.skip], by simp [Found.isFrame]⟩

theorem Counted.push {s s' : DmaChanState} {os : List Found} {o : Found} (h : Counted s os)
    (hm : s'.dropBadMagic = s.dropBadMagic + (if o = .badMagic then 1 else 0))
    (hl : s'.dropBadLength = s.dropBadLength + (if o = .badLength then 1 else 0))
    (hf : s'.framesRecvOk = s.framesRecvOk + (if o.isFrame then 1 else 0)) :
    Counted s' (os ++ [o]) := by
  constructor
  · rw [hm, h.badMagic, tally, tally, List.countP_append, BitVec.ofNat_add]
    cases o <;> rfl
  · rw [hl, h.badLength, tally, tally, List.countP_append, BitVec.ofNat_add]
    cases o <;> rfl
  · rw [hf, h.framesOk, tally, tally, List.countP_append, BitVec.ofNat_add]
    cases o <;> rfl

/-! Runs. -/

/-- The channel, what the pipe still has to carry, and what the calls returned. -/
structure Session where
  chan : DmaChanState
  pipe : List Byte
  results : List CallResult

/-- The frames and errors the receiver found, in order. -/
def foundIn (rs : List CallResult) : List Found :=
  rs.filterMap fun r => match r with
    | .found f => some f
    | _ => none

def start (stream : List Byte) : Session := ⟨.fresh, stream, []⟩

def call (cap : Nat) (t : Session) (c : Call) : Session :=
  let (r, s, pipe) := dmaRecvFrame t.chan t.pipe cap c
  ⟨s, pipe, t.results ++ [r]⟩

/-- The channel has read `os` off the stream. -/
structure Consistent (cap : Nat) (stream : List Byte) (os : List Found) (s : DmaChanState)
    (pipe : List Byte) : Prop where
  read : Read (parse cap) stream os s.reasm pipe
  counted : Counted s os

variable {cap : Nat} {stream pipe : List Byte} {os : List Found} {s : DmaChanState}

theorem Consistent.extract (h : Consistent cap stream os s pipe) :
    ((reasmTryExtract s cap) = (none, s) ∧ parse cap s.reasm = none) ∨
      ∃ o s', reasmTryExtract s cap = (some o, s') ∧
        Consistent cap stream (os ++ [o]) s' pipe := by
  rcases reasmTryExtract_spec s cap with ⟨hp, he⟩ | ⟨o, n, s', hp, he, hr, hm, hl, hf⟩
  · exact .inl ⟨he, hp⟩
  · refine .inr ⟨o, s', he, ?_, h.counted.push hm hl hf⟩
    rw [hr]
    exact h.read.yield (parse_stable cap) hp

theorem reasmReadOne_pipe (s : DmaChanState) (pipe : List Byte) (n : Nat) :
    (reasmReadOne s pipe n).2.1 = pipe.drop (min n (DMA_REASM_CAP - s.reasm.length)) := by
  change pipe.drop (pipe.take _).length = _
  rw [List.length_take]
  rcases Nat.le_total (min n (DMA_REASM_CAP - s.reasm.length)) pipe.length with hle | hle
  · rw [Nat.min_eq_left hle]
  · rw [Nat.min_eq_right hle, List.drop_length, List.drop_eq_nil_of_le hle]

theorem Consistent.readOne (h : Consistent cap stream os s pipe) (n : Nat) :
    Consistent cap stream os (reasmReadOne s pipe n).1 (reasmReadOne s pipe n).2.1 := by
  refine ⟨?_, h.counted.badMagic, h.counted.badLength, h.counted.framesOk⟩
  rw [reasmReadOne_pipe]
  exact h.read.fill (min n (DMA_REASM_CAP - s.reasm.length))

theorem recvLoop_consistent (timeoutZero : Bool) (ws : List Wakeup)
    (h : Consistent cap stream os s pipe) :
    Consistent cap stream (os ++ foundIn [(recvLoop cap timeoutZero s pipe ws).1])
      (recvLoop cap timeoutZero s pipe ws).2.1 (recvLoop cap timeoutZero s pipe ws).2.2 := by
  have hnone : ∀ {t : DmaChanState} {q : List Byte}, Consistent cap stream os t q →
      Consistent cap stream (os ++ foundIn [.noData]) t q := by
    intro t q ht
    rwa [foundIn, List.filterMap_cons_none rfl, List.filterMap_nil, List.append_nil]
  induction ws generalizing s pipe with
  | nil => exact hnone h
  | cons w ws ih =>
    cases w with
    | timeout | hangup | pollFailed e | readFailed e => exact hnone h
    | interrupted => exact ih h
    | nothing =>
      cases timeoutZero with
      | true => exact hnone h
      | false => exact ih h
    | data n =>
      have hread := h.readOne n
      rw [recvLoop]
      by_cases hgot : (reasmReadOne s pipe n).2.2 = 0
      · cases timeoutZero with
        | true =>
          simp only [hgot, if_true]
          exact hnone hread
        | false => simpa [hgot] using ih hread
      · rcases hread.extract with ⟨he, -⟩ | ⟨o, s', he, hs'⟩
        · cases timeoutZero with
          | true =>
            simp only [hgot, he, if_true, if_false]
            exact hnone hread
          | false => simpa [hgot, he] using ih hread
        · simpa [hgot, he, foundIn] using hs'

theorem foundIn_append (rs rs' : List CallResult) :
    foundIn (rs ++ rs') = foundIn rs ++ foundIn rs' := List.filterMap_append

/-- One call keeps the session consistent with the stream. -/
theorem call_consistent (t : Session) (c : Call)
    (h : Consistent cap stream (foundIn t.results) t.chan t.pipe) :
    Consistent cap stream (foundIn (call cap t c).results) (call cap t c).chan
      (call cap t c).pipe := by
  have hloop := recvLoop_consistent c.timeoutZero c.wakeups h
  rw [call, dmaRecvFrame]
  rcases h.extract with ⟨he, -⟩ | ⟨o, s', he, hs'⟩
  · simpa only [he, foundIn_append] using hloop
  · simp only [he, foundIn_append]
    exact hs'

/-- Whatever the calls and the pieces they read, the results are what the stream holds. -/
theorem run_consistent (cap : Nat) (stream : List Byte) (cs : List Call) :
    Consistent cap stream (foundIn (exec (call cap) (start stream) cs).results)
      (exec (call cap) (start stream) cs).chan (exec (call cap) (start stream) cs).pipe := by
  refine exec_invariant (P := fun _ _ => True)
    (fun t => Consistent cap stream (foundIn t.results) t.chan t.pipe)
    (fun t c h _ => call_consistent t c h) ?_ (along_true _ _ _)
  exact ⟨read_start _ _, rfl, rfl, rfl⟩

/-- A call that returns 0 for want of data has found nothing in the staging buffer. -/
theorem recvLoop_noData (timeoutZero : Bool) (ws : List Wakeup) (h : parse cap s.reasm = none)
    (hr : (recvLoop cap timeoutZero s pipe ws).1 = .noData) :
    parse cap (recvLoop cap timeoutZero s pipe ws).2.1.reasm = none := by
  induction ws generalizing s pipe with
  | nil => exact h
  | cons w ws ih =>
    cases w with
    | timeout | hangup => exact h
    | pollFailed e | readFailed e => cases hr
    | interrupted => exact ih h hr
    | nothing =>
      cases timeoutZero with
      | true => exact h
      | false => exact ih h hr
    | data n =>
      rw [recvLoop] at hr ⊢
      by_cases hgot : (reasmReadOne s pipe n).2.2 = 0
      · have hkeep : parse cap (reasmReadOne s pipe n).1.reasm = none := by
          have hnil : pipe.take (min n (DMA_REASM_CAP - s.reasm.length)) = [] :=
            List.length_eq_zero_iff.1 hgot
          change parse cap (s.reasm ++ pipe.take _) = none
          rw [hnil, List.append_nil, h]
        cases timeoutZero with
        | true => simpa [hgot] using hkeep
        | false =>
          simp only [hgot, if_true, Bool.false_eq_true, if_false] at hr ⊢
          exact ih hkeep hr
      · rcases reasmTryExtract_spec (reasmReadOne s pipe n).1 cap with
          ⟨hp, he⟩ | ⟨o, k, s', -, he, -⟩
        · cases timeoutZero with
          | true => simpa [hgot, he] using hp
          | false =>
            simp only [hgot, he, if_false, Bool.false_eq_true] at hr ⊢
            exact ih hp hr
        · simp only [hgot, he, if_false] at hr
          cases hr

theorem dmaRecvFrame_noData (c : Call) (hr : (dmaRecvFrame s pipe cap c).1 = .noData) :
    parse cap (dmaRecvFrame s pipe cap c).2.1.reasm = none := by
  rw [dmaRecvFrame] at hr ⊢
  rcases reasmTryExtract_spec s cap with ⟨hp, he⟩ | ⟨o, k, s', -, he, -⟩
  · rw [he] at hr ⊢
    exact recvLoop_noData _ _ hp hr
  · rw [he] at hr
    cases hr

/-- The stream is used up and the last call returned 0 for want of data. -/
def Session.drained (t : Session) : Prop := t.pipe = [] ∧ t.results.getLast? = some .noData

theorem drained_parse (cap : Nat) (stream : List Byte) (cs : List Call)
    (h : (exec (call cap) (start stream) cs).drained) :
    parse cap (exec (call cap) (start stream) cs).chan.reasm = none := by
  refine exec_invariant (P := fun _ _ => True)
    (fun t : Session => t.results.getLast? = some .noData → parse cap t.chan.reasm = none)
    (fun t c _ _ => ?_) (fun h => ?_) (along_true _ _ _) h.2
  · intro hlast
    refine dmaRecvFrame_noData c ?_
    rw [call, List.getLast?_append] at hlast
    exact Option.some.inj hlast
  · cases h

/-! Well-formed frames. -/

/-- A frame of the wire format: a known magic and a payload within the bound. -/
structure WireFrame where
  magic : Word
  payload : List Byte
  known : frameMagicIsKnown magic = true
  fits : payload.length ≤ DMA_FRAME_MAX_PAYLOAD

def WireFrame.bytes (f : WireFrame) : List Byte :=
  wordBytes f.magic ++ wordBytes (BitVec.ofNat 32 f.payload.length) ++ f.payload

theorem be32Load_wordBytes (w : Word) (bs : List Byte) : be32Load (wordBytes w ++ bs) = w := by
  change w.extractLsb' 24 8 ++ w.extractLsb' 16 8 ++ w.extractLsb' 8 8 ++ w.extractLsb' 0 8 = w
  apply BitVec.eq_of_getLsbD_eq
  intro i hi
  simp only [BitVec.getLsbD_append, BitVec.getLsbD_extractLsb']
  grind

theorem parse_frame (f : WireFrame) (hcap : f.payload.length ≤ cap) (c : List Byte) :
    parse cap (f.bytes ++ c) = some (.frame f.payload, f.bytes.length) := by
  have hbytes : f.bytes ++ c =
      wordBytes f.magic ++ (wordBytes (BitVec.ofNat 32 f.payload.length) ++ (f.payload ++ c)) := by
    simp [WireFrame.bytes]
  have hlen : declaredLen (f.bytes ++ c) = f.payload.length := by
    rw [declaredLen, hbytes]
    have hdrop : (wordBytes f.magic ++ (wordBytes (BitVec.ofNat 32 f.payload.length) ++
      (f.payload ++ c))).drop 4 = wordBytes (BitVec.ofNat 32 f.payload.length) ++
        (f.payload ++ c) := rfl
    rw [hdrop, be32Load_wordBytes, BitVec.toNat_ofNat]
    have := f.fits
    unfold DMA_FRAME_MAX_PAYLOAD at this
    omega
  have hmagic : frameMagicIsKnown (be32Load (f.bytes ++ c)) = true := by
    rw [hbytes, be32Load_wordBytes]
    exact f.known
  have hge : DMA_FRAME_HEADER_BYTES + f.payload.length ≤ (f.bytes ++ c).length := by
    simp only [WireFrame.bytes, List.length_append, wordBytes_length, DMA_FRAME_HEADER_BYTES]
    omega
  rw [parse_fitting (by omega) hmagic (by rw [hlen]; exact f.fits), hlen,
    if_neg (Nat.not_lt.2 hge), if_neg (Nat.not_lt.2 hcap)]
  have hdrop : (f.bytes ++ c).drop DMA_FRAME_HEADER_BYTES = f.payload ++ c := by
    rw [hbytes]
    rfl
  have hlen' : f.bytes.length = DMA_FRAME_HEADER_BYTES + f.payload.length := by
    simp only [WireFrame.bytes, List.length_append, wordBytes_length, DMA_FRAME_HEADER_BYTES]
  rw [hdrop, List.take_left, hlen']

theorem parsed_frames (fs : List WireFrame) (hcap : ∀ f ∈ fs, f.payload.length ≤ cap) :
    parsed (parse cap) (fs.flatMap WireFrame.bytes) fs.length =
      (fs.map fun f => .frame f.payload, []) := by
  have h := read_records WireFrame.bytes (fun f => Found.frame f.payload) fs
    (fun f hf c => parse_frame f (hcap f hf) c) []
  rwa [List.append_nil] at h

theorem tally_frames (fs : List WireFrame) {p : Found → Bool} (h : ∀ b, p (.frame b) = false)
    {os : List Found} (hos : os <+: fs.map fun f => .frame f.payload) : tally os p = 0 := by
  have hzero : os.countP p = 0 := by
    rw [List.countP_eq_zero]
    intro o ho
    obtain ⟨f, -, rfl⟩ := List.mem_map.1 (hos.subset ho)
    rw [h]
    exact Bool.false_ne_true
  rw [tally, hzero]
  rfl

/-- A stream of frames that fit the caller's buffer is received frame by frame. -/
theorem frames_received {fs : List WireFrame} (hcap : ∀ f ∈ fs, f.payload.length ≤ cap)
    (cs : List Call) :
    let t := exec (call cap) (start (fs.flatMap WireFrame.bytes)) cs
    (foundIn t.results <+: fs.map fun f => .frame f.payload) ∧
      (t.drained → foundIn t.results = fs.map fun f => .frame f.payload) := by
  intro t
  have ht := (run_consistent cap (fs.flatMap WireFrame.bytes) cs).read
  have hfull : Read (parse cap) (fs.flatMap WireFrame.bytes)
      (fs.map fun f => Found.frame f.payload) [] [] :=
    ⟨fs.length, parsed_frames fs hcap⟩
  refine ⟨hfull.final (parse_short (by decide)) ht, fun h => ?_⟩
  rw [h.1] at ht
  exact ht.final_eq (drained_parse cap _ cs h) hfull (parse_short (by decide))

end TetraBs.Dma
