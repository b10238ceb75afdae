import TetraBs.Infra.Axis
import TetraBs.Lib.Stream

/-! The packer `tetra_dma_frame_packer` (with its default `LEN_WIDTH = 16`): magic and length in front of
a byte stream. One step is one rising clock edge. -/
namespace TetraBs.Infra.Packer
open TetraBs.Bits TetraBs.Run TetraBs.Stream

inductive FsmState where
  | idle | hdrM | hdrL | payFill | payEmit | tail | done
deriving DecidableEq

structure Input where
  sStart : Bool
  sMagicSel : BitVec 2
  sPayloadLenBytes : BitVec 16
  sByteData : Byte
  sByteValid : Bool
  tready : Bool

structure State where
  state : FsmState
  magicQ : Word
  payRemaining : BitVec 16
  totalLenBytes : BitVec 24
  byteIdx : BitVec 2
  beatBuf : Word
  sBusy : Bool
  frameDonePulse : Bool
  tdata : Word
  tvalid : Bool
  tlast : Bool
  tkeep : BitVec 4

def reset : State := ⟨.idle, 0, 0, 0, 0, 0, false, false, 0, false, false, 0⟩

def sByteReady (s : State) : Bool := s.state = .payFill

def selectMagic (sel : BitVec 2) : Word :=
  if sel = 0 then MAGIC_TMAS else if sel = 1 then MAGIC_TMAR else if sel = 2 then MAGIC_TMDC
  else MAGIC_TMAS

/-- Overwrites one lane of the accumulator. -/
def setLane (w : Word) (idx : BitVec 2) (b : Byte) : Word :=
  (if idx = 0 then b else w.extractLsb' 24 8) ++ (if idx = 1 then b else w.extractLsb' 16 8) ++
    (if idx = 2 then b else w.extractLsb' 8 8) ++ (if idx = 3 then b else w.extractLsb' 0 8)

def tailKeep (idx : BitVec 2) : BitVec 4 :=
  if idx = 1 then 0b1000 else if idx = 2 then 0b1100 else if idx = 3 then 0b1110 else 0b1111

def State.drive (s : State) (b : Beat) : State :=
  { s with tdata := b.tdata, tvalid := true, tlast := b.tlast, tkeep := b.tkeep }

def State.release (s : State) : State := { s with tvalid := false, tlast := false, tkeep := 0 }

/-- The beat that the FSM state drives. -/
def State.lenBeat (s : State) : Beat := Beat.mid (s.totalLenBytes.setWidth 32)

def State.payBeat (s : State) : Beat := ⟨s.beatBuf, 0b1111, s.payRemaining = 0⟩

def State.tailBeat (s : State) : Beat := ⟨s.beatBuf, tailKeep s.byteIdx, true⟩

def step (s : State) (i : Input) : State :=
  let s := { s with frameDonePulse := false }
  match s.state with
  | .idle =>
    if i.sStart then
      { s.release with
        magicQ := selectMagic i.sMagicSel
        payRemaining := i.sPayloadLenBytes
        totalLenBytes := i.sPayloadLenBytes.setWidth 24 + 8
        byteIdx := 0, beatBuf := 0, sBusy := true, state := .hdrM }
    else s.release
  | .hdrM =>
    let s' := s.drive (Beat.mid s.magicQ)
    if i.tready then { s' with state := .hdrL } else s'
  | .hdrL =>
    let s' := s.drive s.lenBeat
    if i.tready then { s' with state := if s.payRemaining = 0 then .done else .payFill } else s'
  | .payFill =>
    if i.sByteValid then
      { s.release with
        beatBuf := setLane s.beatBuf s.byteIdx i.sByteData
        payRemaining := s.payRemaining - 1
        byteIdx := if s.byteIdx = 3 then 0 else s.byteIdx + 1
        state :=
          if s.byteIdx = 3 then .payEmit else if s.payRemaining = 1 then .tail else .payFill }
    else s.release
  | .payEmit =>
    let s' := s.drive s.payBeat
    if i.tready then { s' with state := if s.payRemaining = 0 then .done else .payFill } else s'
  | .tail =>
    let s' := s.drive s.tailBeat
    if i.tready then { s' with state := .done } else s'
  | .done => { s.release with sBusy := false, frameDonePulse := true, state := .idle }

/-! The packer as a source of beats. -/

def queue (s : State) : List Beat :=
  match s.state with
  | .hdrM => [Beat.mid s.magicQ, s.lenBeat]
  | .hdrL => [s.lenBeat]
  | .payEmit => [s.payBeat]
  | .tail => [s.tailBeat]
  | _ => []

def source : Source State Input Beat where
  step := step
  offered := fun s => if s.tvalid then some ⟨s.tdata, s.tkeep, s.tlast⟩ else none
  ready := Input.tready
  queue := queue
  first := fun s => s.state ≠ .hdrL
  refill := fun s i => if queue s = [] then queue (step s i) else []

theorem at_rest {s : State} (hst : s.state = .idle) (hv : s.tvalid = false) :
    source.queue s = [] ∧ source.offered s = none := by
  simp [source, queue, hst, hv]

theorem loads : source.Loads fun _ => True where
  idle {s} i _ hq := by
    replace hq : queue s = [] := hq
    refine ⟨?_, (if_pos hq).symm, ?_⟩
    · cases hst : s.state with
      | idle => cases hstart : i.sStart <;> simp [source, step, hst, State.release, hstart]
      | payFill => cases hvalid : i.sByteValid <;> simp [source, step, hst, State.release, hvalid]
      | done => simp [source, step, hst, State.release]
      | _ => simp [queue, hst] at hq
    · simp only [source, hq, if_true]
      intro hne
      have : (step s i).state ≠ .hdrL := by
        cases hst : s.state with
        | idle => cases hstart : i.sStart <;> simp [step, hst, State.release, hstart]
        | payFill =>
          cases hvalid : i.sByteValid with
          | false => simp [step, hst, State.release, hvalid]
          | true =>
            simp only [step, hst, hvalid, if_true]
            split
            · simp
            · split <;> simp
        | done => simp [step, hst]
        | _ => simp [queue, hst] at hq
      exact decide_eq_true this
  go {s i b q} _ hq hr := by
    replace hr : i.tready = true := hr
    replace hq : queue s = b :: q := hq
    cases hst : s.state with
    | idle | payFill | done => simp [queue, hst] at hq
    | hdrM | tail =>
      simp only [queue, hst, List.cons.injEq] at hq
      obtain ⟨rfl, rfl⟩ := hq
      simp [source, step, hst, hr, queue, State.drive, State.lenBeat, State.tailBeat]
    | hdrL | payEmit =>
      simp only [queue, hst, List.cons.injEq] at hq
      obtain ⟨rfl, rfl⟩ := hq
      by_cases hz : s.payRemaining = 0#16 <;>
        simp [source, step, hst, hr, queue, State.drive, State.lenBeat, State.payBeat, hz]
  wait {s i b q} _ hq hr := by
    replace hr : i.tready = false := hr
    replace hq : queue s = b :: q := hq
    cases hst : s.state with
    | idle | payFill | done => simp [queue, hst] at hq
    | _ =>
      simp only [queue, hst, List.cons.injEq] at hq
      obtain ⟨rfl, rfl⟩ := hq
      simp [source, step, hst, hr, queue, State.drive, State.lenBeat, State.payBeat, State.tailBeat]

/-! The frames asked for. -/

/-- A request with the payload bytes taken for it so far. -/
structure Frame where
  magicSel : BitVec 2
  payloadLenBytes : BitVec 16
  bytes : List Byte

def Frame.header (f : Frame) : List Byte :=
  wordBytes (selectMagic f.magicSel) ++ wordBytes (BitVec.ofNat 32 (f.payloadLenBytes.toNat + 8))

def Frame.beats (f : Frame) : List (List Byte × Bool) :=
  wireBeats (f.payloadLenBytes.toNat + 8) (f.header ++ f.bytes)

/-- Gives the newest frame one more byte. -/
def pushByte (b : Byte) : List Frame → List Frame
  | [] => []
  | [f] => [{ f with bytes := f.bytes ++ [b] }]
  | f :: f' :: fs => f :: pushByte b (f' :: fs)

/-- A start pulse counts while the packer is not busy, a byte when it is handshaken. -/
def note (log : List Frame) (s : State) (i : Input) : List Frame :=
  if i.sStart && !s.sBusy then log ++ [⟨i.sMagicSel, i.sPayloadLenBytes, []⟩]
  else if i.sByteValid && sByteReady s then pushByte i.sByteData log
  else log

def words (log : List Frame) : List (List Byte × Bool) := log.flatMap Frame.beats

/-- What an edge must meet for the transfer law. -/
def Meets (t : Traffic State Beat (List Frame)) (i : Input) : Prop :=
  source.KeepsUp t.state i ∧
    (i.sStart = true → t.state.sBusy = false → i.sPayloadLenBytes ≠ 0)

instance (t : Traffic State Beat (List Frame)) (i : Input) : Decidable (Meets t i) :=
  inferInstanceAs (Decidable (source.KeepsUp t.state i ∧
    (i.sStart = true → t.state.sBusy = false → i.sPayloadLenBytes ≠ 0)))

theorem pushByte_snoc (b : Byte) (fs : List Frame) (f : Frame) :
    pushByte b (fs ++ [f]) = fs ++ [{ f with bytes := f.bytes ++ [b] }] := by
  induction fs with
  | nil => rfl
  | cons g gs ih =>
    cases gs with
    | nil => rfl
    | cons g' gs => simpa [pushByte] using ih

/-- The accumulator holds the bytes of the frame that are not in a beat yet. -/
structure Filling (s : State) (f : Frame) (full part : List Byte) : Prop where
  bytes : f.bytes = full ++ part
  aligned : full.length % 4 = 0
  part : (wordBytes s.beatBuf).take s.byteIdx.toNat = part
  len : full.length + s.byteIdx.toNat + s.payRemaining.toNat = f.payloadLenBytes.toNat

/-- The FSM state against the newest request. -/
structure Linked (s : State) (log : List Frame) : Prop where
  busy : s.sBusy = decide (s.state ≠ .idle)
  filling : s.state ≠ .idle → s.state ≠ .tail → s.state ≠ .done →
    ∃ fs f full part, log = fs ++ [f] ∧ Filling s f full part
  remaining : s.state = .hdrM ∨ s.state = .hdrL ∨ s.state = .payFill → s.payRemaining ≠ 0

theorem Filling.part_length {s : State} {f : Frame} {full part : List Byte}
    (h : Filling s f full part) : part.length = s.byteIdx.toNat := by
  rw [← h.part, List.length_take]
  exact Nat.min_eq_left (by simp only [wordBytes, List.length_cons, List.length_nil]; omega)

theorem header_length (f : Frame) : f.header.length = 8 := rfl

/-- The beats of a frame whose accumulator is not empty. -/
theorem Filling.beats_push {s : State} {f : Frame} {full part bs : List Byte}
    (h : Filling s f full part) :
    Frame.beats { f with bytes := f.bytes ++ bs } =
      wireBeats (f.payloadLenBytes.toNat + 8) (f.header ++ full) ++
        wireBeats (s.byteIdx.toNat + s.payRemaining.toNat) (part ++ bs) := by
  have hlen : (f.header ++ full).length % 4 = 0 := by
    rw [List.length_append, header_length]
    have := h.aligned
    omega
  have hrest : f.payloadLenBytes.toNat + 8 - (f.header ++ full).length =
      s.byteIdx.toNat + s.payRemaining.toNat := by
    rw [List.length_append, header_length]
    have := h.len
    omega
  have hb : f.header ++ (f.bytes ++ bs) = (f.header ++ full) ++ (part ++ bs) := by
    rw [h.bytes]
    simp
  rw [← hrest, ← wireBeats_append hlen, ← hb]
  rfl

theorem wordBytes_setLane (w : Word) (idx : BitVec 2) (b : Byte) :
    (wordBytes (setLane w idx b)).take (idx.toNat + 1) =
      (wordBytes w).take idx.toNat ++ [b] := by
  rw [setLane, wordBytes_append]
  have hcases : idx = 0 ∨ idx = 1 ∨ idx = 2 ∨ idx = 3 := by bv_omega
  rcases hcases with rfl | rfl | rfl | rfl <;> rfl

theorem tailKeep_bytes (w : Word) {idx : BitVec 2} (h : idx ≠ 3) :
    keptBytes w (tailKeep (idx + 1)) = (wordBytes w).take (idx.toNat + 1) := by
  have hcases : idx = 0 ∨ idx = 1 ∨ idx = 2 := by bv_omega
  obtain ⟨h1, h2, h3, -⟩ := keptBytes_take w
  rcases hcases with rfl | rfl | rfl
  · exact h1
  · exact h2
  · exact h3

/-- The beats so far, while a byte is still missing. -/
theorem Filling.beats_eq {s : State} {f : Frame} {full part : List Byte}
    (h : Filling s f full part) (hrem : s.payRemaining ≠ 0) :
    f.beats = wireBeats (f.payloadLenBytes.toNat + 8) (f.header ++ full) := by
  have hpush : Frame.beats { f with bytes := f.bytes ++ [] } = _ := h.beats_push
  have hlen := h.part_length
  have hshort : wireBeats (s.byteIdx.toNat + s.payRemaining.toNat) part = [] := by
    rw [wireBeats_short (by omega), if_neg]
    rintro ⟨-, heq⟩
    bv_omega
  rwa [List.append_nil, List.append_nil, hshort, List.append_nil] at hpush

/-- A byte taken in `S_PAY_FILL`: the frame grows by it, and by the beat it completes. -/
theorem fill_step {s : State} {i : Input} {f : Frame} {full part : List Byte}
    (h : Filling s f full part) (hst : s.state = .payFill) (hrem : s.payRemaining ≠ 0)
    (hvalid : i.sByteValid = true) :
    Frame.beats { f with bytes := f.bytes ++ [i.sByteData] } =
        f.beats ++ (queue (step s i)).map Beat.wire ∧
      ∃ full' part', Filling (step s i) { f with bytes := f.bytes ++ [i.sByteData] } full' part' := by
  have hpart := h.part_length
  have hlane := wordBytes_setLane s.beatBuf s.byteIdx i.sByteData
  rw [h.part] at hlane
  have hlen := h.len
  have hsub : (s.payRemaining - 1).toNat + 1 = s.payRemaining.toNat := by bv_omega
  rw [h.beats_push, h.beats_eq hrem]
  by_cases hfour : s.byteIdx = 3
  · have hidx : s.byteIdx.toNat = 3 := congrArg BitVec.toNat hfour
    rw [hidx] at hpart hlen hlane
    have hall : (wordBytes (setLane s.beatBuf s.byteIdx i.sByteData)).take 4 =
      wordBytes (setLane s.beatBuf s.byteIdx i.sByteData) := rfl
    rw [hall] at hlane
    have hpart' : (part ++ [i.sByteData]).length = 4 := by rw [List.length_append, hpart]; rfl
    refine ⟨?_, full ++ (part ++ [i.sByteData]), [], ?_, ?_, ?_, ?_⟩
    · have hlast : (3 + s.payRemaining.toNat == 4) = decide (s.payRemaining - 1 = 0) := by
        rw [Bool.eq_iff_iff, beq_iff_eq, decide_eq_true_iff]
        constructor <;> intro h' <;> bv_omega
      rw [wireBeats_four hpart', hidx, hlast, ← hlane]
      simp only [queue, step, hst, hvalid, hfour, if_true, List.map_cons, List.map_nil,
        State.payBeat, Beat.wire, (keptBytes_take _).2.2.2]
    · simp [h.bytes]
    · have := h.aligned
      rw [List.length_append, hpart']
      omega
    · simp [step, hst, hvalid, hfour]
    · have hzero : (0 : BitVec 2).toNat = 0 := rfl
      simp only [step, hst, hvalid, hfour, if_true, List.length_append, hpart', hzero]
      omega
  · have hidx : (s.byteIdx + 1).toNat = s.byteIdx.toNat + 1 := by bv_omega
    refine ⟨?_, full, part ++ [i.sByteData], ?_, h.aligned, ?_, ?_⟩
    · have hlen' : (part ++ [i.sByteData]).length = s.byteIdx.toNat + 1 := by
        rw [List.length_append, hpart]
        rfl
      have hlt : (part ++ [i.sByteData]).length < 4 := by
        rw [hlen']
        bv_omega
      rw [wireBeats_short hlt, hlen', List.append_cancel_left_eq]
      by_cases hone : s.payRemaining = 1
      · have htail : s.byteIdx.toNat + 1 = s.byteIdx.toNat + s.payRemaining.toNat := by bv_omega
        rw [if_pos ⟨by simp, htail⟩]
        simp only [queue, step, hst, hvalid, hfour, hone, if_true, if_false, List.map_cons,
          List.map_nil, State.tailBeat, Beat.wire, tailKeep_bytes _ hfour, hlane]
      · have hmore : ¬ s.byteIdx.toNat + 1 = s.byteIdx.toNat + s.payRemaining.toNat := by bv_omega
        rw [if_neg fun hh => hmore hh.2]
        have hst' : (step s i).state = .payFill := by
          simp only [step, hst, hvalid, hfour, hone, if_true, if_false]
        rw [queue, hst']
        rfl
    · simp [h.bytes]
    · simp only [step, hst, hvalid, if_true, hfour, if_false, hidx]
      exact hlane
    · simp only [step, hst, hvalid, if_true, hfour, if_false, hidx]
      omega

theorem Filling.congr {s s' : State} {f : Frame} {full part : List Byte}
    (h : Filling s f full part) (hbuf : s'.beatBuf = s.beatBuf) (hidx : s'.byteIdx = s.byteIdx)
    (hrem : s'.payRemaining = s.payRemaining) : Filling s' f full part := by
  refine ⟨h.bytes, h.aligned, ?_, ?_⟩
  · rw [hbuf, hidx]
    exact h.part
  · rw [hidx, hrem]
    exact h.len

/-- An edge that takes neither a request nor a byte leaves the link between state and log. -/
theorem Linked.congr {s s' : State} {log : List Frame} (h : Linked s log)
    (hbusy : s'.sBusy = decide (s'.state ≠ .idle)) (hbuf : s'.beatBuf = s.beatBuf)
    (hidx : s'.byteIdx = s.byteIdx) (hrem : s'.payRemaining = s.payRemaining)
    (hst : s'.state ≠ .idle → s'.state ≠ .tail → s'.state ≠ .done →
      s.state ≠ .idle ∧ s.state ≠ .tail ∧ s.state ≠ .done)
    (hne : s'.state = .hdrM ∨ s'.state = .hdrL ∨ s'.state = .payFill → s.payRemaining ≠ 0) :
    Linked s' log := by
  refine ⟨hbusy, fun hi ht hd => ?_, ?_⟩
  · obtain ⟨hi', ht', hd'⟩ := hst hi ht hd
    obtain ⟨fs, f, full, part, hlog, hfill⟩ := h.filling hi' ht' hd'
    exact ⟨fs, f, full, part, hlog, hfill.congr hbuf hidx hrem⟩
  · rw [hrem]
    exact hne

theorem start_beats (i : Input) (hne : i.sPayloadLenBytes ≠ 0) :
    Frame.beats ⟨i.sMagicSel, i.sPayloadLenBytes, []⟩ =
      [Beat.mid (selectMagic i.sMagicSel),
        Beat.mid ((i.sPayloadLenBytes.setWidth 24 + 8).setWidth 32)].map Beat.wire := by
  have hlen : BitVec.ofNat 32 (i.sPayloadLenBytes.toNat + 8) =
      (i.sPayloadLenBytes.setWidth 24 + 8).setWidth 32 := by
    apply BitVec.eq_of_toNat_eq
    simp only [BitVec.toNat_setWidth, BitVec.toNat_add, BitVec.toNat_ofNat]
    bv_omega
  have hfirst : (i.sPayloadLenBytes.toNat + 8 == 4) = false := by simp
  have hsecond : (i.sPayloadLenBytes.toNat + 8 - 4 == 4) = false := by
    rw [beq_eq_false_iff_ne]
    bv_omega
  rw [Frame.beats, Frame.header, List.append_nil, hlen, wireBeats_append (by simp),
    wireBeats_four (by simp), wireBeats_four (by simp), wordBytes_length, hfirst, hsecond,
    List.map_cons, List.map_cons, Beat.mid_wire, Beat.mid_wire]
  rfl

/-- A start opens a frame and queues its header. -/
theorem linked_start {s : State} {i : Input} {log : List Frame} (hst : s.state = .idle)
    (hfree : s.sBusy = false) (hstart : i.sStart = true) (hne : i.sPayloadLenBytes ≠ 0) :
    Linked (step s i) (note log s i) ∧
      words (note log s i) = words log ++ (source.refill s i).map Beat.wire := by
  have hnote : note log s i = log ++ [⟨i.sMagicSel, i.sPayloadLenBytes, []⟩] := by
    simp [note, hstart, hfree]
  rw [hnote]
  constructor
  · refine ⟨by simp [step, hst, hstart], fun _ _ _ => ?_, fun _ => by simpa [step, hst, hstart]⟩
    exact ⟨log, _, [], [], rfl, rfl, rfl, by simp [step, hst, hstart], by
      simp [step, hst, hstart]⟩
  · rw [words, List.flatMap_append, List.flatMap_cons, List.flatMap_nil, List.append_nil,
      start_beats i hne]
    simp [words, source, queue, hst, step, hstart, State.lenBeat]

/-- A byte belongs to the frame that is being filled. -/
theorem linked_byte {s : State} {i : Input} {log : List Frame} (h : Linked s log)
    (hst : s.state = .payFill) (htaken : s.sBusy = true) (hvalid : i.sByteValid = true) :
    Linked (step s i) (note log s i) ∧
      words (note log s i) = words log ++ (source.refill s i).map Beat.wire := by
  obtain ⟨fs, f, full, part, hlog, hfill⟩ :=
    h.filling (by simp [hst]) (by simp [hst]) (by simp [hst])
  have hrem := h.remaining (.inr (.inr hst))
  obtain ⟨hbeats, full', part', hfill'⟩ := fill_step hfill hst hrem hvalid
  have hnote : note log s i = fs ++ [{ f with bytes := f.bytes ++ [i.sByteData] }] := by
    simp [note, htaken, hvalid, sByteReady, hst, hlog, pushByte_snoc]
  rw [hnote]
  constructor
  · refine ⟨?_, fun _ _ _ => ⟨fs, _, full', part', rfl, hfill'⟩, ?_⟩
    · simp only [step, hst, hvalid, if_true]
      split <;> (try split) <;> simp [State.release, htaken]
    · simp only [step, hst, hvalid, if_true]
      intro hst'
      by_cases hone : s.payRemaining = 1
      · by_cases hfour : s.byteIdx = 3#2 <;> simp [hone, hfour] at hst'
      · bv_omega
  · have hq : queue s = [] := by rw [queue, hst]
    rw [words, List.flatMap_append, hlog, words, List.flatMap_append, List.append_assoc]
    change _ ++ (Frame.beats _ ++ []) = _ ++ ((f.beats ++ []) ++ _)
    rw [List.append_nil, List.append_nil, hbeats]
    simp only [source, hq, if_true]

/-- One edge keeps the link, and queues what the log grows by. -/
theorem linked_step {s : State} {i : Input} {log : List Frame} (h : Linked s log)
    (hlen : i.sStart = true → s.sBusy = false → i.sPayloadLenBytes ≠ 0) :
    Linked (step s i) (note log s i) ∧
      words (note log s i) = words log ++ (source.refill s i).map Beat.wire := by
  have hbusy := h.busy
  cases hst : s.state with
  | idle =>
    have hfree : s.sBusy = false := by simpa [hst] using hbusy
    cases hstart : i.sStart with
    | true => exact linked_start hst hfree hstart (hlen hstart hfree)
    | false =>
      have hnote : note log s i = log := by simp [note, hstart, sByteReady, hst]
      rw [hnote]
      exact ⟨h.congr (by simpa [step, hst, hstart, State.release] using hbusy)
        (by simp [step, hst, hstart, State.release]) (by simp [step, hst, hstart, State.release])
        (by simp [step, hst, hstart, State.release]) (by simp [step, hst, hstart, State.release])
        (by simp [step, hst, hstart, State.release]),
        by simp [source, queue, hst, step, hstart, State.release]⟩
  | payFill =>
    have htaken : s.sBusy = true := by simpa [hst] using hbusy
    cases hvalid : i.sByteValid with
    | true => exact linked_byte h hst htaken hvalid
    | false =>
      have hnote : note log s i = log := by simp [note, htaken, hvalid]
      rw [hnote]
      exact ⟨h.congr (by simpa [step, hst, hvalid, State.release] using hbusy)
        (by simp [step, hst, hvalid, State.release]) (by simp [step, hst, hvalid, State.release])
        (by simp [step, hst, hvalid, State.release]) (by simp [hst])
        (fun _ => h.remaining (.inr (.inr hst))),
        by simp [source, queue, hst, step, hvalid, State.release]⟩
  | hdrM =>
    have htaken : s.sBusy = true := by simpa [hst] using hbusy
    have hnote : note log s i = log := by simp [note, htaken, sByteReady, hst]
    rw [hnote]
    refine ⟨?_, by simp [source, queue, hst]⟩
    cases hr : i.tready <;> exact h.congr (by simp [step, hst, hr, State.drive, htaken])
      (by simp [step, hst, hr, State.drive]) (by simp [step, hst, hr, State.drive])
      (by simp [step, hst, hr, State.drive]) (by simp [hst]) (fun _ => h.remaining (.inl hst))
  | hdrL =>
    have htaken : s.sBusy = true := by simpa [hst] using hbusy
    have hnote : note log s i = log := by simp [note, htaken, sByteReady, hst]
    have hne : ¬ s.payRemaining = 0#16 := h.remaining (.inr (.inl hst))
    rw [hnote]
    refine ⟨?_, by simp [source, queue, hst]⟩
    cases hr : i.tready <;> exact h.congr (by simp [step, hst, hr, State.drive, htaken, hne])
      (by simp [step, hst, hr, State.drive]) (by simp [step, hst, hr, State.drive])
      (by simp [step, hst, hr, State.drive]) (by simp [hst]) (fun _ => hne)
  | payEmit =>
    have htaken : s.sBusy = true := by simpa [hst] using hbusy
    have hnote : note log s i = log := by simp [note, htaken, sByteReady, hst]
    rw [hnote]
    refine ⟨?_, by simp [source, queue, hst]⟩
    cases hr : i.tready <;> by_cases hz : s.payRemaining = 0#16 <;>
      exact h.congr (by simp [step, hst, hr, State.drive, htaken, hz])
        (by simp [step, hst, hr, State.drive]) (by simp [step, hst, hr, State.drive])
        (by simp [step, hst, hr, State.drive]) (by simp [hst])
        (by simp [step, hst, hr, State.drive, hz])
  | tail =>
    have htaken : s.sBusy = true := by simpa [hst] using hbusy
    have hnote : note log s i = log := by simp [note, htaken, sByteReady, hst]
    rw [hnote]
    refine ⟨?_, by simp [source, queue, hst]⟩
    cases hr : i.tready <;> exact h.congr (by simp [step, hst, hr, State.drive, htaken])
      (by simp [step, hst, hr, State.drive]) (by simp [step, hst, hr, State.drive])
      (by simp [step, hst, hr, State.drive]) (by simp [step, hst, hr, State.drive])
      (by simp [step, hst, hr, State.drive])
  | done =>
    have htaken : s.sBusy = true := by simpa [hst] using hbusy
    have hnote : note log s i = log := by simp [note, htaken, sByteReady, hst]
    rw [hnote]
    exact ⟨h.congr (by simp [step, hst]) (by simp [step, hst, State.release])
      (by simp [step, hst, State.release]) (by simp [step, hst, State.release])
      (by simp [step, hst]) (by simp [step, hst]), by simp [source, queue, hst, step]⟩

theorem delivered {is : List Input}
    (ha : Along (Traffic.edge source note) Meets (Traffic.start reset []) is) :
    (exec (Traffic.edge source note) (Traffic.start reset []) is).Delivered source Beat.wire
      words := by
  obtain ⟨hsettled, hconserved⟩ := Traffic.run_conserved loads (fun _ _ _ => trivial)
    (fun _ _ h => h.1) trivial rfl rfl ha
  refine hconserved.delivered hsettled ?_
  have hreset : Linked reset [] := ⟨rfl, fun h => absurd rfl h, by simp [reset]⟩
  refine (exec_invariant (fun t : Traffic State Beat (List Frame) =>
    Linked t.state t.log ∧ t.due.map Beat.wire = words t.log) (fun t i ht hm => ?_)
    ⟨hreset, rfl⟩ ha).2
  obtain ⟨hlink, hwords⟩ := linked_step ht.1 hm.2
  refine ⟨hlink, ?_⟩
  change (t.due ++ source.refill t.state i).map Beat.wire = words (note t.log t.state i)
  rw [List.map_append, ht.2, hwords]

end TetraBs.Infra.Packer
