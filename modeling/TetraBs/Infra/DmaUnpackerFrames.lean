import TetraBs.Infra.DmaFrameUnpacker
import TetraBs.Infra.FrameOutcomes

/-! What the unpacker makes of its words and of whole frames: a reader of the words in order, the
unpacker as a serializer that serves it, and the frames one after the other. -/
namespace TetraBs.Infra.Unpacker
open TetraBs.Bits TetraBs.Run TetraBs.Stream TetraBs.Serial

/-- What the next word is: the magic, the length, a part of the payload with `count` of the
`declared` bytes accounted for, or a word to be dropped. -/
inductive Await where
  | magic
  | length
  | body (declared count : BitVec 24)
  | skip
deriving DecidableEq

/-- The byte count at the end of a frame agrees with the declared one; one that the last lane
brought to 2^24 does not. -/
def LengthMet (declared count : BitVec 24) (lane0 : Bool) : Prop :=
  count = declared ∧ ¬ (lane0 = true ∧ count = 0)

instance (declared count : BitVec 24) (lane0 : Bool) :
    Decidable (LengthMet declared count lane0) := inferInstanceAs (Decidable (_ ∧ _))

def resync (last : Bool) : Await := if last then .magic else .skip

def verdictOf (met : Prop) [Decidable met] : Signal Byte := if met then .done else .error

/-- The bytes `bs` of a word of the payload. -/
def readBody (declared count : BitVec 24) (bs : List Byte) (lane0 last : Bool) :
    Await × List (Signal Byte) :=
  let count' := count + BitVec.ofNat 24 bs.length
  (if last then .magic else .body declared count',
    bs.map .item ++ if last then [verdictOf (LengthMet declared count' lane0)] else [])

def read : Await → Beat → Await × List (Signal Byte)
  | .magic, b =>
    if (decodeMagic b.tdata).isSome then if b.tlast then (.magic, [.error]) else (.length, [])
    else (resync b.tlast, [.error])
  | .length, b =>
    if b.tlast then (.magic, [verdictOf (b.tdata.extractLsb' 0 24 = 8)])
    else (.body (b.tdata.extractLsb' 0 24) 8, [])
  | .body declared count, b =>
    readBody declared count b.bytes (b.tkeep.getLsbD 0) b.tlast
  | .skip, b => (resync b.tlast, [])

def reader : Reader Await Beat (Signal Byte) := ⟨fun a b => (read a b).1, fun a b => (read a b).2⟩

/-- What is left of the word that is emitted, from lane `l` on. -/
def restOfWord (s : State) (l : Nat) : Await × List (Signal Byte) :=
  readBody s.declaredTotalLen s.runningByteCount (lanesBelow s.curWord s.curKeep (l + 1))
    (s.curKeep.getLsbD 0) s.curIsLast

/-- What the unpacker awaits once the present word is gone. -/
def awaits (s : State) : Await :=
  match s.state with
  | .hdrM => .magic
  | .hdrL => .length
  | .pay => .body s.declaredTotalLen s.runningByteCount
  | .emit0 => (restOfWord s 3).1
  | .emit1 => (restOfWord s 2).1
  | .emit2 => (restOfWord s 1).1
  | .emit3 => (restOfWord s 0).1
  | .drain => .skip

/-- What the present word still has to raise. -/
def owed (s : State) : List (Signal Byte) :=
  match lane? s with
  | some l => (restOfWord s l).2
  | none => []

theorem awaits_lane {s : State} {l : Nat} (h : lane? s = some l) :
    awaits s = (restOfWord s l).1 := by
  cases hst : s.state <;> simp [lane?, hst] at h <;> subst h <;> simp [awaits, hst]

theorem owed_lane {s : State} {l : Nat} (h : lane? s = some l) :
    owed s = (restOfWord s l).2 := by
  rw [owed, h]

theorem owed_no_lane {s : State} (h : lane? s = none) : owed s = [] := by
  rw [owed, h]

theorem readBody_item (declared count : BitVec 24) (b : Byte) (bs : List Byte)
    (lane0 last : Bool) :
    readBody declared count (b :: bs) lane0 last =
      ((readBody declared (count + 1) bs lane0 last).1,
        .item b :: (readBody declared (count + 1) bs lane0 last).2) := by
  have hcount : count + BitVec.ofNat 24 (b :: bs).length =
      count + 1 + BitVec.ofNat 24 bs.length := by
    rw [List.length_cons, Nat.add_comm bs.length 1, BitVec.ofNat_add, ← BitVec.add_assoc]
    rfl
  simp only [readBody, hcount]
  rfl

/-- The comparison of the last lane has a carry that the count does not keep. -/
theorem wide_length_iff (count declared : BitVec 24) :
    count.setWidth 32 + 1#32 = declared.setWidth 32 ↔ LengthMet declared (count + 1) true := by
  have hc := count.isLt
  have hd := declared.isLt
  rw [LengthMet, ← BitVec.toNat_inj, ← BitVec.toNat_inj, ← BitVec.toNat_inj]
  simp only [BitVec.toNat_add, BitVec.toNat_setWidth, BitVec.ofNat_eq_ofNat, BitVec.toNat_ofNat,
    true_and]
  omega

theorem length_iff (count declared : BitVec 24) :
    count = declared ↔ LengthMet declared count false := by
  simp [LengthMet]

/-! Lane by lane, the unpacker raises what the word owes. -/

theorem restOfWord_kept {s : State} {l : Nat} (ha : s.curKeep.getLsbD l = true) :
    restOfWord s l =
      ((readBody s.declaredTotalLen (s.runningByteCount + 1)
          (lanesBelow s.curWord s.curKeep l) (s.curKeep.getLsbD 0) s.curIsLast).1,
        .item (laneByte s.curWord l) :: (readBody s.declaredTotalLen (s.runningByteCount + 1)
          (lanesBelow s.curWord s.curKeep l) (s.curKeep.getLsbD 0) s.curIsLast).2) := by
  rw [restOfWord, lanesBelow_kept ha, readBody_item]

theorem restOfWord_skipped {s : State} {l : Nat} (ha : s.curKeep.getLsbD l = false) :
    restOfWord s l = readBody s.declaredTotalLen s.runningByteCount
      (lanesBelow s.curWord s.curKeep l) (s.curKeep.getLsbD 0) s.curIsLast := by
  rw [restOfWord, lanesBelow_skipped ha]

theorem wordDone_owed {s : State} {ok lane0 : Bool} (h : pulses s = [])
    (hok : ok = true ↔ LengthMet s.declaredTotalLen s.runningByteCount lane0) :
    pulses (s.wordDone ok) =
        (readBody s.declaredTotalLen s.runningByteCount [] lane0 s.curIsLast).2 ∧
      awaits (s.wordDone ok) =
        (readBody s.declaredTotalLen s.runningByteCount [] lane0 s.curIsLast).1 := by
  have hend : s.mFrameEndPulse = false := by
    cases he : s.mFrameEndPulse with
    | false => rfl
    | true => simp [pulses, he] at h
  have herr : s.mFrameErrorPulse = false := by
    cases he : s.mFrameErrorPulse with
    | false => rfl
    | true => simp [pulses, he] at h
  have hzero : s.runningByteCount + BitVec.ofNat 24 ([] : List Byte).length =
      s.runningByteCount := BitVec.add_zero _
  simp only [State.wordDone, State.verify, State.fail, readBody, hzero, verdictOf, ← hok,
    List.map_nil, List.nil_append]
  cases s.curIsLast <;> cases ok <;> simp [pulses, awaits, hend, herr]

theorem clearPulses_pulses (s : State) : pulses s.clearPulses = [] := rfl

/-- An edge in a lane raises the beginning of what the word owes. -/
theorem lane_serves {s : State} {l : Nat} (h : lane? s = some l) (i : SlaveInput) :
    serializer.raised s i ++ owed (step s i) = owed s ∧ awaits (step s i) = awaits s := by
  rw [owed_lane h, awaits_lane h]
  cases ha : s.curKeep.getLsbD l with
  | false =>
    have hraised : serializer.raised s i = pulses (step s i) :=
      serializer.raised_empty (lanes.queue_skipped h ha) i
    rw [hraised, restOfWord_skipped ha]
    cases l with
    | zero =>
      rw [skip_last h ha, owed_no_lane (wordDone_lane _ _), List.append_nil, ha]
      refine wordDone_owed (clearPulses_pulses s.release) ?_
      rw [decide_eq_true_iff]
      exact length_iff _ _
    | succ l =>
      have hl := lane_lt h
      have hl' : lane? (step s i) = some l := by
        rw [skip_lane h ha]
        exact lane_of_laneState (Nat.lt_of_succ_lt hl) rfl
      rw [owed_lane hl', awaits_lane hl', skip_lane h ha]
      exact ⟨rfl, rfl⟩
  | true =>
    cases hr : i.byteReady with
    | false =>
      have hraised : serializer.raised s i = pulses (step s i) := serializer.raised_waiting hr s
      have hl' : lane? (step s i) = some l := by
        rw [wait_lane h ha hr]
        exact h
      rw [hraised, owed_lane hl', awaits_lane hl', wait_lane h ha hr]
      exact ⟨rfl, rfl⟩
    | true =>
      have hraised : serializer.raised s i =
          .item (laneByte s.curWord l) :: pulses (step s i) :=
        serializer.raised_item hr (lanes.queue_active h ha)
      rw [hraised, restOfWord_kept ha]
      cases l with
      | zero =>
        have hmet := (decide_eq_true_iff (p := _)).trans
          (wide_length_iff s.runningByteCount s.declaredTotalLen)
        rw [load_last h ha hr, owed_no_lane (wordDone_lane _ _), List.append_nil, ha]
        have hdone := wordDone_owed
          (s := (s.clearPulses.drive (laneByte s.curWord 0)).count) (clearPulses_pulses s) hmet
        exact ⟨congrArg _ hdone.1, hdone.2⟩
      | succ l =>
        have hl := lane_lt h
        have hl' : lane? (step s i) = some l := by
          rw [load_lane h ha hr]
          exact lane_of_laneState (Nat.lt_of_succ_lt hl) rfl
        rw [owed_lane hl', awaits_lane hl', load_lane h ha hr]
        exact ⟨rfl, rfl⟩

/-! Between the words, the unpacker follows the reader. -/

theorem ready_of_no_lane {s : State} (h : lane? s = none) : sAxisTready s = true := by
  cases hst : s.state <;> simp [lane?, hst] at h <;> simp [sAxisTready, hst]

theorem not_ready_of_lane {s : State} {l : Nat} (h : lane? s = some l) :
    sAxisTready s = false := by
  cases hst : s.state <;> simp [lane?, hst] at h <;> simp [sAxisTready, hst]

theorem raised_no_lane {s : State} (h : lane? s = none) (i : SlaveInput) :
    serializer.raised s i = pulses (step s i) := by
  rw [Serializer.raised, show serializer.queue s = [] from lanes.queue_no_lane h]
  simp only [List.map_nil, ite_self, List.nil_append]
  rfl

/-- An edge without a word changes nothing that matters. -/
theorem idle_serves {s : State} (h : lane? s = none) {i : SlaveInput} (hv : i.tvalid = false) :
    serializer.raised s i ++ owed (step s i) = owed s ∧ awaits (step s i) = awaits s := by
  rw [raised_no_lane h, owed_no_lane h]
  cases hst : s.state with
  | emit0 | emit1 | emit2 | emit3 => simp [lane?, hst] at h
  | _ => simp [step, hst, hv, State.clearPulses, State.release, pulses, owed, lane?, awaits]

/-- A word is read as the reader reads it. -/
theorem word_serves {s : State} (hi : Inv s) (h : lane? s = none) {i : SlaveInput}
    (hv : i.tvalid = true) :
    serializer.raised s i ++ owed (step s i) = (read (awaits s) i.beat).2 ∧
      awaits (step s i) = (read (awaits s) i.beat).1 := by
  have hready := ready_of_no_lane h
  rw [raised_no_lane h]
  cases hst : s.state with
  | emit0 | emit1 | emit2 | emit3 => simp [lane?, hst] at h
  | hdrM =>
    simp only [step, hst, hv, hready, State.clearPulses, State.release, State.fail, awaits, read,
      SlaveInput.beat, resync]
    cases hd : decodeMagic i.tdata <;> cases i.tlast <;> simp [pulses, owed, lane?]
  | hdrL =>
    simp only [Inv, hst] at hi
    simp only [step, hst, hv, hready, State.clearPulses, State.release, State.verify, State.fail,
      awaits, read, SlaveInput.beat, verdictOf, hi]
    by_cases hm : i.tdata.extractLsb' 0 24 = 8#24 <;> cases i.tlast <;> simp [hm, pulses, owed, lane?]
  | pay =>
    simp only [step, hst, hv, hready, State.clearPulses, State.release, awaits, read]
    simp [pulses, owed, lane?, restOfWord, lanesBelow_four, Beat.bytes, SlaveInput.beat]
  | drain =>
    simp only [step, hst, hv, hready, State.clearPulses, State.release, awaits, read, resync,
      SlaveInput.beat]
    cases i.tlast <;> simp [pulses, owed, lane?]

theorem serves : serializer.Serves reader awaits owed Inv where
  take {s i w} hi ht := by
    cases h : lane? s with
    | some l =>
      simp [serializer, not_ready_of_lane h] at ht
    | none =>
      cases hv : i.tvalid with
      | false => simp [serializer, hv] at ht
      | true =>
        have hw : w = i.beat := by
          simp only [serializer, hv, ready_of_no_lane h, Bool.and_self, if_true,
            Option.some.injEq] at ht
          exact ht.symm
        rw [owed_no_lane h, hw]
        exact word_serves hi h hv
  stay {s i} _ ht := by
    cases h : lane? s with
    | some l => exact lane_serves h i
    | none =>
      cases hv : i.tvalid with
      | false => exact idle_serves h hv
      | true =>
        simp [serializer, hv, ready_of_no_lane h] at ht

/-! Frames. -/

/-- The last word keeps its last lane. -/
def lastLane (ws : List Beat) : Bool :=
  match ws.getLast? with
  | some b => b.tkeep.getLsbD 0
  | none => false

/-- A frame with a known magic and a length that agrees with the words. -/
def Complete : List Beat → Prop
  | m :: l :: ws =>
    (decodeMagic m.tdata).isSome = true ∧
      LengthMet (l.tdata.extractLsb' 0 24) (8 + BitVec.ofNat 24 (ws.flatMap Beat.bytes).length)
        (lastLane ws)
  | _ => False

instance Complete.decidable : (f : List Beat) → Decidable (Complete f)
  | [] => isFalse id
  | [_] => isFalse id
  | _ :: _ :: _ => inferInstanceAs (Decidable (_ ∧ _))

def payload : List Beat → List Byte
  | _ :: _ :: ws => ws.flatMap Beat.bytes
  | _ => []

def verdict (f : List Beat) : Outcome := if Complete f then .done else .error

/-- A length word that counts the header and the payload makes a frame complete. -/
theorem complete_of_length {m l : Beat} {ws : List Beat} (hm : (decodeMagic m.tdata).isSome = true)
    (hlen : (l.tdata.extractLsb' 0 24).toNat = 8 + (ws.flatMap Beat.bytes).length) :
    Complete (m :: l :: ws) := by
  have hlt := (l.tdata.extractLsb' 0 24).isLt
  have hsum : (8 + BitVec.ofNat 24 (ws.flatMap Beat.bytes).length).toNat =
      8 + (ws.flatMap Beat.bytes).length := by
    simp only [BitVec.toNat_add, BitVec.ofNat_eq_ofNat, BitVec.toNat_ofNat]
    omega
  refine ⟨hm, ?_, ?_⟩
  · apply BitVec.eq_of_toNat_eq
    rw [hsum, hlen]
  · rintro ⟨-, hzero⟩
    rw [hzero] at hsum
    simp only [BitVec.ofNat_eq_ofNat, BitVec.toNat_ofNat] at hsum
    omega

theorem outputs_read (a : Await) (b : Beat) (bs : List Beat) :
    reader.outputs a (b :: bs) = (read a b).2 ++ reader.outputs (read a b).1 bs := rfl

theorem after_read (a : Await) (b : Beat) (bs : List Beat) :
    reader.after a (b :: bs) = reader.after (read a b).1 bs := rfl

theorem drops : Drops reader .skip .magic := ⟨fun _ => rfl, fun _ => rfl⟩

theorem after_resync {b : Beat} {bs : List Beat} (h : IsFrame (b :: bs)) :
    reader.outputs (resync b.tlast) bs = [] ∧ reader.after (resync b.tlast) bs = .magic :=
  drops.rest h

/-- The payload of a frame is counted to its last word. -/
theorem read_body {d c : BitVec 24} {f : List Beat} (h : IsFrame f) :
    reader.outputs (.body d c) f = (f.flatMap Beat.bytes).map .item ++
        [verdictOf (LengthMet d (c + BitVec.ofNat 24 (f.flatMap Beat.bytes).length)
          (lastLane f))] ∧
      reader.after (.body d c) f = .magic := by
  induction f generalizing c with
  | nil => exact absurd h id
  | cons b bs ih =>
    cases hl : b.tlast with
    | true =>
      obtain rfl := (isFrame_last hl).1 h
      simp [outputs_read, Reader.outputs_nil, after_read, Reader.after_nil, read, readBody, hl, lastLane]
    | false =>
      have hbs := (isFrame_more hl).1 h
      obtain ⟨hout, hafter⟩ := ih (c := c + BitVec.ofNat 24 b.bytes.length) hbs
      have hlast : lastLane (b :: bs) = lastLane bs := by
        cases bs with
        | nil => exact absurd hbs id
        | cons c cs => simp [lastLane]
      have hcount : c + BitVec.ofNat 24 ((b :: bs).flatMap Beat.bytes).length =
          c + BitVec.ofNat 24 b.bytes.length +
            BitVec.ofNat 24 (bs.flatMap Beat.bytes).length := by
        rw [List.flatMap_cons, List.length_append, BitVec.ofNat_add, BitVec.add_assoc]
      rw [outputs_read, after_read, read, readBody, hl, hlast, hcount, List.flatMap_cons,
        List.map_append]
      simp only [Bool.false_eq_true, if_false, List.append_nil, hout, List.append_assoc, true_and]
      exact hafter

/-- How the reader leaves a frame: at the first word of a frame, with the payload and the end, or
with an error. -/
structure Ends (a : Await) (f g : List Beat) : Prop where
  after : reader.after a f = .magic
  complete : Complete g → reader.outputs a f = script (payload g)
  error : ¬ Complete g → outcomes (reader.outputs a f) = [.error]

theorem ends_dropped {a : Await} {f g : List Beat} (hg : ¬ Complete g)
    (hafter : reader.after a f = .magic) (hout : outcomes (reader.outputs a f) = [.error]) :
    Ends a f g where
  after := hafter
  complete h := absurd h hg
  error _ := hout

theorem ends_body {m l : Beat} {ws : List Beat} (hm : (decodeMagic m.tdata).isSome = true)
    (h : IsFrame ws) : Ends (.body (l.tdata.extractLsb' 0 24) 8) ws (m :: l :: ws) := by
  obtain ⟨hout, hafter⟩ := read_body (d := l.tdata.extractLsb' 0 24) (c := 8) h
  refine ⟨hafter, fun hc => ?_, fun hc => ?_⟩
  · rw [hout, verdictOf, if_pos hc.2]
    rfl
  · have hmet : ¬ LengthMet (l.tdata.extractLsb' 0 24)
        (8 + BitVec.ofNat 24 (ws.flatMap Beat.bytes).length) (lastLane ws) :=
      fun hmet => hc ⟨hm, hmet⟩
    rw [hout, verdictOf, if_neg hmet, outcomes_append, outcomes_items]
    rfl

theorem ends_length {m : Beat} {f : List Beat} (hm : (decodeMagic m.tdata).isSome = true)
    (h : IsFrame f) : Ends .length f (m :: f) := by
  cases f with
  | nil => exact absurd h id
  | cons l ws =>
    cases hl : l.tlast with
    | true =>
      obtain rfl := (isFrame_last hl).1 h
      have hcomplete : Complete [m, l] ↔ l.tdata.extractLsb' 0 24 = 8 := by
        constructor
        · rintro ⟨-, hmet, -⟩
          exact hmet.symm
        · intro hlen
          refine ⟨hm, hlen.symm, ?_⟩
          rintro ⟨hlane, -⟩
          cases hlane
      have hout : reader.outputs .length [l] =
          [verdictOf (l.tdata.extractLsb' 0 24 = 8)] := by
        simp only [outputs_read, Reader.outputs_nil, read, hl, if_true, List.append_nil]
      refine ⟨?_, fun hc => ?_, fun hc => ?_⟩
      · simp [after_read, Reader.after_nil, read, hl]
      · rw [hout, verdictOf, if_pos (hcomplete.1 hc)]
        rfl
      · rw [hout, verdictOf, if_neg (mt hcomplete.2 hc)]
        rfl
    | false =>
      have hends := ends_body (l := l) hm ((isFrame_more hl).1 h)
      have hread : read .length l = (.body (l.tdata.extractLsb' 0 24) 8, []) := by
        rw [read, hl, if_neg Bool.false_ne_true]
      constructor
      · rw [after_read, hread]
        exact hends.after
      · rw [outputs_read, hread]
        exact hends.complete
      · rw [outputs_read, hread]
        exact hends.error

/-- Every frame leads the reader back to the first word of a frame. -/
theorem ends_frame {f : List Beat} (h : IsFrame f) : Ends .magic f f := by
  cases f with
  | nil => exact absurd h id
  | cons m f =>
    cases hm : (decodeMagic m.tdata).isSome with
    | true =>
      cases hl : m.tlast with
      | true =>
        obtain rfl := (isFrame_last hl).1 h
        apply ends_dropped id
        · simp [after_read, Reader.after_nil, read, hm, hl]
        · simp [outputs_read, Reader.outputs_nil, read, hm, hl, outcomes, outcomeOf]
      | false =>
        have hends := ends_length hm ((isFrame_more hl).1 h)
        have hread : read .magic m = (.length, []) := by
          rw [read, hm, hl, if_pos rfl, if_neg Bool.false_ne_true]
        constructor
        · rw [after_read, hread]
          exact hends.after
        · rw [outputs_read, hread]
          exact hends.complete
        · rw [outputs_read, hread]
          exact hends.error
    | false =>
      obtain ⟨hskip, hmagic⟩ := after_resync h
      have hread : read .magic m = (resync m.tlast, [.error]) := by
        rw [read, hm, if_neg Bool.false_ne_true]
      apply ends_dropped
      · cases f with
        | nil => exact id
        | cons l ws =>
          rintro ⟨hc, -⟩
          rw [hm] at hc
          cases hc
      · rw [after_read, hread]
        exact hmagic
      · rw [outputs_read, hread, hskip]
        rfl

theorem frame_outcome {f : List Beat} (h : IsFrame f) :
    outcomes (reader.outputs .magic f) = [verdict f] := by
  rw [verdict]
  split
  · rename_i hc
    rw [(ends_frame h).complete hc, script, outcomes_append, outcomes_items]
    rfl
  · rename_i hc
    exact (ends_frame h).error hc

theorem read_not_done {a : Await} {b : Beat} (h : b.tlast = false) :
    Outcome.done ∉ outcomes (read a b).2 := by
  cases a with
  | magic =>
    cases hm : (decodeMagic b.tdata).isSome <;> simp [read, hm, h, outcomes, outcomeOf]
  | length | skip => simp [read, h, outcomes]
  | body d c =>
    simp only [read, readBody, h, Bool.false_eq_true, if_false, List.append_nil, outcomes_items]
    exact List.not_mem_nil

theorem unfinished_not_done {a : Await} {p : List Beat} (h : Unfinished p) :
    Outcome.done ∉ outcomes (reader.outputs a p) := by
  induction p generalizing a with
  | nil => exact List.not_mem_nil
  | cons b bs ih =>
    rw [outputs_read, outcomes_append, List.mem_append, not_or]
    exact ⟨read_not_done (h b List.mem_cons_self), ih fun c hc => h c (List.mem_cons_of_mem b hc)⟩

theorem judges : Judges reader .magic (fun _ => True) verdict where
  back h := (ends_frame h).after
  one h _ := frame_outcome h
  le_one h := by
    rw [frame_outcome h]
    exact Nat.le_refl 1
  early h := unfinished_not_done h

/-! Runs of the unpacker. -/

abbrev Hist := History State Beat Byte

theorem reset_inv : Inv reset := trivial

/-- The unpacker after the edges `is` from reset. -/
def run (is : List SlaveInput) : Hist := exec (History.edge serializer) (History.start reset) is

theorem run_serves (is : List SlaveInput) :
    Inv (run is).state ∧ (run is).Serving reader awaits owed .magic :=
  History.run_serving serves inv_step reset_inv rfl rfl is

/-- Along every run that the consumer keeps up with, it sees the payload bytes of the frames and
their ends. -/
theorem delivered {fs : List (List Beat)} (hf : ∀ f ∈ fs, IsFrame f ∧ Complete f)
    {is : List SlaveInput}
    (hk : Along (History.edge serializer) (History.KeepsUp serializer) (History.start reset) is)
    (hw : (run is).words <+: fs.flatten) :
    (run is).Delivered serializer owed fs.flatten (fs.flatMap fun f => script (payload f)) := by
  have hseen := History.run_seen feeds.loads feeds.indicates inv_step reset_inv rfl rfl hk
  apply History.delivered_of (run_serves is).2 hseen ?_ hw
  rw [Reader.outputs_flatten reader fun f h => judges.back (hf f h).1]
  exact List.flatMap_congr fun f h => (ends_frame (hf f h).1).complete (hf f h).2

theorem owed_of_ready {s : State} (h : sAxisTready s = true) : owed s = [] := by
  cases hl : lane? s with
  | none => exact owed_no_lane hl
  | some l =>
    rw [not_ready_of_lane hl] at h
    cases h

/-- Every run resolves its frames, whatever the consumer does. -/
theorem resolved (is : List SlaveInput) :
    Resolved (fun _ => True) verdict (sAxisTready (run is).state) (run is).words
      (outcomes (run is).raised) :=
  resolved_of judges (run_serves is).2.raised owed_of_ready

/-- Between two frames the unpacker stands at the first word of the next one. -/
theorem next_from_first_word (is : List SlaveInput) (hr : sAxisTready (run is).state = true)
    (hp : (splitFrames (run is).words).2 = []) : (run is).state.state = .hdrM := by
  have hawaits := (run_serves is).2.state
  rw [after_words judges, hp, Reader.after] at hawaits
  cases hst : (run is).state.state with
  | hdrM => rfl
  | emit0 | emit1 | emit2 | emit3 => simp [sAxisTready, hst] at hr
  | _ => simp [awaits, hst] at hawaits

/-! The drop counter. -/

theorem drop_step (s : State) (i : SlaveInput) :
    (step s i).dropCount =
      if (step s i).mFrameErrorPulse then saturatingInc s.dropCount else s.dropCount := by
  cases hst : s.state with
  | hdrM =>
    cases hd : decodeMagic i.tdata <;>
      simp only [step, hst, hd, State.clearPulses, State.release, State.fail] <;>
      split_ifs <;> simp_all
  | hdrL =>
    simp only [step, hst, State.clearPulses, State.release, State.verify, State.fail]
    split_ifs <;> simp_all
  | emit0 | emit1 | emit2 =>
    simp only [step, hst, State.emit, State.clearPulses, State.release, State.drive, State.count]
    split_ifs <;> simp_all
  | emit3 =>
    simp only [step, hst, State.emitLast, State.wordDone, State.verify, State.clearPulses,
      State.release, State.drive, State.count, State.fail]
    split_ifs <;> simp_all
  | pay | drain =>
    simp only [step, hst, State.clearPulses, State.release]
    split_ifs <;> simp_all

theorem outcomes_raised (s : State) (i : SlaveInput) :
    outcomes (serializer.raised s i) =
      (if (step s i).mFrameEndPulse then [.done] else []) ++
        (if (step s i).mFrameErrorPulse then [.error] else []) := by
  rw [Infra.outcomes_raised]
  change outcomes (pulses (step s i)) = _
  rw [pulses, outcomes_append]
  cases (step s i).mFrameEndPulse <;> cases (step s i).mFrameErrorPulse <;> rfl

/-- The counter counts the rejected frames until it stops at its maximum. -/
def Counted (s : State) (raised : List (Signal Byte)) : Prop :=
  s.dropCount.toNat = min ((outcomes raised).count .error) (2 ^ 16 - 1)

theorem counted_step {s : State} {raised : List (Signal Byte)} (h : Counted s raised)
    (i : SlaveInput) : Counted (step s i) (raised ++ serializer.raised s i) := by
  have hinc := saturatingInc_counts h
  rw [Counted] at h
  rw [Counted, drop_step s i, outcomes_append, outcomes_raised, List.count_append]
  cases (step s i).mFrameErrorPulse <;> cases (step s i).mFrameEndPulse <;> simp [hinc, h]

theorem counted (is : List SlaveInput) : Counted (run is).state (run is).raised :=
  exec_invariant (fun h : Hist => Counted h.state h.raised) (P := fun _ _ => True)
    (fun _ i h _ => counted_step h i) rfl (along_true _ _ is)

/-! A word is gone after at most four edges with a ready consumer. -/

theorem lane_step {s : State} {l : Nat} (h : lane? s = some l) {i : SlaveInput}
    (hr : i.byteReady = true) :
    lane? (step s i) = (if l = 0 then none else some (l - 1)) := by
  have hl := lane_lt h
  cases ha : s.curKeep.getLsbD l with
  | true =>
    cases l with
    | zero =>
      rw [load_last h ha hr]
      exact wordDone_lane _ _
    | succ l =>
      rw [load_lane h ha hr]
      exact lane_of_laneState (Nat.lt_of_succ_lt hl) rfl
  | false =>
    cases l with
    | zero =>
      rw [skip_last h ha]
      exact wordDone_lane _ _
    | succ l =>
      rw [skip_lane h ha]
      exact lane_of_laneState (Nat.lt_of_succ_lt hl) rfl

/-- The unpacker accepts a word again after at most four edges with a ready consumer. -/
theorem accepts_again (is : List SlaveInput) {js : List SlaveInput}
    (hr : ∀ j ∈ js, j.byteReady = true) (hlen : 4 ≤ js.length) :
    ∃ n ≤ 4, sAxisTready (run (is ++ js.take n)).state = true := by
  have hstate (ks : List SlaveInput) : (run (is ++ ks)).state = exec step (run is).state ks := by
    rw [run, exec_append]
    exact History.exec_state serializer _ ks
  cases h : lane? (run is).state with
  | none =>
    refine ⟨0, Nat.zero_le 4, ?_⟩
    rw [hstate]
    exact ready_of_no_lane h
  | some l =>
    have hl := lane_lt h
    have htake : (js.take (l + 1)).length = l + 1 := by
      rw [List.length_take]
      omega
    have hgone : lane? (exec step (run is).state (js.take (l + 1))) = none :=
      lanes.passed (fun h hr => lane_step h hr) h (fun j hj => hr j (List.mem_of_mem_take hj)) htake
    refine ⟨l + 1, hl, ?_⟩
    rw [hstate]
    exact ready_of_no_lane hgone

/-- The outcomes of a run: each frame is resolved by itself, the next one is parsed from its own
first word, the counter follows, and a ready consumer lets the unpacker come to its next word. -/
structure Accounts (is : List SlaveInput) : Prop where
  resolved : Resolved (fun _ => True) verdict (sAxisTready (run is).state) (run is).words
    (outcomes (run is).raised)
  next : sAxisTready (run is).state = true → (splitFrames (run is).words).2 = [] →
    (run is).state.state = .hdrM
  counted : Counted (run is).state (run is).raised
  again {js : List SlaveInput} : (∀ j ∈ js, j.byteReady = true) → 4 ≤ js.length →
    ∃ n ≤ 4, sAxisTready (run (is ++ js.take n)).state = true

theorem accounts (is : List SlaveInput) : Accounts is :=
  ⟨resolved is, next_from_first_word is, counted is, accepts_again is⟩

end TetraBs.Infra.Unpacker
