import TetraBs.Infra.FrameOutcomes
import TetraBs.Infra.TmasapTxSpec

/-! The frames of the transmit framer: what a complete frame is, and that the reader resolves
every frame and then stands at the first word of the next one. -/
namespace TetraBs.Infra.TmasapTx
open TetraBs.Bits TetraBs.Run TetraBs.Stream TetraBs.Serial

/-- The payload length and the body of a frame with a whole and valid header. -/
def announced : List Beat → Option (Nat × List Beat)
  | m :: l :: f =>
    let frameLen := l.tdata.extractLsb' 16 16
    let pduLenBits := l.tdata.extractLsb' 0 16
    if m.tdata = MAGIC_TMAS ∧ 7 ≤ f.length ∧ LengthsOk frameLen pduLenBits then
      some (payloadBytes pduLenBits, f.drop 7)
    else none
  | _ => none

/-- The words bring the `left` bytes, the last of them with the last word. -/
def Fills : Nat → List Beat → Prop
  | left, [] => left = 0
  | left, b :: bs => 0 < left ∧ Fills (left - b.bytes.length) bs

/-- The `left` bytes are there before the last word. -/
def Overruns : Nat → List Beat → Prop
  | _, [] => False
  | left, b :: bs =>
    if left ≤ b.bytes.length then bs ≠ [] else Overruns (left - b.bytes.length) bs

instance Fills.decidable : (left : Nat) → (bs : List Beat) → Decidable (Fills left bs)
  | left, [] => inferInstanceAs (Decidable (left = 0))
  | left, b :: bs =>
    have := Fills.decidable (left - b.bytes.length) bs
    inferInstanceAs (Decidable (0 < left ∧ Fills (left - b.bytes.length) bs))

def Complete (f : List Beat) : Prop := ∃ a ∈ announced f, Fills a.1 a.2

instance (f : List Beat) : Decidable (Complete f) :=
  inferInstanceAs (Decidable (∃ a ∈ announced f, Fills a.1 a.2))

/-- Words follow a payload that is already complete. -/
def Overlong (f : List Beat) : Prop := ∃ a ∈ announced f, 0 < a.1 ∧ Overruns a.1 a.2

def payload (f : List Beat) : List Byte :=
  match announced f with
  | some (n, body) => (body.flatMap Beat.bytes).take n
  | none => []

/-! The reader. -/

theorem outputs_read (a : Await) (b : Beat) (bs : List Beat) :
    reader.outputs a (b :: bs) = (read a b).2 ++ reader.outputs (read a b).1 bs := rfl

theorem after_read (a : Await) (b : Beat) (bs : List Beat) :
    reader.after a (b :: bs) = reader.after (read a b).1 bs := rfl

theorem drops : Drops reader .skip .magic := ⟨fun _ => rfl, fun _ => rfl⟩

theorem after_resync {b : Beat} {bs : List Beat} (h : IsFrame (b :: bs)) :
    reader.outputs (resync b.tlast) bs = [] ∧ reader.after (resync b.tlast) bs = .magic :=
  drops.rest h

/-- What becomes of the body of a frame with `left` bytes to come. -/
theorem read_body {left : Nat} {f : List Beat} (hleft : 0 < left) (h : IsFrame f) :
    reader.after (.body left) f = .magic ∧
      (Fills left f → reader.outputs (.body left) f = script ((f.flatMap Beat.bytes).take left)) ∧
      (Overruns left f → outcomes (reader.outputs (.body left) f) = []) ∧
      (¬ Fills left f → ¬ Overruns left f →
        outcomes (reader.outputs (.body left) f) = [.error]) := by
  induction f generalizing left with
  | nil => exact absurd h id
  | cons b bs ih =>
    cases hl : b.tlast with
    | true =>
      obtain rfl := (isFrame_last hl).1 h
      refine ⟨?_, ?_, ?_, ?_⟩
      · simp [after_read, Reader.after_nil, read, readBody, hl]
      · rintro ⟨-, hfill⟩
        replace hfill : left - b.bytes.length = 0 := hfill
        simp [outputs_read, Reader.outputs_nil, read, readBody, hl, hfill, script]
      · intro hover
        simp [Overruns] at hover
      · intro hfill _
        have hmore : left - b.bytes.length ≠ 0 := fun h0 => hfill ⟨hleft, h0⟩
        simp only [outputs_read, Reader.outputs_nil, read, readBody, hl, if_true, hmore, if_false,
          List.append_nil, outcomes_append, outcomes_items]
        rfl
    | false =>
      have hbs := (isFrame_more hl).1 h
      have hne : bs ≠ [] := by
        rintro rfl
        exact hbs
      by_cases hlen : left ≤ b.bytes.length
      · have hzero : left - b.bytes.length = 0 := Nat.sub_eq_zero_of_le hlen
        have hskip := drops.frame hbs
        have hover : Overruns left (b :: bs) := by
          rw [Overruns, if_pos hlen]
          exact hne
        have hfill : ¬ Fills left (b :: bs) := by
          rintro ⟨-, hf⟩
          rw [hzero] at hf
          cases bs with
          | nil => exact hne rfl
          | cons c cs => exact absurd hf.1 (Nat.lt_irrefl 0)
        refine ⟨?_, fun hf => absurd hf hfill, fun _ => ?_, fun _ hno => absurd hover hno⟩
        · simp only [after_read, read, readBody, hl, Bool.false_eq_true, if_false, hzero,
            if_true]
          exact hskip.2
        · simp only [outputs_read, read, readBody, hl, Bool.false_eq_true, if_false, hzero, if_true,
            List.append_nil, outcomes_items, hskip.1]
      · have hmore : 0 < left - b.bytes.length := by omega
        have hnz : left - b.bytes.length ≠ 0 := Nat.ne_of_gt hmore
        obtain ⟨hafter, hfills, hover, herr⟩ := ih hmore hbs
        have hout : reader.outputs (.body left) (b :: bs) =
            b.bytes.map .item ++ reader.outputs (.body (left - b.bytes.length)) bs := by
          have htake : b.bytes.take left = b.bytes := List.take_of_length_le (by omega)
          simp only [outputs_read, read, readBody, hl, Bool.false_eq_true, if_false, hnz, htake,
            List.append_nil]
        have hrest : Overruns left (b :: bs) ↔ Overruns (left - b.bytes.length) bs := by
          rw [Overruns, if_neg hlen]
        have hfill : Fills left (b :: bs) ↔ Fills (left - b.bytes.length) bs :=
          ⟨And.right, fun hf => ⟨hleft, hf⟩⟩
        rw [hout, hrest, hfill]
        refine ⟨?_, fun hf => ?_, fun ho => ?_, fun hf ho => ?_⟩
        · simp only [after_read, read, readBody, hl, Bool.false_eq_true, if_false, hnz]
          exact hafter
        · rw [hfills hf, List.flatMap_cons, List.take_append,
            List.take_of_length_le (Nat.le_of_lt (Nat.lt_of_not_le hlen)), script, script,
            List.map_append, List.append_assoc]
        · rw [outcomes_append, outcomes_items, hover ho]
          rfl
        · rw [outcomes_append, outcomes_items, herr hf ho]
          rfl

/-- A frame that ends in the header. -/
theorem read_fields_short {k : Nat} {f p : BitVec 16} {bs : List Beat} (h : IsFrame bs)
    (hk : bs.length ≤ k) :
    reader.outputs (.fields k f p) bs = [.error] ∧ reader.after (.fields k f p) bs = .magic := by
  induction k generalizing bs with
  | zero =>
    obtain rfl := List.eq_nil_of_length_eq_zero (Nat.eq_zero_of_le_zero hk)
    exact absurd h id
  | succ k ih =>
    cases bs with
    | nil => exact absurd h id
    | cons b bs =>
      rw [outputs_read, after_read, read]
      cases hl : b.tlast with
      | true =>
        obtain rfl := (isFrame_last hl).1 h
        exact ⟨rfl, rfl⟩
      | false =>
        obtain ⟨hout, hafter⟩ := ih ((isFrame_more hl).1 h) (Nat.le_of_succ_le_succ hk)
        exact ⟨hout, hafter⟩

theorem read_fields_drop {k : Nat} {f p : BitVec 16} {bs : List Beat} (h : IsFrame bs)
    (hk : k < bs.length) :
    reader.outputs (.fields k f p) bs = reader.outputs (.fields 0 f p) (bs.drop k) ∧
      reader.after (.fields k f p) bs = reader.after (.fields 0 f p) (bs.drop k) ∧
      IsFrame (bs.drop k) := by
  induction k generalizing bs with
  | zero => exact ⟨rfl, rfl, h⟩
  | succ k ih =>
    cases bs with
    | nil => exact absurd h id
    | cons b bs =>
      have hk' : k < bs.length := Nat.lt_of_succ_lt_succ hk
      cases hl : b.tlast with
      | true =>
        rw [(isFrame_last hl).1 h] at hk'
        exact absurd hk' (Nat.not_lt_zero k)
      | false =>
        rw [outputs_read, after_read, read, hl]
        exact ih ((isFrame_more hl).1 h) hk'

/-- How the reader leaves a frame whose payload of `n` bytes is to follow in `body`. -/
structure Ends (a : Await) (f : List Beat) (announced : Option (Nat × List Beat)) : Prop where
  after : reader.after a f = .magic
  complete {n : Nat} {body : List Beat} : announced = some (n, body) → Fills n body →
    reader.outputs a f = script ((body.flatMap Beat.bytes).take n)
  overlong {n : Nat} {body : List Beat} : announced = some (n, body) → 0 < n → Overruns n body →
    outcomes (reader.outputs a f) = []
  error : (∀ n body, announced = some (n, body) → ¬ Fills n body ∧ ¬ (0 < n ∧ Overruns n body)) →
    outcomes (reader.outputs a f) = [.error]

theorem ends_dropped {a : Await} {f : List Beat} (hafter : reader.after a f = .magic)
    (hout : outcomes (reader.outputs a f) = [.error]) : Ends a f none where
  after := hafter
  complete h := nomatch h
  overlong h := nomatch h
  error _ := hout

theorem Ends.congr {a a' : Await} {f f' : List Beat} {ann : Option (Nat × List Beat)}
    (hout : reader.outputs a f = reader.outputs a' f')
    (hafter : reader.after a f = reader.after a' f') (h : Ends a' f' ann) : Ends a f ann where
  after := hafter.trans h.after
  complete ha hf := hout.trans (h.complete ha hf)
  overlong ha hpos ho := by
    rw [hout]
    exact h.overlong ha hpos ho
  error hno := by
    rw [hout]
    exact h.error hno

/-- The last header word and the body. -/
theorem ends_header {f p : BitVec 16} {h8 : Beat} {body : List Beat}
    (h : IsFrame (h8 :: body)) :
    Ends (.fields 0 f p) (h8 :: body)
      (if LengthsOk f p then some (payloadBytes p, body) else none) := by
  by_cases hok : LengthsOk f p
  · rw [if_pos hok]
    cases hl : h8.tlast with
    | true =>
      obtain rfl := (isFrame_last hl).1 h
      by_cases hn : payloadBytes p = 0
      · have hout : reader.outputs (.fields 0 f p) [h8] = [.done] := by
          simp [outputs_read, Reader.outputs_nil, read, readHeader, hok, hn, hl]
        refine ⟨?_, ?_, ?_, ?_⟩
        · simp [after_read, Reader.after_nil, read, readHeader, hok, hn, hl]
        · rintro n body ⟨rfl, rfl⟩ -
          rw [hout, hn]
          rfl
        · rintro n body ⟨rfl, rfl⟩ h0 -
          exact absurd hn (Nat.ne_of_gt h0)
        · intro hno
          exact absurd hn (hno _ _ rfl).1
      · have hout : reader.outputs (.fields 0 f p) [h8] = [.error] := by
          simp [outputs_read, Reader.outputs_nil, read, readHeader, hok, hn, hl]
        refine ⟨?_, ?_, ?_, ?_⟩
        · simp [after_read, Reader.after_nil, read, readHeader, hok, hn, hl]
        · rintro n body ⟨rfl, rfl⟩ hf
          exact absurd hf hn
        · rintro n body ⟨rfl, rfl⟩ - ho
          exact absurd ho id
        · intro _
          rw [hout]
          rfl
    | false =>
      have hbody := (isFrame_more hl).1 h
      by_cases hn : payloadBytes p = 0
      · obtain ⟨hskip, hafter⟩ := drops.frame hbody
        have hout : reader.outputs (.fields 0 f p) (h8 :: body) = [.error] := by
          simp [outputs_read, read, readHeader, hok, hn, hl, hskip]
        refine ⟨?_, ?_, ?_, ?_⟩
        · simpa [after_read, read, readHeader, hok, hn, hl] using hafter
        · rintro n body ⟨rfl, rfl⟩ hf
          rw [hn] at hf
          cases body with
          | nil => exact absurd hbody id
          | cons b bs => exact absurd hf.1 (Nat.lt_irrefl 0)
        · rintro n body ⟨rfl, rfl⟩ h0 -
          exact absurd hn (Nat.ne_of_gt h0)
        · intro _
          rw [hout]
          rfl
      · have hpos : 0 < payloadBytes p := Nat.pos_of_ne_zero hn
        obtain ⟨hafter, hfills, hover, herr⟩ := read_body hpos hbody
        have hout : reader.outputs (.fields 0 f p) (h8 :: body) =
            reader.outputs (.body (payloadBytes p)) body := by
          simp [outputs_read, read, readHeader, hok, hn, hl]
        refine ⟨?_, ?_, ?_, ?_⟩
        · simpa [after_read, read, readHeader, hok, hn, hl] using hafter
        · rintro n body ⟨rfl, rfl⟩ hf
          exact hout.trans (hfills hf)
        · rintro n body ⟨rfl, rfl⟩ - ho
          rw [hout]
          exact hover ho
        · intro hno
          rw [hout]
          exact herr (hno _ _ rfl).1 fun ho => (hno _ _ rfl).2 ⟨hpos, ho⟩
  · rw [if_neg hok]
    obtain ⟨hskip, hafter⟩ := after_resync h
    apply ends_dropped
    · simpa [after_read, read, readHeader, hok] using hafter
    · simp [outputs_read, read, readHeader, hok, hskip, outcomes, outcomeOf]

theorem ends_fields {f p : BitVec 16} {bs : List Beat} (h : IsFrame bs) :
    Ends (.fields 6 f p) bs
      (if 7 ≤ bs.length ∧ LengthsOk f p then some (payloadBytes p, bs.drop 7) else none) := by
  by_cases hlen : bs.length ≤ 6
  · obtain ⟨hout, hafter⟩ := read_fields_short (f := f) (p := p) h hlen
    have hshort : ¬ (7 ≤ bs.length ∧ LengthsOk f p) := fun hlong =>
      absurd hlong.1 (Nat.not_le_of_lt (Nat.lt_succ_of_le hlen))
    rw [if_neg hshort]
    apply ends_dropped hafter
    rw [hout]
    rfl
  · have hlong : 6 < bs.length := Nat.lt_of_not_le hlen
    obtain ⟨hout, hafter, hframe⟩ := read_fields_drop (f := f) (p := p) h hlong
    have hcons : bs.drop 6 = bs[6] :: bs.drop 7 := List.drop_eq_getElem_cons hlong
    rw [hcons] at hout hafter hframe
    simp only [Nat.succ_le_of_lt hlong, true_and]
    exact (ends_header hframe).congr hout hafter

theorem ends_lengths {m : Beat} {f : List Beat} (hm : m.tdata = MAGIC_TMAS) (h : IsFrame f) :
    Ends .lengths f (announced (m :: f)) := by
  cases f with
  | nil => exact absurd h id
  | cons l f =>
    cases hl : l.tlast with
    | true =>
      obtain rfl := (isFrame_last hl).1 h
      have hnone : announced [m, l] = none := by simp [announced]
      rw [hnone]
      apply ends_dropped
      · simp [after_read, Reader.after_nil, read, hl]
      · simp [outputs_read, Reader.outputs_nil, read, hl, outcomes, outcomeOf]
    | false =>
      have hann : announced (m :: l :: f) =
          if 7 ≤ f.length ∧ LengthsOk (l.tdata.extractLsb' 16 16) (l.tdata.extractLsb' 0 16) then
            some (payloadBytes (l.tdata.extractLsb' 0 16), f.drop 7) else none := by
        simp only [announced, hm, true_and]
      rw [hann]
      apply (ends_fields ((isFrame_more hl).1 h)).congr
      · simp [outputs_read, read, hl]
      · simp [after_read, read, hl]

/-- Every frame leads the reader back to the first word of a frame. -/
theorem ends_frame {f : List Beat} (h : IsFrame f) : Ends .magic f (announced f) := by
  cases f with
  | nil => exact absurd h id
  | cons m f =>
    by_cases hm : m.tdata = MAGIC_TMAS
    · cases hl : m.tlast with
      | true =>
        obtain rfl := (isFrame_last hl).1 h
        apply ends_dropped
        · simp [after_read, Reader.after_nil, read, hm, hl]
        · simp [outputs_read, Reader.outputs_nil, read, hm, hl, outcomes, outcomeOf]
      | false =>
        apply (ends_lengths hm ((isFrame_more hl).1 h)).congr
        · simp [outputs_read, read, hm, hl]
        · simp [after_read, read, hm, hl]
    · obtain ⟨hskip, hmagic⟩ := after_resync h
      have hnone : announced (m :: f) = none := by
        cases f with
        | nil => rfl
        | cons l f => simp [announced, hm]
      rw [hnone]
      apply ends_dropped
      · simpa [after_read, read, hm] using hmagic
      · simp [outputs_read, read, hm, hskip, outcomes, outcomeOf]

/-! Frames one after the other. -/

/-- The outcome of a frame that is not overlong. -/
def verdict (f : List Beat) : Outcome := if Complete f then .done else .error

theorem script_outcomes (bs : List Byte) : outcomes (script bs) = [.done] := by
  rw [script, outcomes_append, outcomes_items]
  rfl

theorem frame_complete {f : List Beat} (h : IsFrame f) (hc : Complete f) :
    reader.outputs .magic f = script (payload f) := by
  obtain ⟨⟨n, body⟩, ha, hfill⟩ := hc
  rw [payload, Option.mem_def.1 ha]
  exact (ends_frame h).complete ha hfill

theorem frame_overlong {f : List Beat} (h : IsFrame f) (ho : Overlong f) :
    outcomes (reader.outputs .magic f) = [] := by
  obtain ⟨⟨n, body⟩, ha, hpos, hover⟩ := ho
  exact (ends_frame h).overlong ha hpos hover

/-- Exactly one outcome for a frame that is not overlong. -/
theorem frame_outcome {f : List Beat} (h : IsFrame f) (ho : ¬ Overlong f) :
    outcomes (reader.outputs .magic f) = [verdict f] := by
  rw [verdict]
  split
  · rename_i hc
    rw [frame_complete h hc, script_outcomes]
  · rename_i hc
    apply (ends_frame h).error
    intro n body ha
    exact ⟨fun hfill => hc ⟨(n, body), ha, hfill⟩,
      fun hover => ho ⟨(n, body), ha, hover.1, hover.2⟩⟩

/-- The end of a frame is not reported before its last word. -/
theorem read_not_done {a : Await} {b : Beat} (h : b.tlast = false) :
    Outcome.done ∉ outcomes (read a b).2 := by
  cases a with
  | magic =>
    by_cases hm : b.tdata = MAGIC_TMAS <;> simp [read, hm, h, outcomes, outcomeOf]
  | lengths | skip => simp [read, h, outcomes]
  | fields more f p =>
    cases more with
    | zero =>
      by_cases hok : LengthsOk f p <;> by_cases hn : payloadBytes p = 0 <;>
        simp [read, readHeader, hok, hn, h, outcomes, outcomeOf]
    | succ k => simp [read, h, outcomes]
  | body left =>
    simp only [read, readBody, h, Bool.false_eq_true, if_false, List.append_nil, outcomes_items]
    exact List.not_mem_nil

theorem unfinished_not_done {a : Await} {p : List Beat} (h : Unfinished p) :
    Outcome.done ∉ outcomes (reader.outputs a p) := by
  induction p generalizing a with
  | nil => exact List.not_mem_nil
  | cons b bs ih =>
    rw [outputs_read, outcomes_append, List.mem_append, not_or]
    exact ⟨read_not_done (h b List.mem_cons_self), ih fun c hc => h c (List.mem_cons_of_mem b hc)⟩

theorem judges : Judges reader .magic (fun f => ¬ Overlong f) verdict where
  back h := (ends_frame h).after
  one h ho := frame_outcome h ho
  le_one {f} h := by
    by_cases ho : Overlong f
    · rw [frame_overlong h ho]
      exact Nat.zero_le 1
    · rw [frame_outcome h ho]
      exact Nat.le_refl 1
  early h := unfinished_not_done h

/-! Runs of the framer. -/

abbrev Hist := History State Beat Byte

/-- The framer after the edges `is` from reset. -/
def run (is : List SlaveInput) : Hist := exec (History.edge serializer) (History.start reset) is

theorem reset_inv : Inv reset := trivial

theorem run_serves (is : List SlaveInput) :
    Inv (run is).state ∧ (run is).Serving reader awaits owed .magic :=
  History.run_serving serves inv_step reset_inv rfl rfl is

/-- Along every run that the consumer keeps up with, it sees the payload bytes of the frames and
their ends. -/
theorem delivered {fs : List (List Beat)} (hf : ∀ f ∈ fs, IsFrame f ∧ Complete f)
    {is : List SlaveInput}
    (hk : Along (History.edge serializer) (History.KeepsUp serializer) (History.start reset) is)
    (hw : (run is).words <+: fs.flatten) :
    (run is).Delivered serializer owed fs.flatten (fs.flatMap fun f => script (payload f)) := by
  have hseen := History.run_seen feeds.loads feeds.indicates inv_step reset_inv rfl rfl hk
  apply History.delivered_of (run_serves is).2 hseen ?_ hw
  rw [Reader.outputs_flatten reader fun f h => judges.back (hf f h).1]
  exact List.flatMap_congr fun f h => frame_complete (hf f h).1 (hf f h).2

theorem owed_of_ready {s : State} (h : sAxisTready s = true) : owed s = [] := by
  cases hl : lane? s with
  | none => exact owed_no_lane hl
  | some l =>
    rw [not_ready_of_lane hl] at h
    cases h

/-- Every run resolves its frames, whatever the consumer does. -/
theorem resolved (is : List SlaveInput) :
    Resolved (fun f => ¬ Overlong f) verdict (sAxisTready (run is).state) (run is).words
      (outcomes (run is).raised) :=
  resolved_of judges (run_serves is).2.raised owed_of_ready

/-- Between two frames the framer stands at the first word of the next one. -/
theorem next_from_first_word (is : List SlaveInput) (hr : sAxisTready (run is).state = true)
    (hp : (splitFrames (run is).words).2 = []) : (run is).state.state = .hdrW0 := by
  have hawaits := (run_serves is).2.state
  rw [after_words judges, hp, Reader.after] at hawaits
  cases hst : (run is).state.state with
  | hdrW0 => rfl
  | payE0 | payE1 | payE2 | payE3 => simp [sAxisTready, hst] at hr
  | _ => simp [awaits, hst] at hawaits

/-! The counters. -/

theorem counters_step (s : State) (i : SlaveInput) :
    (step s i).errCnt =
      (if (step s i).mbFrameErrorPulse then saturatingInc s.errCnt else s.errCnt) ∧
    (step s i).framesCnt =
      (if (step s i).mbFrameEndPulse then saturatingInc s.framesCnt else s.framesCnt) := by
  cases hst : s.state with
  | hdrW0 | hdrW1 | hdrW2 | hdrW3 | hdrW4 | hdrW5 | hdrW6 | hdrW7 =>
    simp only [step, hst, State.header, State.drop, State.clearPulses, State.release, State.fail]
    split_ifs <;> simp_all
  | hdrW8 =>
    simp only [step, hst, State.headerDone, State.header, State.drop, State.clearPulses,
      State.fail, State.complete]
    split_ifs <;> simp_all
  | payE0 | payE1 | payE2 =>
    simp only [step, hst, State.emit, State.clearPulses, State.release, State.drive, State.count]
    split_ifs <;> simp_all
  | payE3 =>
    simp only [step, hst, State.emitLast, State.wordDone, State.clearPulses, State.release,
      State.drive, State.count, State.fail, State.complete]
    split_ifs <;> simp_all
  | payLd | drain =>
    simp only [step, hst, State.clearPulses, State.release]
    split_ifs <;> simp_all

theorem outcomes_raised (s : State) (i : SlaveInput) :
    outcomes (serializer.raised s i) =
      (if (step s i).mbFrameEndPulse then [.done] else []) ++
        (if (step s i).mbFrameErrorPulse then [.error] else []) := by
  rw [Infra.outcomes_raised]
  change outcomes (pulses (step s i)) = _
  rw [pulses, outcomes_append]
  cases (step s i).mbFrameEndPulse <;> cases (step s i).mbFrameErrorPulse <;> rfl

/-- The counters count the outcomes until they stop at their maxima. -/
structure Counted (s : State) (raised : List (Signal Byte)) : Prop where
  errors : s.errCnt.toNat = min ((outcomes raised).count .error) (2 ^ 16 - 1)
  frames : s.framesCnt.toNat = min ((outcomes raised).count .done) (2 ^ 32 - 1)

theorem counted_step {s : State} {raised : List (Signal Byte)} (h : Counted s raised)
    (i : SlaveInput) : Counted (step s i) (raised ++ serializer.raised s i) := by
  obtain ⟨herr, hframes⟩ := counters_step s i
  constructor
  · have hinc := saturatingInc_counts h.errors
    rw [herr, outcomes_append, outcomes_raised, List.count_append]
    cases (step s i).mbFrameErrorPulse <;> cases (step s i).mbFrameEndPulse <;>
      simp [hinc, h.errors]
  · have hinc := saturatingInc_counts h.frames
    rw [hframes, outcomes_append, outcomes_raised, List.count_append]
    cases (step s i).mbFrameErrorPulse <;> cases (step s i).mbFrameEndPulse <;>
      simp [hinc, h.frames]

theorem counted (is : List SlaveInput) : Counted (run is).state (run is).raised :=
  exec_invariant (fun h : Hist => Counted h.state h.raised) (P := fun _ _ => True)
    (fun _ i h _ => counted_step h i) ⟨rfl, rfl⟩ (along_true _ _ is)

/-! A word is gone after at most four edges with a ready consumer. -/

theorem lane_step {s : State} {l : Nat} (h : lane? s = some l) {i : SlaveInput}
    (hr : i.byteReady = true) :
    lane? (step s i) = (if l = 0 then none else some (l - 1)) := by
  have hl := lane_lt h
  cases ha : s.active l with
  | true =>
    cases l with
    | zero =>
      rw [load_last h ha hr]
      exact wordDone_lane _
    | succ l =>
      rw [load_lane h ha hr]
      exact lane_of_laneState (Nat.lt_of_succ_lt hl) rfl
  | false =>
    cases l with
    | zero =>
      rw [skip_last h ha]
      exact wordDone_lane _
    | succ l =>
      rw [skip_lane h ha]
      exact lane_of_laneState (Nat.lt_of_succ_lt hl) rfl

/-- The framer accepts a word again after at most four edges with a ready consumer. -/
theorem accepts_again (is : List SlaveInput) {js : List SlaveInput}
    (hr : ∀ j ∈ js, j.byteReady = true) (hlen : 4 ≤ js.length) :
    ∃ n ≤ 4, sAxisTready (run (is ++ js.take n)).state = true := by
  have hstate (ks : List SlaveInput) : (run (is ++ ks)).state = exec step (run is).state ks := by
    rw [run, exec_append]
    exact History.exec_state serializer _ ks
  cases h : lane? (run is).state with
  | none =>
    refine ⟨0, Nat.zero_le 4, ?_⟩
    rw [hstate]
    exact ready_of_no_lane h
  | some l =>
    have hl := lane_lt h
    have htake : (js.take (l + 1)).length = l + 1 := by
      rw [List.length_take]
      omega
    have hgone : lane? (exec step (run is).state (js.take (l + 1))) = none :=
      lanes.passed (fun h hr => lane_step h hr) h (fun j hj => hr j (List.mem_of_mem_take hj)) htake
    refine ⟨l + 1, hl, ?_⟩
    rw [hstate]
    exact ready_of_no_lane hgone

/-- The outcomes of a run: each frame is resolved by itself, the next one is parsed from its own
first word, the counter follows, and a ready consumer lets the framer come to its next word. -/
structure Accounts (is : List SlaveInput) : Prop where
  resolved : Resolved (fun f => ¬ Overlong f) verdict (sAxisTready (run is).state) (run is).words
    (outcomes (run is).raised)
  next : sAxisTready (run is).state = true → (splitFrames (run is).words).2 = [] →
    (run is).state.state = .hdrW0
  counted : Counted (run is).state (run is).raised
  again {js : List SlaveInput} : (∀ j ∈ js, j.byteReady = true) → 4 ≤ js.length →
    ∃ n ≤ 4, sAxisTready (run (is ++ js.take n)).state = true

theorem accounts (is : List SlaveInput) : Accounts is :=
  ⟨resolved is, next_from_first_word is, counted is, accepts_again is⟩

end TetraBs.Infra.TmasapTx
