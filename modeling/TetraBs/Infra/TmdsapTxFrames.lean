import TetraBs.Infra.FrameOutcomes
import TetraBs.Infra.TmdsapTxFramer

/-! The frames of the TmdSap-TX framer: each is resolved into one half-block or one error. -/
namespace TetraBs.Infra.TmdsapTx
open TetraBs.Bits TetraBs.Run TetraBs.Serial

/-- `n` full beats and a last one with two bytes. -/
def Body : Nat → List Beat → Prop
  | 0, [b] => b.tkeep = 0b1100#4
  | n + 1, b :: bs => b.tkeep = 0b1111#4 ∧ Body n bs
  | _, _ => False

instance Body.decidable : (n : Nat) → (f : List Beat) → Decidable (Body n f)
  | 0, [] | _ + 1, [] | 0, _ :: _ :: _ => isFalse id
  | 0, [b] => inferInstanceAs (Decidable (b.tkeep = 0b1100#4))
  | n + 1, b :: bs =>
    have := Body.decidable n bs
    inferInstanceAs (Decidable (b.tkeep = 0b1111#4 ∧ Body n bs))

/-- The frame is a TMDC frame. -/
def WellFormed : List Beat → Prop
  | m :: l :: f => m.tdata = MAGIC_TMDC ∧ l.tdata = EXPECTED_LEN_B ∧ Body 13 f
  | _ => False

instance WellFormed.decidable : (f : List Beat) → Decidable (WellFormed f)
  | [] | [_] => isFalse id
  | m :: l :: f =>
    inferInstanceAs (Decidable (m.tdata = MAGIC_TMDC ∧ l.tdata = EXPECTED_LEN_B ∧ Body 13 f))

def payload (f : List Beat) : List Byte := (f.drop 2).flatMap Beat.bytes

def outcome (f : List Beat) : Signal (List Byte) :=
  if WellFormed f then .item (payload f) else .error

theorem not_body_nil (n : Nat) : ¬Body n [] := by
  cases n <;> exact id

theorem body_bytes_length {n : Nat} {f : List Beat} (h : Body n f) :
    (f.flatMap Beat.bytes).length = 4 * n + 2 := by
  induction n generalizing f with
  | zero =>
    cases f with
    | nil => exact absurd h (not_body_nil 0)
    | cons b bs =>
      cases bs with
      | nil =>
        have hkeep : b.tkeep = 0b1100#4 := h
        rw [List.flatMap_singleton, Beat.bytes, hkeep]
        rfl
      | cons c bs => exact False.elim h
  | succ n ih =>
    cases f with
    | nil => exact absurd h (not_body_nil (n + 1))
    | cons b bs =>
      have hbytes : b.bytes.length = 4 := by
        rw [Beat.bytes, h.1]
        rfl
      rw [List.flatMap_cons, List.length_append, ih h.2, hbytes]
      omega

/-- A well-formed frame carries the 432 bits of a half-block. -/
theorem payload_length {f : List Beat} (h : WellFormed f) : (payload f).length = 54 :=
  match f, h with
  | _ :: _ :: _, h => body_bytes_length h.2.2

theorem outputs_read (a : Await) (b : Beat) (bs : List Beat) :
    reader.outputs a (b :: bs) = (read a b).2 ++ reader.outputs (read a b).1 bs := rfl

theorem after_read (a : Await) (b : Beat) (bs : List Beat) :
    reader.after a (b :: bs) = reader.after (read a b).1 bs := rfl

theorem read_skip {f : List Beat} (hf : IsFrame f) :
    reader.outputs .skip f = [] ∧ reader.after .skip f = .magic := by
  induction f with
  | nil => exact absurd hf id
  | cons b bs ih =>
    rw [outputs_read, after_read, read]
    cases hl : b.tlast with
    | true =>
      obtain rfl := (isFrame_last hl).1 hf
      exact ⟨rfl, rfl⟩
    | false => exact ih ((isFrame_more hl).1 hf)

/-- A reader that has reached `a` gives the frame `f` the outcome `e`. -/
structure Gives (a : Await) (f : List Beat) (e : Signal (List Byte)) : Prop where
  outputs : reader.outputs a f = [e]
  after : reader.after a f = .magic

theorem gives_rejected {a : Await} {b : Beat} {bs : List Beat} (hf : IsFrame (b :: bs))
    (h : read a b = reject b) : Gives a (b :: bs) .error := by
  have hrest : reader.outputs (if b.tlast then Await.magic else .skip) bs = [] ∧
      reader.after (if b.tlast then Await.magic else .skip) bs = .magic := by
    cases hl : b.tlast with
    | true =>
      obtain rfl := (isFrame_last hl).1 hf
      exact ⟨rfl, rfl⟩
    | false => exact read_skip ((isFrame_more hl).1 hf)
  refine ⟨?_, ?_⟩
  · rw [outputs_read, h]
    exact congrArg ([Signal.error] ++ ·) hrest.1
  · rw [after_read, h]
    exact hrest.2

theorem gives_next {a : Await} {b : Beat} {bs : List Beat} {a' : Await} {e : Signal (List Byte)}
    (h : read a b = (a', [])) (h' : Gives a' bs e) : Gives a (b :: bs) e := by
  refine ⟨?_, ?_⟩
  · rw [outputs_read, h]
    exact h'.outputs
  · rw [after_read, h]
    exact h'.after

/-- With `n` full beats to come. -/
def expecting (n : Nat) (bs : List Byte) : Await := if n = 0 then .tail bs else .body (13 - n) bs

theorem gives_body {f : List Beat} (hf : IsFrame f) {n : Nat} (hn : n ≤ 13) (bs : List Byte) :
    Gives (expecting n bs) f
      (if Body n f then .item (bs ++ f.flatMap Beat.bytes) else .error) := by
  induction f generalizing n bs with
  | nil => exact absurd hf id
  | cons b f ih =>
    cases n with
    | zero =>
      by_cases hok : b.tlast = true ∧ b.tkeep = 0b1100#4
      · obtain rfl := (isFrame_last hok.1).1 hf
        rw [if_pos (show Body 0 [b] from hok.2)]
        have hread : read (expecting 0 bs) b = (.magic, [.item (bs ++ b.bytes)]) := if_pos hok
        refine ⟨?_, ?_⟩
        · rw [outputs_read, hread, List.flatMap_singleton]
          rfl
        · rw [after_read, hread]
          rfl
      · have hno : ¬Body 0 (b :: f) := by
          cases hl : b.tlast with
          | true =>
            obtain rfl := (isFrame_last hl).1 hf
            exact fun hk => hok ⟨hl, hk⟩
          | false =>
            cases f with
            | nil => exact absurd ((isFrame_more hl).1 hf) id
            | cons c cs => exact id
        rw [if_neg hno]
        exact gives_rejected hf (if_neg hok)
    | succ n =>
      by_cases hok : b.tkeep = 0b1111#4 ∧ b.tlast = false
      · have hread : read (expecting (n + 1) bs) b = (expecting n (bs ++ b.bytes), []) := by
          have hk : 13 - (n + 1) = 12 ↔ n = 0 := by omega
          refine (if_pos hok).trans ?_
          rw [expecting, (by omega : 13 - (n + 1) + 1 = 13 - n)]
          simp only [hk]
        have hrest := ih ((isFrame_more hok.2).1 hf) (by omega : n ≤ 13) (bs ++ b.bytes)
        have hbody : Body (n + 1) (b :: f) ↔ Body n f := and_iff_right hok.1
        rw [List.append_assoc] at hrest
        simp only [hbody, List.flatMap_cons]
        exact gives_next hread hrest
      · have hno : ¬Body (n + 1) (b :: f) := by
          rintro ⟨hkeep, hbody⟩
          cases hl : b.tlast with
          | true =>
            obtain rfl := (isFrame_last hl).1 hf
            exact not_body_nil n hbody
          | false => exact hok ⟨hkeep, hl⟩
        rw [if_neg hno]
        exact gives_rejected hf (if_neg hok)

/-- A frame read from its first word has its outcome, and the next one is read from its own. -/
theorem gives_frame {f : List Beat} (hf : IsFrame f) : Gives .magic f (outcome f) := by
  cases f with
  | nil => exact absurd hf id
  | cons m f =>
    by_cases hm : m.tdata = MAGIC_TMDC ∧ m.tlast = false
    · have hf' := (isFrame_more hm.2).1 hf
      refine gives_next (if_pos hm) ?_
      cases f with
      | nil => exact absurd hf' id
      | cons l f =>
        by_cases hl : l.tdata = EXPECTED_LEN_B ∧ l.tlast = false
        · have hbody := gives_body ((isFrame_more hl.2).1 hf') (Nat.le_refl 13) []
          have hok : WellFormed (m :: l :: f) ↔ Body 13 f :=
            ⟨fun h => h.2.2, fun h => ⟨hm.1, hl.1, h⟩⟩
          rw [outcome]
          simp only [hok]
          exact gives_next (if_pos hl) hbody
        · have hno : ¬WellFormed (m :: l :: f) := by
            rintro ⟨-, hlen, hbody⟩
            cases hlast : l.tlast with
            | true =>
              obtain rfl := (isFrame_last hlast).1 hf'
              exact not_body_nil 13 hbody
            | false => exact hl ⟨hlen, hlast⟩
          rw [outcome, if_neg hno]
          exact gives_rejected hf' (if_neg hl)
    · have hno : ¬WellFormed (m :: f) := by
        intro h
        cases hlast : m.tlast with
        | true =>
          obtain rfl := (isFrame_last hlast).1 hf
          exact h
        | false =>
          cases f with
          | nil => exact h
          | cons l f => exact hm ⟨h.1, hlast⟩
      rw [outcome, if_neg hno]
      exact gives_rejected hf (if_neg hm)

/-! Frames one after the other. -/

theorem outputs_frames {fs : List (List Beat)} (h : ∀ f ∈ fs, IsFrame f) (p : List Beat) :
    reader.outputs .magic (fs.flatten ++ p) = fs.map outcome ++ reader.outputs .magic p ∧
      reader.after .magic (fs.flatten ++ p) = reader.after .magic p := by
  have hback : ∀ f ∈ fs, reader.after .magic f = .magic := fun f hf => (gives_frame (h f hf)).after
  rw [reader.outputs_append, reader.after_append, reader.after_flatten hback,
    reader.outputs_flatten hback]
  refine ⟨?_, rfl⟩
  rw [List.flatMap_congr fun f hf => (gives_frame (h f hf)).outputs, ← List.map_eq_flatMap]

/-- Before its last word nothing but an error is reported. -/
theorem read_early {a : Await} {b : Beat} (h : b.tlast = false) :
    ∀ e ∈ (read a b).2, e = .error := by
  have hreject : ∀ e ∈ (reject b).2, e = .error := fun e he => List.mem_singleton.1 he
  have hite : ∀ (c : Prop) [Decidable c] (a' : Await),
      ∀ e ∈ (if c then (a', []) else reject b).2, e = .error := by
    intro c _ a'
    split
    · exact fun e he => absurd he List.not_mem_nil
    · exact hreject
  cases a with
  | magic => exact hite _ _
  | length => exact hite _ _
  | body k bs => exact hite _ _
  | tail bs =>
    have hno : ¬(b.tlast = true ∧ b.tkeep = 0b1100#4) := fun hk => by
      rw [h] at hk
      exact Bool.false_ne_true hk.1
    rw [read, if_neg hno]
    exact hreject
  | skip => exact fun e he => absurd he List.not_mem_nil

theorem outputs_early {a : Await} {p : List Beat} (h : Unfinished p) :
    ∀ e ∈ reader.outputs a p, e = .error := by
  induction p generalizing a with
  | nil => exact fun e he => nomatch he
  | cons b bs ih =>
    intro e he
    rw [outputs_read, List.mem_append] at he
    obtain he | he := he
    · exact read_early (h b List.mem_cons_self) e he
    · exact ih (fun c hc => h c (List.mem_cons_of_mem b hc)) e he

/-- What is reported of a frame that has not ended: nothing, or its error when no way to end it is
well formed. -/
def Early (p : List Beat) (es : List (Signal (List Byte))) : Prop :=
  es = [] ∨ es = [.error] ∧ ∀ q, IsFrame (p ++ q) → ¬WellFormed (p ++ q)

theorem early_unfinished {p : List Beat} (h : Unfinished p) :
    Early p (reader.outputs .magic p) := by
  have hone : ∀ q, IsFrame (p ++ q) → reader.outputs .magic p ++
      reader.outputs (reader.after .magic p) q = [outcome (p ++ q)] := by
    intro q hq
    rw [← reader.outputs_append]
    exact (gives_frame hq).outputs
  have herr := outputs_early (a := .magic) h
  cases hes : reader.outputs .magic p with
  | nil => exact Or.inl rfl
  | cons e es =>
    rw [hes] at hone herr
    have hlast := hone [⟨0, 0, true⟩] (isFrame_closed h _ rfl)
    obtain ⟨-, hnil⟩ := List.cons.inj hlast
    rw [List.append_eq_nil_iff.1 hnil |>.1, herr e List.mem_cons_self]
    refine Or.inr ⟨rfl, fun q hq hok => ?_⟩
    have heq := (List.cons.inj (hone q hq)).1
    rw [herr e List.mem_cons_self, outcome, if_pos hok] at heq
    cases heq

/-- Where a run from reset stands. -/
structure Resolves (h : Hist) : Prop where
  /-- The frames that have ended have one outcome each, in order; at most the last of them is a
  half-block that still waits for its handshake, and then no word is accepted. -/
  outcomes : ∃ early, Early (splitFrames h.words).2 early ∧
    h.events <+: (splitFrames h.words).1.map outcome ++ early ∧
    ((splitFrames h.words).1.map outcome ++ early).length ≤ h.events.length + 1 ∧
    (sAxisTready h.state = true → h.events = (splitFrames h.words).1.map outcome ++ early)
  errCnt : h.state.errCnt.toNat = min (h.events.count .error) (2 ^ 32 - 1)
  framesCnt : h.state.framesCnt.toNat = min (h.events.countP fun e => e ≠ .error) (2 ^ 32 - 1)
  /-- Between frames the next word is the first of a frame. -/
  fresh : (splitFrames h.words).2 = [] → sAxisTready h.state = true → h.state.state = .hdrM
  stable (i : Input) : h.state.outValid = true → i.outReady = false →
    (step h.state i).outValid = true ∧ (step h.state i).outNubBits = h.state.outNubBits
  /-- A sink that is ready at two edges takes what is owed. -/
  taken (js : List Input) : h.state.state = .drive → 2 ≤ js.countP Input.outReady →
    ∃ pre, pre <+: js ∧ (exec step h.state pre).state = .hdrM

theorem owed_of_ready {s : State} (h : sAxisTready s = true) : owed s = [] := by
  refine owed_nil fun hst => ?_
  rw [sAxisTready, hst] at h
  cases h

theorem owed_length_le (s : State) : (owed s).length ≤ 1 := by
  unfold owed
  split
  · exact Nat.le_refl 1
  · exact Nat.zero_le 1

/-- Every frame is resolved into the one handshake with its payload or into one error. -/
theorem framer_resolves (is : List Input) : Resolves (run is) := by
  obtain ⟨hinv, hevents, hawaits, herr, hframes⟩ := conserved_run is
  have hs := splitFrames_split (run is).words
  obtain ⟨hout, hafter⟩ := outputs_frames hs.frames (splitFrames (run is).words).2
  rw [← hs.words] at hout hafter
  rw [hout] at hevents
  refine ⟨⟨_, early_unfinished hs.unfinished, ?_, ?_, fun hr => ?_⟩, herr, hframes, ?_,
    fun i => offered_stable hinv, fun js hst => taken_of_ready hst⟩
  · rw [← hevents]
    exact List.prefix_append _ _
  · rw [← hevents, List.length_append]
    exact Nat.add_le_add_left (owed_length_le _) _
  · rw [← hevents, owed_of_ready hr, List.append_nil]
  · intro hp hr
    rw [hafter, hp] at hawaits
    cases hst : (run is).state.state with
    | hdrM => rfl
    | drive | doneW => simp [sAxisTready, hst] at hr
    | hdrL | pay | tail | drain => simp [awaits, hst, Reader.after] at hawaits

end TetraBs.Infra.TmdsapTx
