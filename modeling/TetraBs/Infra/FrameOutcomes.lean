import TetraBs.Infra.ByteLink

/-! Frame by frame outcomes of a reader: a word sequence is cut behind every `tlast`, and a
reader that gives each frame one outcome gives the sequence one outcome for each of its frames. -/
namespace TetraBs.Infra
open TetraBs.Bits TetraBs.Serial

/-- A reader drops words without a trace until the end of a frame brings it back to `start`. -/
structure Drops {α : Type*} (r : Reader α Beat (Signal Byte)) (skip start : α) : Prop where
  out (b : Beat) : r.out skip b = []
  next (b : Beat) : r.next skip b = if b.tlast then start else skip

theorem Drops.frame {α : Type*} {r : Reader α Beat (Signal Byte)} {skip start : α}
    (h : Drops r skip start) {f : List Beat} (hf : IsFrame f) :
    r.outputs skip f = [] ∧ r.after skip f = start := by
  induction f with
  | nil => exact absurd hf id
  | cons b bs ih =>
    rw [Reader.outputs, Reader.after, h.out, h.next, List.nil_append]
    cases hl : b.tlast with
    | true =>
      obtain rfl := (isFrame_last hl).1 hf
      exact ⟨rfl, rfl⟩
    | false => exact ih ((isFrame_more hl).1 hf)

/-- The rest of a frame whose first word is not looked at any more. -/
theorem Drops.rest {α : Type*} {r : Reader α Beat (Signal Byte)} {skip start : α}
    (h : Drops r skip start) {b : Beat} {bs : List Beat} (hf : IsFrame (b :: bs)) :
    r.outputs (if b.tlast then start else skip) bs = [] ∧
      r.after (if b.tlast then start else skip) bs = start := by
  cases hl : b.tlast with
  | true =>
    obtain rfl := (isFrame_last hl).1 hf
    exact ⟨rfl, rfl⟩
  | false => exact h.frame ((isFrame_more hl).1 hf)

/-- The frames of a word sequence, and the words of the frame that has not ended. -/
def splitFrames : List Beat → List (List Beat) × List Beat
  | [] => ([], [])
  | b :: bs =>
    match splitFrames bs with
    | (fs, p) =>
      if b.tlast then ([b] :: fs, p)
      else
        match fs with
        | [] => ([], b :: p)
        | f :: fs => ((b :: f) :: fs, p)

/-- The cuts lie behind the words with `tlast`, and nowhere else. -/
structure Split (ws : List Beat) (fs : List (List Beat)) (p : List Beat) : Prop where
  words : ws = fs.flatten ++ p
  frames : ∀ f ∈ fs, IsFrame f
  unfinished : Unfinished p

theorem split_cons_last {b : Beat} {ws p : List Beat} {fs : List (List Beat)}
    (h : Split ws fs p) (hl : b.tlast = true) : Split (b :: ws) ([b] :: fs) p where
  words := congrArg (b :: ·) h.words
  frames f hf := by
    cases hf with
    | head => exact (isFrame_last hl).2 rfl
    | tail _ hf => exact h.frames f hf
  unfinished := h.unfinished

theorem split_cons_first {b : Beat} {ws p : List Beat} (h : Split ws [] p)
    (hl : b.tlast = false) : Split (b :: ws) [] (b :: p) where
  words := congrArg (b :: ·) h.words
  frames f hf := nomatch hf
  unfinished c hc := by
    cases hc with
    | head => exact hl
    | tail _ hc => exact h.unfinished c hc

theorem split_cons_more {b : Beat} {ws p f : List Beat} {fs : List (List Beat)}
    (h : Split ws (f :: fs) p) (hl : b.tlast = false) : Split (b :: ws) ((b :: f) :: fs) p where
  words := congrArg (b :: ·) h.words
  frames g hg := by
    cases hg with
    | head => exact (isFrame_more hl).2 (h.frames f List.mem_cons_self)
    | tail _ hg => exact h.frames g (List.mem_cons_of_mem f hg)
  unfinished := h.unfinished

theorem splitFrames_split (ws : List Beat) :
    Split ws (splitFrames ws).1 (splitFrames ws).2 := by
  induction ws with
  | nil => exact ⟨rfl, fun f hf => absurd hf List.not_mem_nil, fun b hb => absurd hb List.not_mem_nil⟩
  | cons b ws ih =>
    cases hsplit : splitFrames ws with
    | mk fs p =>
      rw [hsplit] at ih
      rw [splitFrames, hsplit]
      cases hl : b.tlast with
      | true => exact split_cons_last ih hl
      | false =>
        cases fs with
        | nil => exact split_cons_first ih hl
        | cons f fs => exact split_cons_more ih hl

section
variable {α : Type*} {r : Reader α Beat (Signal Byte)} {a : α} {ok : List Beat → Prop}
  {verdict : List Beat → Outcome}

/-- Every frame leads the reader back to `a`; one that is `ok` has exactly one outcome, any other
at most one, and no end is reported before the last word. -/
structure Judges (r : Reader α Beat (Signal Byte)) (a : α) (ok : List Beat → Prop)
    (verdict : List Beat → Outcome) : Prop where
  back {f : List Beat} : IsFrame f → r.after a f = a
  one {f : List Beat} : IsFrame f → ok f → outcomes (r.outputs a f) = [verdict f]
  le_one {f : List Beat} : IsFrame f → (outcomes (r.outputs a f)).length ≤ 1
  early {p : List Beat} : Unfinished p → Outcome.done ∉ outcomes (r.outputs a p)

theorem isFrame_closed {p : List Beat} (h : Unfinished p) (b : Beat) (hb : b.tlast = true) :
    IsFrame (p ++ [b]) := by
  induction p with
  | nil => exact (isFrame_last hb).2 rfl
  | cons c cs ih =>
    exact (isFrame_more (h c List.mem_cons_self)).2
      (ih fun d hd => h d (List.mem_cons_of_mem c hd))

theorem outcomes_frames (hj : Judges r a ok verdict) {fs : List (List Beat)}
    (hf : ∀ f ∈ fs, IsFrame f) :
    outcomes (r.outputs a fs.flatten) = fs.flatMap fun f => outcomes (r.outputs a f) := by
  induction fs with
  | nil => rfl
  | cons f fs ih =>
    rw [List.flatten_cons, r.outputs_append, hj.back (hf f List.mem_cons_self), outcomes_append,
      List.flatMap_cons, ih fun g hg => hf g (List.mem_cons_of_mem f hg)]

/-- Before its last word a frame is at most rejected, and then it is rejected for good. -/
def Early (ok : List Beat → Prop) (verdict : List Beat → Outcome) (p : List Beat)
    (es : List Outcome) : Prop :=
  es = [] ∨ es = [.error] ∧ ∀ q, IsFrame (p ++ q) → ok (p ++ q) → verdict (p ++ q) = .error

theorem early_outcomes (hj : Judges r a ok verdict) {p : List Beat} (hp : Unfinished p) :
    Early ok verdict p (outcomes (r.outputs a p)) := by
  have hdone := hj.early hp
  have hlen := hj.le_one (isFrame_closed hp ⟨0, 0, true⟩ rfl)
  rw [r.outputs_append, outcomes_append, List.length_append] at hlen
  cases hes : outcomes (r.outputs a p) with
  | nil => exact Or.inl rfl
  | cons e es =>
    rw [hes] at hlen hdone
    have hnil : es = [] := by
      apply List.eq_nil_of_length_eq_zero
      rw [List.length_cons] at hlen
      omega
    cases e with
    | done => exact absurd List.mem_cons_self hdone
    | error =>
      subst hnil
      refine Or.inr ⟨rfl, fun q hq hok => ?_⟩
      have hone := hj.one hq hok
      rw [r.outputs_append, outcomes_append, hes] at hone
      exact (List.cons.inj hone).1.symm

/-- What the outcomes raised along a run are: frame by frame and in order, exactly one for each
frame that is `ok` and never two for any, and at most an early rejection of the frame that has not
ended; once words are accepted again none is missing. -/
def Resolved (ok : List Beat → Prop) (verdict : List Beat → Outcome) (accepts : Bool)
    (words : List Beat) (raised : List Outcome) : Prop :=
  ∃ (of : List Beat → List Outcome) (early : List Outcome),
    (∀ f ∈ (splitFrames words).1, (ok f → of f = [verdict f]) ∧ (of f).length ≤ 1) ∧
    Early ok verdict (splitFrames words).2 early ∧
    raised <+: (splitFrames words).1.flatMap of ++ early ∧
    (accepts = true → raised = (splitFrames words).1.flatMap of ++ early)

theorem resolved_of (hj : Judges r a ok verdict) {words : List Beat}
    {raised owed : List (Signal Byte)} {accepts : Bool} (h : raised ++ owed = r.outputs a words)
    (howed : accepts = true → owed = []) :
    Resolved ok verdict accepts words (outcomes raised) := by
  have hs := splitFrames_split words
  have hall : outcomes (raised ++ owed) =
      ((splitFrames words).1.flatMap fun f => outcomes (r.outputs a f)) ++
        outcomes (r.outputs a (splitFrames words).2) := by
    have hwords := congrArg (fun ws => outcomes (r.outputs a ws)) hs.words
    rw [h, ← outcomes_frames hj hs.frames, ← outcomes_append]
    refine hwords.trans (congrArg outcomes ?_)
    rw [r.outputs_append, r.after_flatten fun f hf => hj.back (hs.frames f hf)]
  refine ⟨fun f => outcomes (r.outputs a f), _, ?_, early_outcomes hj hs.unfinished, ?_,
    fun hacc => ?_⟩
  · intro f hf
    exact ⟨hj.one (hs.frames f hf), hj.le_one (hs.frames f hf)⟩
  · rw [← hall, outcomes_append]
    exact List.prefix_append _ _
  · rw [← hall, howed hacc, List.append_nil]

theorem after_words (hj : Judges r a ok verdict) (words : List Beat) :
    r.after a words = r.after a (splitFrames words).2 := by
  have hs := splitFrames_split words
  have hwords := congrArg (r.after a) hs.words
  rw [r.after_append, r.after_flatten fun f hf => hj.back (hs.frames f hf)] at hwords
  exact hwords

end
end TetraBs.Infra
