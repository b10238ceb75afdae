import TetraBs.Lib.Run

/-! Sources that drive a valid/ready link from a register, and the beats that cross the link.
A beat crosses at a clock edge that finds it offered and the sink ready. Nothing here is about
TETRA. -/
namespace TetraBs.Stream
open TetraBs.Run
variable {σ ι β ρ : Type*}

/-- `queue` is what the source still has to put into its register and `refill` what one edge
adds to it; `first` is set as long as no edge that found the sink ready loaded the head of the
present run of beats. -/
structure Source (σ ι β : Type*) where
  step : σ → ι → σ
  offered : σ → Option β
  ready : ι → Bool
  queue : σ → List β
  first : σ → Bool
  refill : σ → ι → List β

namespace Source
variable (src : Source σ ι β)

/-- The beat that crosses the link at the edge. -/
def transferred (s : σ) (i : ι) : List β :=
  if src.ready i then (src.offered s).toList else []

/-- A stalled beat stays offered. -/
def Held (s : σ) (i : ι) : Prop :=
  src.ready i = false → ∀ b, src.offered s = some b → src.offered (src.step s i) = some b

/-- The offered beat is not the head of the queue when the sink takes it, and is the head of
the queue when the sink stalls it. -/
def KeepsUp (s : σ) (i : ι) : Prop :=
  ∀ b, src.offered s = some b →
    if src.ready i then src.queue s ≠ [] → src.first s = false
    else (src.queue s).head? = some b

instance [DecidableEq β] (s : σ) (i : ι) : Decidable (src.KeepsUp s i) :=
  inferInstanceAs (Decidable (∀ b ∈ src.offered s,
    if src.ready i then src.queue s ≠ [] → src.first s = false
    else (src.queue s).head? = some b))

/-- The beats that are still to cross the link. -/
def pending (s : σ) : List β :=
  if src.queue s ≠ [] ∧ src.first s then src.queue s
  else (src.offered s).toList ++ src.queue s

/-- With an empty queue the register is cleared; else the edge loads the head of the queue,
whether or not the previous beat is gone, and drops it from the queue if the sink is ready. -/
structure Loads (Inv : σ → Prop) : Prop where
  idle {s : σ} (i : ι) : Inv s → src.queue s = [] →
    src.offered (src.step s i) = none ∧ src.queue (src.step s i) = src.refill s i ∧
      (src.refill s i ≠ [] → src.first (src.step s i))
  go {s : σ} {i : ι} {b : β} {q : List β} : Inv s → src.queue s = b :: q → src.ready i = true →
    src.offered (src.step s i) = some b ∧ src.queue (src.step s i) = q ++ src.refill s i ∧
      (q ++ src.refill s i ≠ [] → src.first (src.step s i) = false)
  wait {s : σ} {i : ι} {b : β} {q : List β} :
    Inv s → src.queue s = b :: q → src.ready i = false →
    src.offered (src.step s i) = some b ∧ src.queue (src.step s i) = b :: q ∧
      src.first (src.step s i) = src.first s ∧ src.refill s i = []

/-- Register and queue fit together: in front of a first beat the register is empty or holds
that beat, between two beats it is full. -/
def Settled (s : σ) : Prop :=
  ∀ b q, src.queue s = b :: q →
    if src.first s then ∀ a, src.offered s = some a → a = b else (src.offered s).isSome

variable {src} {Inv : σ → Prop}

theorem settled_empty {s : σ} (h : src.queue s = []) : src.Settled s := by
  intro b q hq
  rw [h] at hq
  cases hq

theorem pending_empty {s : σ} (h : src.queue s = []) :
    src.pending s = (src.offered s).toList := by
  simp [pending, h]

theorem pending_first {s : σ} {b : β} {q : List β} (h : src.queue s = b :: q)
    (hf : src.first s = true) : src.pending s = b :: q := by
  simp [pending, h, hf]

theorem pending_next {s : σ} (hf : src.queue s ≠ [] → src.first s = false) :
    src.pending s = (src.offered s).toList ++ src.queue s := by
  by_cases h : src.queue s = []
  · simp [pending, h]
  · simp [pending, hf h]

theorem step_settled (hl : src.Loads Inv) {s : σ} (i : ι) (hi : Inv s) :
    src.Settled (src.step s i) := by
  intro b' q' hq'
  cases hq : src.queue s with
  | nil =>
    obtain ⟨hoff, hqueue, hfirst⟩ := hl.idle i hi hq
    have hne : src.refill s i ≠ [] := by
      rw [← hqueue, hq']
      exact List.cons_ne_nil b' q'
    rw [if_pos (hfirst hne), hoff]
    intro a ha
    cases ha
  | cons b q =>
    cases hr : src.ready i with
    | true =>
      obtain ⟨hoff, hqueue, hfirst⟩ := hl.go hi hq hr
      have hne : q ++ src.refill s i ≠ [] := by
        rw [← hqueue, hq']
        exact List.cons_ne_nil b' q'
      rw [hfirst hne, if_neg Bool.false_ne_true, hoff]
      rfl
    | false =>
      obtain ⟨hoff, hqueue, hfirst, -⟩ := hl.wait hi hq hr
      rw [hqueue] at hq'
      cases hq'
      rw [hfirst, hoff]
      split
      · intro a ha
        cases ha
        rfl
      · rfl

/-- What the register offers next to an empty queue crosses the link or is lost. -/
theorem idle_conserved_iff (hl : src.Loads Inv) {s : σ} (i : ι) (hi : Inv s)
    (hq : src.queue s = []) :
    (src.transferred s i ++ src.pending (src.step s i) = src.pending s ++ src.refill s i ∧
      src.Held s i) ↔ src.KeepsUp s i := by
  obtain ⟨hoff, hqueue, hfirst⟩ := hl.idle i hi hq
  have hpend : src.pending (src.step s i) = src.refill s i := by
    by_cases hne : src.refill s i = []
    · simp [pending, hqueue, hoff, hne]
    · simp [pending, hqueue, hne, hfirst hne]
  rw [hpend, pending_empty hq, transferred, Held, KeepsUp, hoff, hq]
  cases src.ready i <;> cases src.offered s <;> simp

/-- In front of a first beat nothing may be offered to a ready sink. -/
theorem first_conserved_iff (hl : src.Loads Inv) {s : σ} (i : ι) (hi : Inv s)
    (hs : src.Settled s) {b : β} {q : List β} (hq : src.queue s = b :: q)
    (hf : src.first s = true) :
    (src.transferred s i ++ src.pending (src.step s i) = src.pending s ++ src.refill s i ∧
      src.Held s i) ↔ src.KeepsUp s i := by
  have hhead := hs b q hq
  rw [if_pos hf] at hhead
  rw [pending_first hq hf, transferred, Held, KeepsUp, hq, hf]
  cases hr : src.ready i with
  | true =>
    obtain ⟨hoff, hqueue, hfirst⟩ := hl.go hi hq hr
    rw [pending_next (by rwa [hqueue]), hoff, hqueue]
    cases ho : src.offered s <;> simp
  | false =>
    obtain ⟨hoff, hqueue, hfirst, hrefill⟩ := hl.wait hi hq hr
    rw [pending_first hqueue (hfirst.trans hf), hoff, hrefill]
    simp only [Bool.false_eq_true, if_false, List.nil_append, List.append_nil, List.head?_cons,
      true_and, forall_const]

/-- Between two beats the register is overwritten whether or not the sink took the beat. -/
theorem next_conserved_iff (hl : src.Loads Inv) {s : σ} (i : ι) (hi : Inv s)
    (hs : src.Settled s) {b : β} {q : List β} (hq : src.queue s = b :: q)
    (hf : src.first s = false) :
    (src.transferred s i ++ src.pending (src.step s i) = src.pending s ++ src.refill s i ∧
      src.Held s i) ↔ src.KeepsUp s i := by
  have hfull := hs b q hq
  rw [hf, if_neg Bool.false_ne_true] at hfull
  obtain ⟨a, ho⟩ := Option.isSome_iff_exists.1 hfull
  rw [pending_next fun _ => hf, transferred, Held, KeepsUp, hq, hf, ho]
  cases hr : src.ready i with
  | true =>
    obtain ⟨hoff, hqueue, hfirst⟩ := hl.go hi hq hr
    rw [pending_next (by rwa [hqueue]), hoff, hqueue]
    simp
  | false =>
    obtain ⟨hoff, hqueue, hfirst, hrefill⟩ := hl.wait hi hq hr
    rw [pending_next fun _ => hfirst.trans hf, hoff, hqueue, hrefill]
    simp

/-- One edge neither loses, repeats nor changes a beat exactly if the sink keeps up with the
source. -/
theorem conserved_iff (hl : src.Loads Inv) {s : σ} (i : ι) (hi : Inv s) (hs : src.Settled s) :
    (src.transferred s i ++ src.pending (src.step s i) = src.pending s ++ src.refill s i ∧
      src.Held s i) ↔ src.KeepsUp s i := by
  cases hq : src.queue s with
  | nil => exact idle_conserved_iff hl i hi hq
  | cons b q =>
    cases hf : src.first s with
    | true => exact first_conserved_iff hl i hi hs hq hf
    | false => exact next_conserved_iff hl i hi hs hq hf

end Source

/-- A source with the beats that crossed its link, the beats it committed itself to, whether
every stalled beat stayed offered, and a log of what was asked of it. -/
structure Traffic (σ β ρ : Type*) where
  state : σ
  sent : List β
  due : List β
  held : Prop
  log : ρ

namespace Traffic
variable (src : Source σ ι β) (note : ρ → σ → ι → ρ)

def start (s : σ) (log : ρ) : Traffic σ β ρ := ⟨s, [], [], True, log⟩

def edge (t : Traffic σ β ρ) (i : ι) : Traffic σ β ρ where
  state := src.step t.state i
  sent := t.sent ++ src.transferred t.state i
  due := t.due ++ src.refill t.state i
  held := t.held ∧ src.Held t.state i
  log := note t.log t.state i

/-- Every beat is still to be sent or was sent once, in order, and none changed in a stall. -/
def Conserved (t : Traffic σ β ρ) : Prop :=
  t.sent ++ src.pending t.state = t.due ∧ t.held

variable {src note} {Inv : σ → Prop}

/-- A run whose sink keeps up conserves the beats. -/
theorem conserved_edge (hl : src.Loads Inv) {t : Traffic σ β ρ} {i : ι} (hi : Inv t.state)
    (hs : src.Settled t.state) (hk : src.KeepsUp t.state i) (hc : t.Conserved src) :
    (t.edge src note i).Conserved src := by
  obtain ⟨hsent, hheld⟩ := (Source.conserved_iff hl i hi hs).2 hk
  refine ⟨?_, hc.2, hheld⟩
  change t.sent ++ src.transferred t.state i ++ _ = t.due ++ src.refill t.state i
  rw [← hc.1, List.append_assoc, List.append_assoc, ← hsent]
  rfl

/-- The beats stay conserved along a run whose sink keeps up. -/
theorem run_conserved (hl : src.Loads Inv) (hinv : ∀ s i, Inv s → Inv (src.step s i))
    {K : Traffic σ β ρ → ι → Prop} (hk : ∀ t i, K t i → src.KeepsUp t.state i)
    {s : σ} (hi : Inv s) (hq : src.queue s = []) (ho : src.offered s = none) {log : ρ}
    {is : List ι} (ha : Along (edge src note) K (start s log) is) :
    src.Settled (exec (edge src note) (start s log) is).state ∧
      (exec (edge src note) (start s log) is).Conserved src := by
  have h := exec_invariant (P := K)
    (fun t => Inv t.state ∧ src.Settled t.state ∧ t.Conserved src) ?_ ?_ ha
  · exact h.2
  · intro t i ht hk'
    exact ⟨hinv _ i ht.1, Source.step_settled hl i ht.1,
      conserved_edge hl ht.1 ht.2.1 (hk t i hk') ht.2.2⟩
  · refine ⟨hi, Source.settled_empty hq, ?_, trivial⟩
    change [] ++ src.pending s = []
    rw [Source.pending_empty hq, ho]
    rfl

/-- What was sent, with the offered beat, is the beginning of what is due. -/
theorem Conserved.sent_initial {t : Traffic σ β ρ} (hc : t.Conserved src)
    (hs : src.Settled t.state) : t.sent ++ (src.offered t.state).toList <+: t.due := by
  rw [← hc.1]
  refine (List.prefix_append_right_inj _).2 ?_
  rw [Source.pending]
  split
  · rename_i h
    cases hq : src.queue t.state with
    | nil => exact absurd hq h.1
    | cons b q =>
      have hhead := hs b q hq
      rw [if_pos h.2] at hhead
      cases ho : src.offered t.state with
      | none => exact List.nil_prefix
      | some a =>
        rw [hhead a ho]
        exact ⟨q, rfl⟩
  · exact List.prefix_append _ _

/-- A source at rest has sent everything. -/
theorem Conserved.sent_eq {t : Traffic σ β ρ} (hc : t.Conserved src)
    (hq : src.queue t.state = []) (ho : src.offered t.state = none) : t.sent = t.due := by
  rw [← hc.1, Source.pending_empty hq, ho]
  exact (List.append_nil _).symm

/-- What the sink sees of a source that serves the log: the beats are the beginning of the words
asked for, the offered one included, no stalled beat changed, and at rest nothing is missing. -/
structure Delivered {γ : Type*} (src : Source σ ι β) (view : β → γ) (words : ρ → List γ)
    (t : Traffic σ β ρ) : Prop where
  sent_initial : (t.sent ++ (src.offered t.state).toList).map view <+: words t.log
  held : t.held
  complete : src.queue t.state = [] → src.offered t.state = none →
    t.sent.map view = words t.log

theorem Conserved.delivered {γ : Type*} {view : β → γ} {words : ρ → List γ}
    {t : Traffic σ β ρ} (hc : t.Conserved src) (hs : src.Settled t.state)
    (hw : t.due.map view = words t.log) : t.Delivered src view words := by
  refine ⟨?_, hc.2, fun hq ho => ?_⟩
  · rw [← hw]
    exact (hc.sent_initial hs).map view
  · rw [← hw, hc.sent_eq hq ho]

end Traffic
end TetraBs.Stream
