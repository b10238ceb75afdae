import TetraBs.Lib.Stream

/-! Serializers: clocked machines that take words from one link, send items over another one and
mark the frames with pulses. A reader says what the words of a run mean, and a serializer serves
it if every edge raises what the reader owes. Nothing here is about TETRA. -/
namespace TetraBs.Serial
open TetraBs.Run TetraBs.Stream
variable {σ ι ω α β ε : Type*}

inductive Signal (β : Type*) where
  | item (b : β)
  | done
  | error
deriving DecidableEq

/-- A word machine: what each word puts out and what it leaves to be read. -/
structure Reader (α ω ε : Type*) where
  next : α → ω → α
  out : α → ω → List ε

namespace Reader
variable (r : Reader α ω ε)

def after : α → List ω → α
  | a, [] => a
  | a, w :: ws => after (r.next a w) ws

def outputs : α → List ω → List ε
  | _, [] => []
  | a, w :: ws => r.out a w ++ outputs (r.next a w) ws

theorem after_nil (a : α) : r.after a [] = a := rfl

theorem outputs_nil (a : α) : r.outputs a [] = [] := rfl

theorem after_eq_exec (a : α) (ws : List ω) : r.after a ws = exec r.next a ws := by
  induction ws generalizing a with
  | nil => rfl
  | cons w ws ih => exact ih (r.next a w)

theorem after_append (a : α) (us ws : List ω) :
    r.after a (us ++ ws) = r.after (r.after a us) ws := by
  induction us generalizing a with
  | nil => rfl
  | cons u us ih => exact ih (r.next a u)

theorem outputs_append (a : α) (us ws : List ω) :
    r.outputs a (us ++ ws) = r.outputs a us ++ r.outputs (r.after a us) ws := by
  induction us generalizing a with
  | nil => rfl
  | cons u us ih => rw [List.cons_append, outputs, outputs, after, ih, List.append_assoc]

/-- More words never change what was put out. -/
theorem outputs_mono (a : α) {us ws : List ω} (h : us <+: ws) :
    r.outputs a us <+: r.outputs a ws := by
  obtain ⟨vs, rfl⟩ := h
  rw [outputs_append]
  exact List.prefix_append _ _

/-- Frames that each lead back to where they started are read one by one. -/
theorem after_flatten {a : α} {fs : List (List ω)} (h : ∀ f ∈ fs, r.after a f = a) :
    r.after a fs.flatten = a := by
  induction fs with
  | nil => rfl
  | cons f fs ih =>
    rw [List.flatten_cons, after_append, h f List.mem_cons_self]
    exact ih fun g hg => h g (List.mem_cons_of_mem f hg)

theorem outputs_flatten {a : α} {fs : List (List ω)} (h : ∀ f ∈ fs, r.after a f = a) :
    r.outputs a fs.flatten = fs.flatMap (r.outputs a) := by
  induction fs with
  | nil => rfl
  | cons f fs ih =>
    rw [List.flatten_cons, outputs_append, h f List.mem_cons_self, List.flatMap_cons,
      ih fun g hg => h g (List.mem_cons_of_mem f hg)]

end Reader

/-- `taken` is the word that the edge takes, `pulses` what the pulse registers show. -/
structure Serializer (σ ι ω β : Type*) extends Source σ ι β where
  taken : σ → ι → Option ω
  pulses : σ → List (Signal β)

namespace Serializer
variable (m : Serializer σ ι ω β)

/-- The item that the edge puts into the register, and the pulses it sets. -/
def raised (s : σ) (i : ι) : List (Signal β) :=
  (if m.ready i then (m.queue s).map .item else []) ++ m.pulses (m.step s i)

/-- What the sink sees at the edge: the item that crosses, then the pulses. -/
def crossed (s : σ) (i : ι) : List (Signal β) :=
  (m.transferred s i).map .item ++ m.pulses s

/-- What was raised and has not been seen. -/
def shown (s : σ) : List (Signal β) :=
  if m.queue s ≠ [] ∧ m.first s then [] else (m.offered s).toList.map .item ++ m.pulses s

/-- Items are queued one at a time, and no pulse is shown next to a queued item. -/
structure Indicates (Inv : σ → Prop) : Prop where
  single {s : σ} {b : β} {q : List β} : Inv s → m.queue s = b :: q → q = []
  quiet {s : σ} : Inv s → m.queue s ≠ [] → m.pulses s = []

/-- Each edge raises what the reader puts out for the words taken, as far as it is not owed. -/
structure Serves (r : Reader α ω (Signal β)) (abs : σ → α) (owed : σ → List (Signal β))
    (Inv : σ → Prop) : Prop where
  take {s : σ} {i : ι} {w : ω} : Inv s → m.taken s i = some w →
    m.raised s i ++ owed (m.step s i) = owed s ++ r.out (abs s) w ∧
      abs (m.step s i) = r.next (abs s) w
  stay {s : σ} {i : ι} : Inv s → m.taken s i = none →
    m.raised s i ++ owed (m.step s i) = owed s ∧ abs (m.step s i) = abs s

variable {m} {Inv : σ → Prop}

theorem shown_empty {s : σ} (h : m.queue s = []) :
    m.shown s = (m.offered s).toList.map .item ++ m.pulses s := by
  simp [shown, h]

theorem shown_first {s : σ} (h : m.queue s ≠ []) (hf : m.first s = true) : m.shown s = [] := by
  simp [shown, h, hf]

theorem shown_next {s : σ} (hf : m.queue s ≠ [] → m.first s = false) :
    m.shown s = (m.offered s).toList.map .item ++ m.pulses s := by
  by_cases h : m.queue s = []
  · exact shown_empty h
  · simp [shown, hf h]

theorem raised_empty {s : σ} (h : m.queue s = []) (i : ι) :
    m.raised s i = m.pulses (m.step s i) := by
  rw [raised, h, List.map_nil, ite_self, List.nil_append]

theorem raised_waiting {i : ι} (h : m.ready i = false) (s : σ) :
    m.raised s i = m.pulses (m.step s i) := by
  rw [raised, h]
  rfl

theorem raised_item {s : σ} {i : ι} {b : β} (hr : m.ready i = true) (hq : m.queue s = [b]) :
    m.raised s i = .item b :: m.pulses (m.step s i) := by
  rw [raised, hr, hq]
  rfl

/-- Next to an empty queue the sink must take what is offered. -/
theorem idle_crossed (hl : m.Loads Inv) (hn : m.Indicates Inv) {s : σ} {i : ι} (hi : Inv s)
    (hi' : Inv (m.step s i)) (hq : m.queue s = []) (hk : m.KeepsUp s i) :
    m.crossed s i ++ m.shown (m.step s i) = m.shown s ++ m.raised s i := by
  obtain ⟨hoff, hqueue, hfirst⟩ := hl.idle i hi hq
  have htaken : m.transferred s i = (m.offered s).toList := by
    rw [Source.KeepsUp, hq] at hk
    rw [Source.transferred]
    cases hr : m.ready i with
    | true => rfl
    | false =>
      cases ho : m.offered s with
      | none => rfl
      | some b => simp [hr] at hk; exact absurd ho (hk b)
  have hshown : m.shown (m.step s i) = m.pulses (m.step s i) := by
    by_cases hne : m.refill s i = []
    · rw [shown_empty (hqueue.trans hne), hoff]
      rfl
    · have hne' : m.queue (m.step s i) ≠ [] := by rwa [hqueue]
      rw [shown_first hne' (hfirst hne), hn.quiet hi' hne']
  rw [crossed, shown_empty hq, raised, hq, htaken, hshown]
  simp

/-- A loaded item is shown at the next edge, or it is the one that is shown. -/
theorem load_crossed (hl : m.Loads Inv) (hn : m.Indicates Inv) {s : σ} {i : ι} (hi : Inv s)
    (hi' : Inv (m.step s i)) (hs : m.Settled s) {b : β} {q : List β} (hq : m.queue s = b :: q)
    (hk : m.KeepsUp s i) :
    m.crossed s i ++ m.shown (m.step s i) = m.shown s ++ m.raised s i := by
  cases hn.single hi hq
  have hne : m.queue s ≠ [] := by
    rw [hq]
    exact List.cons_ne_nil b []
  rw [crossed, hn.quiet hi hne, raised, hq]
  rw [Source.KeepsUp, hq] at hk
  cases hr : m.ready i with
  | true =>
    obtain ⟨hoff, hqueue, hfirst⟩ := hl.go hi hq hr
    have hshown : m.shown s = (m.offered s).toList.map .item := by
      cases hf : m.first s with
      | false => rw [shown_next fun _ => hf, hn.quiet hi hne, List.append_nil]
      | true =>
        cases ho : m.offered s with
        | none => exact shown_first hne hf
        | some a => simp [hr, hf, ho] at hk
    rw [shown_next (by rwa [hqueue]), hoff, hshown, Source.transferred, hr]
    simp
  | false =>
    obtain ⟨hoff, hqueue, hfirst, -⟩ := hl.wait hi hq hr
    have hne' : m.queue (m.step s i) ≠ [] := by
      rw [hqueue]
      exact List.cons_ne_nil b []
    have hquiet := hn.quiet hi' hne'
    rw [Source.transferred, hr, hquiet]
    cases hf : m.first s with
    | true => simp [shown_first hne hf, shown_first hne' (hfirst.trans hf)]
    | false =>
      have hfull := hs b [] hq
      rw [hf, if_neg Bool.false_ne_true] at hfull
      obtain ⟨a, ha⟩ := Option.isSome_iff_exists.1 hfull
      have hhead := hk a ha
      rw [hr] at hhead
      cases hhead
      rw [shown_next fun _ => hf, shown_next fun _ => hfirst.trans hf, hn.quiet hi hne, hquiet,
        hoff, ha]
      simp

/-- While the sink keeps up it sees what was raised, in order. -/
theorem edge_crossed (hl : m.Loads Inv) (hn : m.Indicates Inv) {s : σ} {i : ι} (hi : Inv s)
    (hi' : Inv (m.step s i)) (hs : m.Settled s) (hk : m.KeepsUp s i) :
    m.crossed s i ++ m.shown (m.step s i) = m.shown s ++ m.raised s i := by
  cases hq : m.queue s with
  | nil => exact idle_crossed hl hn hi hi' hq hk
  | cons b q => exact load_crossed hl hn hi hi' hs hq hk

end Serializer

/-- A serializer with the words it took, the signals it raised and those the sink saw. -/
structure History (σ ω β : Type*) where
  state : σ
  words : List ω
  raised : List (Signal β)
  seen : List (Signal β)

namespace History
variable (m : Serializer σ ι ω β)

def start (s : σ) : History σ ω β := ⟨s, [], [], []⟩

def edge (h : History σ ω β) (i : ι) : History σ ω β where
  state := m.step h.state i
  words := h.words ++ (m.taken h.state i).toList
  raised := h.raised ++ m.raised h.state i
  seen := h.seen ++ m.crossed h.state i

theorem exec_state (h : History σ ω β) (is : List ι) :
    (exec (edge m) h is).state = exec m.step h.state is := by
  induction is generalizing h with
  | nil => rfl
  | cons i is ih => exact ih (h.edge m i)

/-- The sink keeps up with the serializer at the edge. -/
def KeepsUp (h : History σ ω β) (i : ι) : Prop := m.KeepsUp h.state i

instance [DecidableEq β] (h : History σ ω β) (i : ι) : Decidable (h.KeepsUp m i) :=
  inferInstanceAs (Decidable (m.KeepsUp h.state i))

/-- What was raised and what is owed are what the words mean. -/
structure Serving (r : Reader α ω (Signal β)) (abs : σ → α) (owed : σ → List (Signal β)) (a : α)
    (h : History σ ω β) : Prop where
  raised : h.raised ++ owed h.state = r.outputs a h.words
  state : abs h.state = r.after a h.words

variable {m} {Inv : σ → Prop} {r : Reader α ω (Signal β)} {abs : σ → α}
  {owed : σ → List (Signal β)} {a : α}

theorem serving_edge (hv : m.Serves r abs owed Inv) {h : History σ ω β} (i : ι)
    (hi : Inv h.state) (hs : h.Serving r abs owed a) : (h.edge m i).Serving r abs owed a := by
  cases ht : m.taken h.state i with
  | none =>
    obtain ⟨hraised, habs⟩ := hv.stay hi ht
    constructor
    · simp only [edge, ht, Option.toList_none, List.append_nil]
      rw [← hs.raised, List.append_assoc, hraised]
    · simp only [edge, ht, Option.toList_none, List.append_nil]
      exact habs.trans hs.state
  | some w =>
    obtain ⟨hraised, habs⟩ := hv.take hi ht
    constructor
    · simp only [edge, ht, Option.toList_some]
      rw [r.outputs_append, ← hs.raised, List.append_assoc, hraised, ← List.append_assoc,
        ← hs.state, Reader.outputs, Reader.outputs, List.append_nil]
    · simp only [edge, ht, Option.toList_some]
      rw [r.after_append, ← hs.state, habs]
      rfl

/-- Every run serves its words, whatever the sink does. -/
theorem run_serving (hv : m.Serves r abs owed Inv) (hinv : ∀ s i, Inv s → Inv (m.step s i))
    {s : σ} (hi : Inv s) (ha : abs s = a) (ho : owed s = []) (is : List ι) :
    Inv (exec (edge m) (start s) is).state ∧ (exec (edge m) (start s) is).Serving r abs owed a := by
  have h := exec_invariant (fun h : History σ ω β => Inv h.state ∧ h.Serving r abs owed a)
    (P := fun _ _ => True) ?_ ?_ (along_true (edge m) (start s) is)
  · exact h
  · intro h i hh _
    exact ⟨hinv _ i hh.1, serving_edge hv i hh.1 hh.2⟩
  · exact ⟨hi, ho, ha⟩

/-- In a run whose sink keeps up, the sink sees what was raised. -/
theorem run_seen (hl : m.Loads Inv) (hn : m.Indicates Inv)
    (hinv : ∀ s i, Inv s → Inv (m.step s i)) {s : σ} (hi : Inv s) (hq : m.queue s = [])
    (hsh : m.shown s = []) {is : List ι} (ha : Along (edge m) (KeepsUp m) (start s) is) :
    (exec (edge m) (start s) is).seen ++ m.shown (exec (edge m) (start s) is).state =
      (exec (edge m) (start s) is).raised := by
  have h := exec_invariant (fun h : History σ ω β =>
    Inv h.state ∧ m.Settled h.state ∧ h.seen ++ m.shown h.state = h.raised) ?_ ?_ ha
  · exact h.2.2
  · rintro h i ⟨hi, hs, hh⟩ hk
    have hi' := hinv _ i hi
    refine ⟨hi', Source.step_settled hl i hi, ?_⟩
    change h.seen ++ m.crossed h.state i ++ m.shown (m.step h.state i) = h.raised ++ _
    rw [List.append_assoc, Serializer.edge_crossed hl hn hi hi' hs hk, ← List.append_assoc, hh]
  · exact ⟨hi, Source.settled_empty hq, hsh⟩

/-- What the sink sees of a serializer whose words are the beginning of `script`'s words: the
beginning of the script, and all of it once everything is taken, raised and shown. -/
structure Delivered (m : Serializer σ ι ω β) (owed : σ → List (Signal β)) (all : List ω)
    (script : List (Signal β)) (h : History σ ω β) : Prop where
  seen : h.seen <+: script
  complete : h.words = all → owed h.state = [] → m.shown h.state = [] → h.seen = script

theorem delivered_of {h : History σ ω β} (hs : h.Serving r abs owed a)
    (hseen : h.seen ++ m.shown h.state = h.raised) {all : List ω} {script : List (Signal β)}
    (hall : r.outputs a all = script) (hw : h.words <+: all) : h.Delivered m owed all script := by
  have hraised := hs.raised
  constructor
  · have hseen' : h.seen <+: h.raised := by
      rw [← hseen]
      exact List.prefix_append _ _
    have hraised' : h.raised <+: r.outputs a h.words := by
      rw [← hraised]
      exact List.prefix_append _ _
    have hscript : r.outputs a h.words <+: script := by
      rw [← hall]
      exact r.outputs_mono a hw
    exact (hseen'.trans hraised').trans hscript
  · intro hwords howed hshown
    rw [howed, List.append_nil] at hraised
    rw [hshown, List.append_nil] at hseen
    rw [hseen, hraised, hwords, hall]

end History

/-! Readers that go through phases of fixed length, whatever they are given, without putting anything
out. -/

namespace Reader
variable {r : Reader α ω ε} {P Q R : α → Prop} {m n : Nat}

/-- Any `n` words lead from `P` to `Q`, and none of them puts anything out. -/
def Silent (r : Reader α ω ε) (P : α → Prop) (n : Nat) (Q : α → Prop) : Prop :=
  ∀ a, P a → ∀ ws : List ω, ws.length = n → r.outputs a ws = [] ∧ Q (r.after a ws)

theorem silent_one (h : ∀ a w, P a → r.out a w = [] ∧ Q (r.next a w)) : r.Silent P 1 Q := by
  intro a ha ws hlen
  obtain ⟨w, rfl⟩ := List.length_eq_one_iff.1 hlen
  obtain ⟨hout, hnext⟩ := h a w ha
  exact ⟨by rw [outputs, hout, outputs]; rfl, hnext⟩

theorem Silent.trans (h : r.Silent P m Q) (h' : r.Silent Q n R) : r.Silent P (m + n) R := by
  intro a ha ws hlen
  have htake : (ws.take m).length = m := by
    rw [List.length_take]
    omega
  have hdrop : (ws.drop m).length = n := by
    rw [List.length_drop]
    omega
  obtain ⟨hout, hmid⟩ := h a ha _ htake
  obtain ⟨hout', hend⟩ := h' _ hmid _ hdrop
  rw [← List.take_append_drop m ws, outputs_append, after_append, hout, hout']
  exact ⟨rfl, hend⟩

/-- `n` rounds of `m` words each. -/
theorem Silent.rounds {P : Nat → α → Prop} (h : ∀ k < n, r.Silent (P k) m (P (k + 1))) :
    r.Silent (P 0) (n * m) (P n) := by
  induction n with
  | zero =>
    intro a ha ws hlen
    rw [Nat.zero_mul] at hlen
    cases List.eq_nil_of_length_eq_zero hlen
    exact ⟨rfl, ha⟩
  | succ n ih =>
    rw [Nat.succ_mul]
    exact (ih fun k hk => h k (by omega)).trans (h n (by omega))

/-- Fewer words put nothing out either. -/
theorem Silent.short [Inhabited ω] (h : r.Silent P n Q) {a : α} (ha : P a) {ws : List ω}
    (hlen : ws.length ≤ n) : r.outputs a ws = [] := by
  have hpad := (h a ha (ws ++ List.replicate (n - ws.length) default) (by simp; omega)).1
  have hpre := r.outputs_mono a (List.prefix_append ws (List.replicate (n - ws.length) default))
  rw [hpad] at hpre
  exact List.prefix_nil.1 hpre

/-- What stays silent for one word stays silent. -/
theorem silent_forever {W : ω → Prop} (h : ∀ a w, P a → W w → r.out a w = [] ∧ P (r.next a w))
    {a : α} (ha : P a) {ws : List ω} (hws : ∀ w ∈ ws, W w) :
    r.outputs a ws = [] ∧ P (r.after a ws) := by
  induction ws generalizing a with
  | nil => exact ⟨rfl, ha⟩
  | cons w ws ih =>
    obtain ⟨hout, hnext⟩ := h a w ha (hws w List.mem_cons_self)
    obtain ⟨hrest, hend⟩ := ih hnext fun v hv => hws v (List.mem_cons_of_mem w hv)
    exact ⟨by rw [outputs, hout, hrest]; rfl, hend⟩

end Reader
end TetraBs.Serial
