import Mathlib.Data.List.Pairwise
import Mathlib.Logic.Relation

/-! The alternating-bit protocol in one direction over two FIFO channels that lose frames and
repeat the head any number of times. Nothing here is about TETRA. -/
namespace TetraBs.AlternatingBit
open Relation
variable {β : Type*}

/-- `nextBit` is the bit of the next frame to send, `expected` the one the receiver takes next;
`data` and `acks` are the frames in flight, oldest first. -/
structure Stream (β : Type*) where
  nextBit : Bool
  awaiting : Bool
  expected : Bool
  data : List (Bool × β)
  acks : List Bool
  sent : List β
  delivered : List β

/-- What sender, receiver and channels can do. Delivery leaves the head where it is: it may be
delivered again until it is lost. -/
inductive Step : Stream β → Stream β → Prop
  | send (s : Stream β) (b : β) (idle : s.awaiting = false) :
      Step s { s with nextBit := !s.nextBit, awaiting := true,
                      data := s.data ++ [(s.nextBit, b)], sent := s.sent ++ [b] }
  | accept (s : Stream β) (b : β) (rest : List (Bool × β))
      (head : s.data = (s.expected, b) :: rest) :
      Step s { s with expected := !s.expected, delivered := s.delivered ++ [b] }
  | acknowledge (s : Stream β) : Step s { s with acks := s.acks ++ [s.expected] }
  | release (s : Stream β) (rest : List Bool) (head : s.acks = s.nextBit :: rest) :
      Step s { s with awaiting := false }
  | loseData (s : Stream β) (data : List (Bool × β)) (sub : data.Sublist s.data) :
      Step s { s with data := data }
  | loseAcks (s : Stream β) (acks : List Bool) (sub : acks.Sublist s.acks) :
      Step s { s with acks := acks }

/-- Followed from the acknowledgements through the receiver to the frames in flight, the bit
changes at most once, and not at all while nothing is awaited; the receiver lacks at most the
last body, and every frame it would take carries that body. -/
structure Inv (s : Stream β) : Prop where
  acks_sorted : s.acks.Pairwise fun x y => x = s.nextBit → y = s.nextBit
  acked : ∀ x ∈ s.acks, x = s.nextBit → s.expected = s.nextBit
  taken : s.expected = s.nextBit → ∀ f ∈ s.data, f.1 ≠ s.nextBit
  data_sorted : s.data.Pairwise fun f g => f.1 ≠ s.nextBit → g.1 ≠ s.nextBit
  idle : s.awaiting = false → s.expected = s.nextBit ∧ ∀ x ∈ s.acks, x = s.nextBit
  complete : s.expected = s.nextBit → s.delivered = s.sent
  one_short : s.expected ≠ s.nextBit → ∃ b, s.sent = s.delivered ++ [b] ∧
    ∀ f ∈ s.data, f.1 ≠ s.nextBit → f.2 = b

theorem inv_send {s : Stream β} (h : Inv s) (b : β) (hidle : s.awaiting = false) :
    Inv { s with nextBit := !s.nextBit, awaiting := true,
                 data := s.data ++ [(s.nextBit, b)], sent := s.sent ++ [b] } := by
  obtain ⟨hexp, hacks⟩ := h.idle hidle
  have hdata := h.taken hexp
  -- with nothing awaited every bit on the way is the old one
  have hold : ∀ f ∈ s.data, ¬f.1 ≠ !s.nextBit := by
    intro f hf hne
    exact hne (Bool.eq_not_of_ne (hdata f hf))
  constructor
  · apply List.pairwise_of_forall_mem_list
    intro x hx _ _ heq
    rw [hacks x hx] at heq
    simp at heq
  · intro x hx heq
    rw [hacks x hx] at heq
    simp at heq
  · intro heq
    rw [hexp] at heq
    simp at heq
  · apply List.pairwise_append.2
    refine ⟨?_, List.pairwise_singleton _ _, fun f hf g _ hne => absurd hne (hold f hf)⟩
    apply List.pairwise_of_forall_mem_list
    exact fun f hf _ _ hne => absurd hne (hold f hf)
  · intro hf
    cases hf
  · intro heq
    rw [hexp] at heq
    simp at heq
  · intro _
    refine ⟨b, by rw [h.complete hexp], fun f hf hne => ?_⟩
    obtain hf | hf := List.mem_append.1 hf
    · exact absurd hne (hold f hf)
    · rw [List.mem_singleton.1 hf]

/-- The frame at the head is the one body the receiver lacks. -/
theorem inv_accept {s : Stream β} (h : Inv s) {b : β} {rest : List (Bool × β)}
    (head : s.data = (s.expected, b) :: rest) :
    Inv { s with expected := !s.expected, delivered := s.delivered ++ [b] } := by
  have hmem : (s.expected, b) ∈ s.data := by
    rw [head]
    exact List.mem_cons_self
  have hne : s.expected ≠ s.nextBit := fun heq => h.taken heq _ hmem heq
  have heq : (!s.expected) = s.nextBit := by
    rw [Bool.eq_not_of_ne hne, Bool.not_not]
  obtain ⟨b', hsent, hb⟩ := h.one_short hne
  have hrest : ∀ f ∈ s.data, f.1 ≠ s.nextBit := by
    have hsorted := h.data_sorted
    rw [head] at hsorted ⊢
    intro f hf
    obtain rfl | hf := List.mem_cons.1 hf
    · exact hne
    · exact (List.pairwise_cons.1 hsorted).1 f hf hne
  constructor
  · exact h.acks_sorted
  · exact fun _ _ _ => heq
  · exact fun _ => hrest
  · exact h.data_sorted
  · exact fun hi => absurd (h.idle hi).1 hne
  · intro _
    have hbody : b = b' := hb _ hmem hne
    rw [hsent, hbody]
  · exact fun hne' => absurd heq hne'

theorem inv_acknowledge {s : Stream β} (h : Inv s) : Inv { s with acks := s.acks ++ [s.expected] } := by
  constructor
  · apply List.pairwise_append.2
    refine ⟨h.acks_sorted, List.pairwise_singleton _ _, fun x hx y hy heq => ?_⟩
    rw [List.mem_singleton.1 hy]
    exact h.acked x hx heq
  · intro x hx heq
    obtain hx | hx := List.mem_append.1 hx
    · exact h.acked x hx heq
    · rwa [← List.mem_singleton.1 hx]
  · exact h.taken
  · exact h.data_sorted
  · intro hi
    obtain ⟨hexp, hacks⟩ := h.idle hi
    refine ⟨hexp, fun x hx => ?_⟩
    obtain hx | hx := List.mem_append.1 hx
    · exact hacks x hx
    · rwa [List.mem_singleton.1 hx]
  · exact h.complete
  · exact h.one_short

theorem inv_release {s : Stream β} (h : Inv s) {rest : List Bool}
    (head : s.acks = s.nextBit :: rest) : Inv { s with awaiting := false } := by
  refine ⟨h.acks_sorted, h.acked, h.taken, h.data_sorted, fun _ => ?_, h.complete, h.one_short⟩
  have hsorted := h.acks_sorted
  constructor
  · apply h.acked s.nextBit _ rfl
    rw [head]
    exact List.mem_cons_self
  · simp only
    rw [head] at hsorted ⊢
    intro x hx
    obtain rfl | hx := List.mem_cons.1 hx
    · rfl
    · exact (List.pairwise_cons.1 hsorted).1 x hx rfl

theorem inv_lose {s : Stream β} (h : Inv s) {data : List (Bool × β)} {acks : List Bool}
    (hd : data.Sublist s.data) (ha : acks.Sublist s.acks) :
    Inv { s with data := data, acks := acks } := by
  constructor
  · exact h.acks_sorted.sublist ha
  · exact fun x hx => h.acked x (ha.subset hx)
  · exact fun heq f hf => h.taken heq f (hd.subset hf)
  · exact h.data_sorted.sublist hd
  · exact fun hi => ⟨(h.idle hi).1, fun x hx => (h.idle hi).2 x (ha.subset hx)⟩
  · exact h.complete
  · intro hne
    obtain ⟨b, hsent, hb⟩ := h.one_short hne
    exact ⟨b, hsent, fun f hf => hb f (hd.subset hf)⟩

theorem inv_step {s s' : Stream β} (h : Inv s) (hs : Step s s') : Inv s' := by
  cases hs with
  | send b idle => exact inv_send h b idle
  | accept b rest head => exact inv_accept h head
  | acknowledge => exact inv_acknowledge h
  | release rest head => exact inv_release h head
  | loseData data sub => exact inv_lose h sub (List.Sublist.refl _)
  | loseAcks acks sub => exact inv_lose h (List.Sublist.refl _) sub

theorem inv_steps {s s' : Stream β} (h : Inv s) (hs : ReflTransGen Step s s') : Inv s' := by
  induction hs with
  | refl => exact h
  | tail _ step ih => exact inv_step ih step

def Stream.empty : Stream β := ⟨false, false, false, [], [], [], []⟩

theorem inv_empty : Inv (Stream.empty : Stream β) := by
  constructor <;> simp [Stream.empty]

/-- Safety of the protocol: what is delivered is a prefix of what was sent. -/
theorem Inv.delivered_le {s : Stream β} (h : Inv s) : s.delivered <+: s.sent := by
  by_cases heq : s.expected = s.nextBit
  · exact ⟨[], by rw [List.append_nil, h.complete heq]⟩
  · obtain ⟨b, hsent, -⟩ := h.one_short heq
    exact ⟨[b], hsent.symm⟩

end TetraBs.AlternatingBit
