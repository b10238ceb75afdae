import Mathlib.Data.List.Basic
import Mathlib.Order.Nat

/-! A sender of bursts of equal length: it sends one burst, symbol by symbol, while another one
may wait. Nothing here is about TETRA. -/
namespace TetraBs.BurstSender
variable {α β : Type*}

/-- The burst that is being sent, with the number of its symbols that have been sent, and the burst
that waits. -/
structure Sender (β : Type*) where
  current : Option (β × Nat)
  next : Option β

namespace Sender
variable (last : Nat) (sym : β → Nat → α)

def rest : Sender β := ⟨none, none⟩

/-- A symbol goes by; `last` is the number of a burst's last symbol. -/
def tick (s : Sender β) : Sender β :=
  match s.current with
  | some (x, k) => if k < last then ⟨some (x, k + 1), s.next⟩ else ⟨s.next.map (·, 0), none⟩
  | none => ⟨s.next.map (·, 0), none⟩

/-- What goes out with it. -/
def out (s : Sender β) : Option α := s.current.map fun p => sym p.1 p.2

def ask (s : Sender β) (x : β) : Sender β := { s with next := some x }

variable {last}

theorem tick_more {x : β} {k : Nat} (h : k < last) (next : Option β) :
    (⟨some (x, k), next⟩ : Sender β).tick last = ⟨some (x, k + 1), next⟩ := if_pos h

theorem tick_last (x : β) (next : Option β) :
    (⟨some (x, last), next⟩ : Sender β).tick last = ⟨next.map (·, 0), none⟩ :=
  if_neg (Nat.lt_irrefl last)

end Sender

variable (last : Nat) (sym : β → Nat → α)

/-- Symbol `t` belongs to a burst of `bs`: a burst is sent from the second symbol on after it was
asked for. -/
def Owns (bs : List (Nat × β)) (t : Nat) (d : α) : Prop :=
  ∃ p ∈ bs, ∃ k ≤ last, t = p.1 + 1 + k ∧ d = sym p.2 k

/-- The bursts `bs`, each with the number of symbols before it was asked for, are what is sent: each
whole, in order, and nothing else. -/
structure Transmits (bs : List (Nat × β)) (sent : List (Option α)) : Prop where
  apart : bs.Pairwise fun p q => p.1 + last + 1 ≤ q.1
  exact : ∀ t d, sent[t]? = some (some d) ↔ t < sent.length ∧ Owns last sym bs t d

/-- Where the sender is after `t` symbols. -/
inductive Position : List (Nat × β) → Nat → Sender β → Prop
  | silent {bs : List (Nat × β)} {t : Nat} (h : ∀ p ∈ bs, p.1 + last + 1 < t) :
    Position bs t ⟨none, none⟩
  | sending (bs : List (Nat × β)) (n : Nat) (x : β) {k : Nat} (hk : k ≤ last) :
    Position (bs ++ [(n, x)]) (n + 1 + k) ⟨some (x, k), none⟩
  | cold (bs : List (Nat × β)) (n : Nat) (x : β) (h : ∀ p ∈ bs, p.1 + last + 1 < n) :
    Position (bs ++ [(n, x)]) n ⟨none, some x⟩
  | chained (bs : List (Nat × β)) (n : Nat) (x y : β) :
    Position (bs ++ [(n, y)] ++ [(n + last + 1, x)]) (n + last + 1) ⟨some (y, last), some x⟩

variable {last : Nat} {sym : β → Nat → α} {bs : List (Nat × β)} {sent : List (Option α)}
  {s : Sender β} {t : Nat}

theorem transmits_nil : Transmits last sym [] [] := ⟨List.Pairwise.nil, by simp [Owns]⟩

theorem owns_append {bs' : List (Nat × β)} {d : α} : Owns last sym (bs ++ bs') t d ↔
    Owns last sym bs t d ∨ Owns last sym bs' t d := by
  simp only [Owns, List.mem_append, or_and_right, exists_or]

theorem owns_singleton {n : Nat} {x : β} {d : α} : Owns last sym [(n, x)] t d ↔
    ∃ k ≤ last, t = n + 1 + k ∧ d = sym x k := by
  simp [Owns]

theorem not_owns (h : ∀ p ∈ bs, p.1 + last + 1 < t) {d : α} : ¬ Owns last sym bs t d := by
  rintro ⟨p, hp, k, hk, ht, -⟩
  have hlt := h p hp
  omega

/-- Nothing that is asked for after `t` symbols is sent with them. -/
theorem not_owns_singleton {n : Nat} {x : β} (h : t ≤ n) {d : α} :
    ¬ Owns last sym [(n, x)] t d := by
  rw [owns_singleton]
  rintro ⟨k, hk, ht, -⟩
  omega

theorem before_of_apart {n : Nat} {x : β}
    (h : (bs ++ [(n, x)]).Pairwise fun p q => p.1 + last + 1 ≤ q.1) :
    ∀ p ∈ bs, p.1 + last + 1 ≤ n :=
  fun p hp => (List.pairwise_append.1 h).2.2 p hp (n, x) (List.mem_singleton_self _)

/-- A burst that is asked for when the one before it has at most one symbol left. -/
theorem Transmits.ask (h : Transmits last sym bs sent)
    (ht : ∀ p ∈ bs, p.1 + last + 1 ≤ sent.length) (x : β) :
    Transmits last sym (bs ++ [(sent.length, x)]) sent := by
  constructor
  · rw [List.pairwise_append]
    refine ⟨h.apart, List.pairwise_singleton _ _, fun p hp q hq => ?_⟩
    rw [List.mem_singleton] at hq
    subst hq
    exact ht p hp
  · intro t d
    rw [h.exact, owns_append]
    refine and_congr_right fun hlt => ?_
    rw [or_iff_left (not_owns_singleton hlt.le)]

theorem Transmits.put (h : Transmits last sym bs sent) {e : Option α}
    (he : ∀ d, e = some d ↔ Owns last sym bs sent.length d) :
    Transmits last sym bs (sent ++ [e]) := by
  refine ⟨h.apart, fun t d => ?_⟩
  rw [List.length_append, List.length_singleton]
  rcases Nat.lt_trichotomy t sent.length with hlt | heq | hgt
  · rw [List.getElem?_append_left hlt, h.exact, and_iff_right hlt,
      and_iff_right (Nat.lt_succ_of_lt hlt)]
  · rw [heq, List.getElem?_concat_length, Option.some_inj, he,
      and_iff_right (Nat.lt_succ_self _)]
  · have hnone : (sent ++ [e])[t]? = none := by
      rw [List.getElem?_eq_none_iff, List.length_append, List.length_singleton]
      exact hgt
    rw [hnone]
    constructor
    · intro hno
      cases hno
    · rintro ⟨hlt, -⟩
      omega

/-- Lists of one length, one after another. -/
theorem getElem?_blocks {f : β → List α} {c : Nat} (hf : ∀ x, (f x).length = c) (xs : List β)
    (i : Nat) {k : Nat} (hk : k < c) :
    (xs.flatMap f)[c * i + k]? = xs[i]?.bind fun x => (f x)[k]? := by
  induction xs generalizing i with
  | nil => rfl
  | cons x xs ih =>
    rw [List.flatMap_cons]
    cases i with
    | zero =>
      rw [Nat.mul_zero, Nat.zero_add, List.getElem?_append_left (by rw [hf]; exact hk)]
      rfl
    | succ i =>
      have hge : c ≤ c * (i + 1) + k := by
        rw [Nat.mul_succ]
        omega
      have hrest : c * (i + 1) + k - c = c * i + k := by
        rw [Nat.mul_succ]
        omega
      rw [List.getElem?_append_right (by rw [hf]; exact hge), hf, hrest, ih]
      rfl

/-- All symbols of a burst. -/
def symbols (last : Nat) (sym : β → Nat → α) (x : β) : List α :=
  (List.range (last + 1)).map (sym x)

/-- Bursts that are asked for one burst length apart follow each other without a gap. -/
theorem Transmits.seamless (h : Transmits last sym bs sent)
    (hstarts : ∀ i p, bs[i]? = some p → p.1 = (last + 1) * (i + 1))
    (hlen : sent.length ≤ (last + 1) * (bs.length + 1)) :
    sent <+: List.replicate (last + 2) none ++
      (bs.flatMap fun p => symbols last sym p.2).map some := by
  rw [List.prefix_iff_getElem?]
  intro t ht
  by_cases hsilent : t < last + 2
  · rw [List.getElem?_append_left (by rwa [List.length_replicate]), List.getElem?_replicate,
      if_pos hsilent]
    cases hout : sent[t] with
    | none => rfl
    | some d =>
      have hsome : sent[t]? = some (some d) := by rw [List.getElem?_eq_getElem ht, hout]
      obtain ⟨-, p, hp, k, -, heq, -⟩ := (h.exact t d).1 hsome
      obtain ⟨i, hi⟩ := List.getElem?_of_mem hp
      have hstart := hstarts i p hi
      rw [Nat.mul_succ] at hstart
      omega
  · have hpos : 0 < last + 1 := Nat.succ_pos last
    have hdiv := Nat.div_add_mod (t - (last + 2)) (last + 1)
    have hmod := Nat.mod_lt (t - (last + 2)) hpos
    have hi : (t - (last + 2)) / (last + 1) < bs.length := by
      rw [Nat.div_lt_iff_lt_mul hpos, Nat.mul_comm]
      rw [Nat.mul_succ] at hlen
      omega
    generalize (t - (last + 2)) / (last + 1) = i at hdiv hi
    generalize (t - (last + 2)) % (last + 1) = k at hdiv hmod
    have hstart := hstarts i bs[i] (List.getElem?_eq_getElem hi)
    have hown : Owns last sym bs t (sym bs[i].2 k) := by
      refine ⟨bs[i], List.getElem_mem hi, k, Nat.le_of_lt_succ hmod, ?_, rfl⟩
      rw [hstart, Nat.mul_succ]
      omega
    rw [List.getElem?_append_right (by rw [List.length_replicate]; omega),
      List.length_replicate, ← hdiv, List.getElem?_map,
      getElem?_blocks (fun p => by simp [symbols]) bs i hmod, List.getElem?_eq_getElem hi,
      ← List.getElem?_eq_getElem ht, (h.exact t _).2 ⟨ht, hown⟩]
    simp [symbols, hmod]

/-- What goes out next is what belongs there. -/
theorem Position.owns (h : Position last bs t s)
    (hapart : bs.Pairwise fun p q => p.1 + last + 1 ≤ q.1) (d : α) :
    s.out sym = some d ↔ Owns last sym bs t d := by
  cases h with
  | silent h => simp [Sender.out, not_owns h]
  | @sending bs n x k hk =>
    have hbefore : ∀ p ∈ bs, p.1 + last + 1 < n + 1 + k := fun p hp => by
      have hle := before_of_apart hapart p hp
      omega
    rw [owns_append, or_iff_right (not_owns hbefore), owns_singleton]
    constructor
    · rintro ⟨⟩
      exact ⟨_, hk, rfl, rfl⟩
    · rintro ⟨j, -, heq, rfl⟩
      rw [Nat.add_left_cancel heq]
      rfl
  | cold bs n x h =>
    rw [owns_append, or_iff_right (not_owns h)]
    simp [Sender.out, not_owns_singleton]
  | chained bs n x y =>
    have hbefore : ∀ p ∈ bs, p.1 + last + 1 < n + last + 1 := fun p hp => by
      have hle := before_of_apart (List.pairwise_append.1 hapart).1 p hp
      omega
    rw [owns_append, or_iff_left (not_owns_singleton (Nat.le_refl _)), owns_append,
      or_iff_right (not_owns hbefore), owns_singleton]
    constructor
    · rintro ⟨⟩
      exact ⟨last, Nat.le_refl _, by omega, rfl⟩
    · rintro ⟨j, -, heq, rfl⟩
      rw [(by omega : j = last)]
      rfl

theorem Position.tick (h : Position last bs t s)
    (hapart : bs.Pairwise fun p q => p.1 + last + 1 ≤ q.1) :
    Position last bs (t + 1) (s.tick last) := by
  cases h with
  | silent h => exact .silent fun p hp => Nat.lt_succ_of_lt (h p hp)
  | @sending bs n x k hk =>
    by_cases hlt : k < last
    · rw [Sender.tick_more hlt]
      exact .sending bs n x hlt
    · obtain rfl : k = last := by omega
      rw [Sender.tick_last]
      refine .silent fun p hp => ?_
      rw [List.mem_append, List.mem_singleton] at hp
      rcases hp with hp | rfl
      · have hle := before_of_apart hapart p hp
        omega
      · simp only
        omega
  | cold bs _ x h => exact .sending bs t x (Nat.zero_le last)
  | chained bs n x y =>
    rw [Sender.tick_last]
    exact .sending (bs ++ [(n, y)]) (n + last + 1) x (Nat.zero_le last)

/-- Nothing waits once the last burst has at most one symbol left. -/
theorem Position.next_none (h : Position last bs t s) (ht : ∀ p ∈ bs, p.1 + last + 1 ≤ t) :
    s.next = none := by
  cases h with
  | silent h => rfl
  | sending bs n y hk => rfl
  | cold bs _ y h =>
    have hle := ht (t, y) (List.mem_append_right _ (List.mem_singleton_self _))
    simp only at hle
    omega
  | chained bs n y z =>
    have hle := ht (n + last + 1, y) (List.mem_append_right _ (List.mem_singleton_self _))
    simp only at hle
    omega

theorem Position.ask (h : Position last bs t s) (ht : ∀ p ∈ bs, p.1 + last + 1 ≤ t) (x : β) :
    Position last (bs ++ [(t, x)]) t (s.ask x) := by
  cases h with
  | silent h => exact .cold bs t x h
  | @sending bs n y k hk =>
    have hle := ht (n, y) (List.mem_append_right _ (List.mem_singleton_self _))
    simp only at hle
    obtain rfl : k = last := by omega
    rw [(by omega : n + 1 + k = n + k + 1)]
    exact .chained bs n x y
  | cold bs _ y h' => exact absurd ((Position.cold bs t y h').next_none ht) (by simp)
  | chained bs n y z => exact absurd ((Position.chained bs n y z).next_none ht) (by simp)

end TetraBs.BurstSender
