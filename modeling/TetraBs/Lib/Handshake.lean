import Mathlib.Data.List.Basic
import Mathlib.Order.Monotone.Basic

/-! Parts of a slave that serves one request at a time: a latch that takes a request and
acknowledges it a cycle later, an offer that stands until it is taken, and the order of answers
when some requests are passed on to another slave. Nothing here is about TETRA. -/
namespace TetraBs.Handshake
variable {α β : Type*}

def present (c : Bool) (x : β) : List β := if c then [x] else []

@[simp] theorem present_true (x : β) : present true x = [x] := rfl

@[simp] theorem present_false (x : β) : present false x = [] := rfl

theorem map_present (f : α → β) (c : Bool) (x : α) : (present c x).map f = present c (f x) := by
  cases c <;> rfl

theorem present_length_le (c : Bool) (x : β) : (present c x).length ≤ 1 := by
  cases c
  · exact Nat.zero_le 1
  · exact Nat.le_refl 1

theorem present_pos {c : Bool} {x : β} (h : 0 < (present c x).length) : c = true := by
  cases c
  · exact absurd h (Nat.lt_irrefl 0)
  · rfl

theorem append_present_length (xs : List β) (c : Bool) (x : β) :
    xs.length ≤ (xs ++ present c x).length := by
  rw [List.length_append]
  exact Nat.le_add_right _ _

/-! A request is latched as soon as it is valid; ready follows for one cycle. -/

structure Latch (β : Type*) where
  ready : Bool
  seen : Bool
  data : β

namespace Latch

def takes (l : Latch β) (allow valid : Bool) : Bool := allow && valid && !l.ready && !l.seen

/-- `clear` when the request has been dealt with. -/
def step (l : Latch β) (allow valid : Bool) (x : β) (clear : Bool) : Latch β where
  ready := l.takes allow valid
  seen := if clear then false else l.takes allow valid || l.seen
  data := if l.takes allow valid then x else l.data

/-- What the other side had valid, and did not get acknowledged, it still has. -/
def Holds (held : Option β) (valid : Bool) (x : β) : Prop := ∀ y ∈ held, valid = true ∧ x = y

theorem holds_none (valid : Bool) (x : β) : Holds none valid x := by
  intro y hy
  cases hy

instance [DecidableEq β] (held : Option β) (valid : Bool) (x : β) :
    Decidable (Holds held valid x) :=
  inferInstanceAs (Decidable (∀ y, y ∈ held → valid = true ∧ x = y))

/-- What is left valid after a cycle. -/
def heldAfter (l : Latch β) (valid : Bool) (x : β) : Option β :=
  if valid && !l.ready then some x else none

/-- Everything acknowledged has been dealt with, but for the request in the latch. -/
structure Tracks (l : Latch β) (held : Option β) (accepted done : List β) : Prop where
  seen : l.ready = true → l.seen = true
  held : l.ready = true → held = some l.data
  accepted : accepted ++ present l.ready l.data = done ++ present l.seen l.data

theorem Tracks.step {l : Latch β} {held : Option β} {accepted done : List β}
    (h : l.Tracks held accepted done) {allow valid clear : Bool} {x : β}
    (hx : Holds held valid x) (hclear : clear = true → l.seen = true) :
    (l.step allow valid x clear).Tracks (l.heldAfter valid x)
      (accepted ++ present (valid && l.ready) x) (done ++ present clear l.data) := by
  have hack : accepted ++ present (valid && l.ready) x = done ++ present l.seen l.data := by
    rw [← h.accepted]
    cases hr : l.ready with
    | false => rw [Bool.and_false]; rfl
    | true =>
      obtain ⟨hvalid, hdata⟩ := hx _ (h.held hr)
      rw [hvalid, hdata]
      rfl
  by_cases ht : l.takes allow valid = true
  · have hparts : ((allow = true ∧ valid = true) ∧ l.ready = false) ∧ l.seen = false := by
      simpa [takes] using ht
    obtain ⟨⟨⟨-, hvalid⟩, hready⟩, hseen⟩ := hparts
    have hno : clear = false := by
      cases clear
      · rfl
      · exact absurd (hclear rfl) (by rw [hseen]; decide)
    subst hno
    refine ⟨fun _ => ?_, fun _ => ?_, ?_⟩
    · simp [Latch.step, ht]
    · rw [Latch.heldAfter, hvalid, hready]
      simp [Latch.step, hvalid ▸ ht]
    · rw [hack, hseen]
      simp [Latch.step, ht]
  · have ht : l.takes allow valid = false := Bool.eq_false_iff.2 ht
    refine ⟨fun hr => ?_, fun hr => ?_, ?_⟩
    · exact absurd (ht.symm.trans hr) (by decide)
    · exact absurd (ht.symm.trans hr) (by decide)
    · rw [hack]
      cases clear with
      | false => simp [Latch.step, ht]
      | true => simp [Latch.step, ht, hclear rfl]

/-- Accepted is what has been dealt with and, once acknowledged, what the latch has. -/
theorem Tracks.accepted_eq {l : Latch β} {held : Option β} {accepted done : List β}
    (h : l.Tracks held accepted done) :
    accepted = done ++ present (l.seen && !l.ready) l.data := by
  have heq := h.accepted
  cases hr : l.ready with
  | true =>
    rw [hr, h.seen hr] at heq
    rw [List.append_cancel_right heq, Bool.not_true, Bool.and_false, present_false,
      List.append_nil]
  | false =>
    rw [hr, present_false, List.append_nil] at heq
    rw [heq, Bool.not_false, Bool.and_true]

theorem tracks_empty (x : β) : (⟨false, false, x⟩ : Latch β).Tracks none [] [] :=
  ⟨fun h => absurd h Bool.false_ne_true, fun h => absurd h Bool.false_ne_true, rfl⟩

end Latch

/-! An offer stands, and does not change, until the other side is ready. -/

/-- What has been offered is what was taken and what still stands. -/
def Offers (valid : Bool) (x : β) (taken offered : List β) : Prop :=
  taken ++ present valid x = offered

theorem Offers.step {valid valid' ready launch : Bool} {x y : β} {taken offered : List β}
    (h : Offers valid x taken offered) (hvalid : valid' = (launch || valid && !ready))
    (hfree : launch = true → valid = false)
    (hstay : launch = false → valid = true → ready = false → y = x) :
    Offers valid' y (taken ++ present (valid && ready) x) (offered ++ present launch y) := by
  subst hvalid
  rw [Offers] at h
  rw [Offers, ← h]
  cases launch with
  | true =>
    rw [hfree rfl]
    simp
  | false =>
    cases valid with
    | false => simp
    | true =>
      cases ready with
      | false => simp [hstay rfl rfl rfl]
      | true => simp

/-- The order of the two assignments does not matter while nothing is launched over an offer. -/
theorem clear_last {valid ready launch : Bool} (hfree : launch = true → valid = false) :
    (if valid && ready then false else launch || valid) = (launch || valid && !ready) := by
  cases launch with
  | true =>
    rw [hfree rfl]
    rfl
  | false => cases valid <;> cases ready <;> rfl

/-- An answer of one's own is assigned before the drop of an old one, a foreign one after it. -/
theorem raise_around {back own valid ready : Bool} (hfree : (back || own) = true → valid = false) :
    (if back then true else if valid && ready then false else if own then true else valid) =
      (back || own || valid && !ready) := by
  cases back with
  | true => rfl
  | false =>
    cases own with
    | true =>
      rw [hfree rfl]
      rfl
    | false => cases valid <;> cases ready <;> rfl

/-- No request is under way at the other slave while an answer stands. -/
theorem free_step {back own launch pending valid ready : Bool}
    (hown : own = true → launch = false ∧ pending = false)
    (hvalid : valid = true → launch = false ∧ pending = false)
    (h : (if back then true else if valid && ready then false else
      if own then true else valid) = true) :
    (if back then false else launch || pending) = false := by
  cases back with
  | true => rfl
  | false =>
    have hquiet : launch = false ∧ pending = false := by
      cases own with
      | true => exact hown rfl
      | false =>
        refine hvalid ?_
        cases valid with
        | true => rfl
        | false => cases h
    rw [hquiet.1, hquiet.2]
    rfl

/-- One channel of a request under way is open only while the request is. -/
theorem part_step {launch pending part ready : Bool} (hpart : part = true → pending = true)
    (h : (if part && ready then false else launch || part) = true) :
    (if false then false else launch || pending) = true := by
  split at h
  · cases h
  · exact Bool.or_eq_true_iff.2 ((Bool.or_eq_true_iff.1 h).imp_right hpart)

theorem part_taken {launch part ready : Bool} (hlaunch : launch = false)
    (h : part = true → ready = true) :
    (if part && ready then false else launch || part) = false := by
  subst hlaunch
  cases part with
  | false => rfl
  | true =>
    rw [h rfl]
    rfl

/-- When everything offered is taken by the end of the cycle, what still stands is taken now. -/
theorem Offers.ready {valid ready : Bool} {x : β} {taken offered : List β}
    (h : Offers valid x taken offered) {n : ℕ} (hn : offered.length = n + 1)
    (htaken : n < (taken ++ present (valid && ready) x).length) (hv : valid = true) :
    ready = true := by
  subst hv
  rw [← (show taken ++ [x] = offered from h), List.length_append] at hn
  cases ready with
  | true => rfl
  | false =>
    rw [Bool.and_false, present_false, List.append_nil] at htaken
    exact absurd (Nat.succ.inj hn) (Nat.ne_of_gt htaken)

/-! Answers in the order of the requests: some requests are answered by another slave. -/

section
variable (passed : α → Bool) (own : α → β)

def answers : List α → List β → List β
  | [], _ => []
  | a :: as, rs =>
    if passed a then
      match rs with
      | [] => []
      | r :: rs => r :: answers as rs
    else own a :: answers as rs

variable {passed own}

/-- Up to a request whose answer is missing, everything is answered. -/
theorem answers_append {as bs : List α} {rs qs : List β}
    (h : rs.length = (as.filter passed).length) :
    answers passed own (as ++ bs) (rs ++ qs) =
      answers passed own as rs ++ answers passed own bs qs := by
  induction as generalizing rs with
  | nil =>
    obtain rfl := List.eq_nil_of_length_eq_zero h
    rfl
  | cons a as ih =>
    by_cases hp : passed a = true
    · rw [List.filter_cons_of_pos hp] at h
      obtain _ | ⟨r, rs⟩ := rs
      · cases h
      · simp only [List.cons_append, answers, hp, if_true]
        rw [ih (Nat.succ.inj h)]
    · rw [List.filter_cons_of_neg hp] at h
      simp only [List.cons_append, answers, hp]
      rw [ih h]
      rfl

theorem answers_length {as : List α} {rs : List β} (h : rs.length = (as.filter passed).length) :
    (answers passed own as rs).length = as.length := by
  induction as generalizing rs with
  | nil => rfl
  | cons a as ih =>
    by_cases hp : passed a = true
    · rw [List.filter_cons_of_pos hp] at h
      obtain _ | ⟨r, rs⟩ := rs
      · cases h
      · simp only [answers, hp, if_true, List.length_cons]
        rw [ih (Nat.succ.inj h)]
    · rw [List.filter_cons_of_neg hp] at h
      simp only [answers, hp, List.length_cons]
      rw [← ih h]
      rfl

/-- The request in hand is answered here, or by the other slave, or not yet. -/
theorem answers_step {done : List α} {rs : List β} {cur : α} {r : β} {back own' : Bool}
    (h : rs.length = (done.filter passed).length) (hback : back = true → passed cur = true)
    (hown : own' = true → passed cur = false) :
    answers passed own (done ++ present (back || own') cur) (rs ++ present back r) =
      answers passed own done rs ++ present (back || own') (if back then r else own cur) := by
  rw [answers_append h]
  congr 1
  cases back with
  | true => simp [answers, hback rfl]
  | false =>
    cases own' with
    | true => simp [answers, hown rfl]
    | false => rfl

theorem answers_step_length {done : List α} {rs : List β} {cur : α} {r : β} {back own' : Bool}
    (h : rs.length = (done.filter passed).length) (hback : back = true → passed cur = true)
    (hown : own' = true → passed cur = false) :
    (rs ++ present back r).length =
      ((done ++ present (back || own') cur).filter passed).length := by
  rw [List.filter_append, List.length_append, List.length_append, h]
  cases back with
  | true => simp [hback rfl]
  | false =>
    cases own' with
    | true => simp [hown rfl]
    | false => rfl

/-- The requests passed on grow only when one is launched. -/
theorem filter_step {done : List α} {cur cur' : α} {pending back own' launch : Bool}
    (hback : back = true → pending = true) (hown : own' = true → passed cur = false)
    (hlaunch : launch = true → pending = false ∧ own' = false ∧ passed cur' = true)
    (hcur : pending = true → own' = false ∧ cur' = cur) :
    (done ++ present (back || own') cur ++
        present (if back then false else launch || pending) cur').filter passed =
      (done ++ present pending cur).filter passed ++ present launch cur' := by
  cases launch with
  | true =>
    obtain ⟨hp, ho, hc⟩ := hlaunch rfl
    have hb : back = false := Bool.eq_false_iff.2 fun hb => by
      rw [hback hb] at hp
      cases hp
    simp [hp, ho, hb, hc]
  | false =>
    cases pending with
    | true =>
      obtain ⟨ho, hc⟩ := hcur rfl
      cases back with
      | true => simp [ho]
      | false => simp [ho, hc]
    | false =>
      have hb : back = false := Bool.eq_false_iff.2 fun hb => by
        cases hback hb
      cases own' with
      | true => simp [hb, hown rfl]
      | false => simp [hb]

end

/-! Progress, over runs without end. -/

/-- While `p` waits for an input that is bound to come, it stays; then both hold at once. -/
theorem waits {p q : ℕ → Bool} (hstay : ∀ n, p n = true → q n = false → p (n + 1) = true)
    {n : ℕ} (hp : p n = true) (hq : ∃ m ≥ n, q m = true) :
    ∃ m ≥ n, p m = true ∧ q m = true := by
  obtain ⟨m, hm, hqm⟩ := hq
  by_contra hno
  push Not at hno
  have hall (k : ℕ) : p (n + k) = true := by
    induction k with
    | zero => exact hp
    | succ k ih =>
      exact hstay _ ih (Bool.eq_false_iff.2 (hno _ (Nat.le_add_right n k) ih))
  have hpm : p m = true := by
    rw [← Nat.add_sub_of_le hm]
    exact hall _
  exact hno m hm hpm hqm

/-- An answer that stands gets delivered, if its taker is ready in the end. -/
theorem delivered {valid ready : ℕ → Bool} {f : ℕ → ℕ} (hf : Monotone f)
    (hstay : ∀ n, valid n = true → ready n = false → valid (n + 1) = true)
    (htake : ∀ n, valid n = true → ready n = true → f n < f (n + 1))
    (hready : ∀ n, valid n = true → ∃ m ≥ n, ready m = true) {n : ℕ}
    (hv : ∃ m ≥ n, valid m = true) : ∃ m ≥ n, f n < f m := by
  obtain ⟨k, hk, hv⟩ := hv
  obtain ⟨m, hm, hvm, hrm⟩ := waits hstay hv (hready k hv)
  have hnm := Nat.le_trans hk hm
  exact ⟨m + 1, Nat.le_succ_of_le hnm, Nat.lt_of_le_of_lt (hf hnm) (htake m hvm hrm)⟩

/-- What always gains while it is behind catches up. -/
theorem catches_up {f g : ℕ → ℕ} (hg : Monotone g)
    (hgain : ∀ n, f n < g n → ∃ m ≥ n, f n < f m) {n k : ℕ} (hk : k < g n) :
    ∃ m, k < f m := by
  obtain ⟨d, hd⟩ : ∃ d, k < f n + d := ⟨k + 1, Nat.lt_add_left _ k.lt_succ_self⟩
  induction d generalizing n with
  | zero => exact ⟨n, hd⟩
  | succ d ih =>
    by_cases hn : k < f n
    · exact ⟨n, hn⟩
    · obtain ⟨m, hm, hlt⟩ := hgain n (Nat.lt_of_le_of_lt (Nat.le_of_not_lt hn) hk)
      refine ih (Nat.lt_of_lt_of_le hk (hg hm)) ?_
      omega

end TetraBs.Handshake
