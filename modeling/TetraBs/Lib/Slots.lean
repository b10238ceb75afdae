import Mathlib.Data.List.FinRange

/-! Fixed tables of slots searched from the front: a slot is free or belongs to one key, and a
key that is not there takes the first free slot. Nothing here is about TETRA. -/
namespace TetraBs.Slots
variable {κ α : Type*} {n : Nat}

/-- `owns k a`: slot contents `a` belong to `k`. -/
structure Kind (κ α : Type*) where
  owns : κ → α → Bool
  free : α → Bool
  fresh : κ → α
  fresh_owns : ∀ k, owns k (fresh k) = true
  owns_inj : ∀ {k k' a}, owns k a = true → owns k' a = true → k = k'
  owns_not_free : ∀ {k a}, owns k a = true → free a = false

def find (p : α → Bool) (t : Fin n → α) : Option (Fin n) := (List.finRange n).find? fun i => p (t i)

def set (t : Fin n → α) (i : Fin n) (a : α) : Fin n → α := fun j => if j = i then a else t j

/-- The slot of `k`, taken if need be, and the table with it. -/
def lookup (K : Kind κ α) (t : Fin n → α) (k : κ) : Option (Fin n) × (Fin n → α) :=
  match find (K.owns k) t with
  | some i => (some i, t)
  | none =>
    match find K.free t with
    | some i => (some i, set t i (K.fresh k))
    | none => (none, t)

/-- What the table holds for `k`, or would hold once `k` took a slot. -/
def view (K : Kind κ α) (t : Fin n → α) (k : κ) : α :=
  match find (K.owns k) t with
  | some i => t i
  | none => K.fresh k

theorem find_some {p : α → Bool} {t : Fin n → α} {i : Fin n} (h : find p t = some i) :
    p (t i) = true := List.find?_some (p := fun i => p (t i)) h

theorem find_none {p : α → Bool} {t : Fin n → α} (h : find p t = none) (i : Fin n) :
    p (t i) = false := by
  have := List.find?_eq_none.1 h i (List.mem_finRange i)
  simpa using this

theorem find_congr {p q : α → Bool} {t u : Fin n → α} (h : ∀ i, p (t i) = q (u i)) :
    find p t = find q u := by
  unfold find
  rw [funext h]

theorem find_of_unique {p : α → Bool} {t : Fin n → α} {i : Fin n} (hi : p (t i) = true)
    (hu : ∀ j, p (t j) = true → j = i) : find p t = some i := by
  cases h : find p t with
  | none =>
    rw [find_none h] at hi
    cases hi
  | some j => rw [hu j (find_some h)]

theorem set_self (t : Fin n → α) (i : Fin n) (a : α) : set t i a i = a := if_pos rfl

theorem set_other (t : Fin n → α) {i j : Fin n} (a : α) (h : j ≠ i) : set t i a j = t j := if_neg h

theorem set_set (t : Fin n → α) (i : Fin n) (a b : α) : set (set t i a) i b = set t i b := by
  funext j
  by_cases hj : j = i
  · rw [hj, set_self, set_self]
  · rw [set_other _ _ hj, set_other _ _ hj, set_other _ _ hj]

/-- Writing back what is there changes nothing. -/
theorem set_eq_self_iff (t : Fin n → α) (i : Fin n) (a : α) : set t i a = t ↔ a = t i := by
  constructor
  · intro h
    rw [← h, set_self]
  · rintro rfl
    funext j
    by_cases hj : j = i
    · rw [hj, set_self]
    · rw [set_other _ _ hj]

variable (K : Kind κ α)

theorem view_owns (t : Fin n → α) (k : κ) : K.owns k (view K t k) = true := by
  unfold view
  cases h : find (K.owns k) t with
  | some i => exact find_some h
  | none => exact K.fresh_owns k

/-- Rewriting a slot for the same key moves nothing. -/
theorem find_set {t : Fin n → α} {k : κ} {i : Fin n} {a : α} (hi : find (K.owns k) t = some i)
    (ha : K.owns k a = true) (k' : κ) : find (K.owns k') (set t i a) = find (K.owns k') t := by
  apply find_congr
  intro j
  by_cases hj : j = i
  · rw [hj, set_self, Bool.eq_iff_iff]
    have hown := find_some hi
    exact ⟨fun h => K.owns_inj ha h ▸ hown, fun h => K.owns_inj hown h ▸ ha⟩
  · rw [set_other _ _ hj]

theorem view_set [DecidableEq κ] {t : Fin n → α} {k : κ} {i : Fin n} {a : α}
    (hi : find (K.owns k) t = some i) (ha : K.owns k a = true) (k' : κ) :
    view K (set t i a) k' = if k' = k then a else view K t k' := by
  unfold view
  rw [find_set K hi ha]
  by_cases h : k' = k
  · rw [if_pos h, h, hi]
    exact set_self t i a
  · rw [if_neg h]
    cases hf : find (K.owns k') t with
    | none => rfl
    | some j =>
      have hne : j ≠ i := by
        intro hji
        rw [hji] at hf
        exact h (K.owns_inj (find_some hf) (find_some hi))
      exact set_other t a hne

/-- A key that takes a free slot is found there, and no other key notices. -/
theorem find_take {t : Fin n → α} {k : κ} (i : Fin n) (hf : find (K.owns k) t = none) :
    find (K.owns k) (set t i (K.fresh k)) = some i := by
  apply find_of_unique
  · rw [set_self]
    exact K.fresh_owns k
  · intro j hj
    by_contra hne
    rw [set_other _ _ hne, find_none hf] at hj
    cases hj

theorem view_take {t : Fin n → α} {k : κ} {i : Fin n} (hf : find (K.owns k) t = none)
    (hi : find K.free t = some i) (k' : κ) : view K (set t i (K.fresh k)) k' = view K t k' := by
  classical
  by_cases h : k' = k
  · unfold view
    rw [h, find_take K i hf, hf]
    exact set_self t i _
  have hnot : K.owns k' (t i) = false := by
    by_contra hown
    have hfree := find_some hi
    rw [K.owns_not_free (Bool.eq_true_of_not_eq_false hown)] at hfree
    cases hfree
  have hsame : find (K.owns k') (set t i (K.fresh k)) = find (K.owns k') t := by
    apply find_congr
    intro j
    by_cases hj : j = i
    · rw [hj, set_self, hnot]
      by_contra hown
      exact h (K.owns_inj (Bool.eq_true_of_not_eq_false hown) (K.fresh_owns k))
    · rw [set_other _ _ hj]
  unfold view
  rw [hsame]
  cases hg : find (K.owns k') t with
  | none => rfl
  | some j =>
    have hne : j ≠ i := by
      intro hji
      have := find_some hg
      rw [hji, hnot] at this
      cases this
    exact set_other t _ hne

/-- A lookup either finds no slot, or ends with what the table held for `k` in slot `i` and
with the same view of every key. -/
theorem lookup_cases (t : Fin n → α) (k : κ) :
    lookup K t k = (none, t) ∨
      ∃ i t', lookup K t k = (some i, t') ∧ find (K.owns k) t' = some i ∧ t' i = view K t k ∧
        ∀ k', view K t' k' = view K t k' := by
  unfold lookup
  cases hf : find (K.owns k) t with
  | some i =>
    refine Or.inr ⟨i, t, rfl, hf, ?_, fun _ => rfl⟩
    rw [view, hf]
  | none =>
    cases hi : find K.free t with
    | none => exact Or.inl rfl
    | some i =>
      refine Or.inr ⟨i, _, rfl, find_take K i hf, ?_, view_take K hf hi⟩
      rw [set_self, view, hf]

end TetraBs.Slots
