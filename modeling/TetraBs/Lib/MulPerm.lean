import Mathlib.Data.List.GetD
import Mathlib.Data.Nat.ModEq

/-! The permutation of `n` places that puts item `i` at `a * (i + 1) mod n`. Nothing here is
about TETRA. -/
namespace TetraBs.MulPerm
variable {α : Type*} {a n i j : Nat}

/-- The items are counted from 1. -/
def place (a n i : Nat) : Nat := a * (i + 1) % n

theorem mul_mod_inj (h : n.Coprime a) (hi : i < n) (hj : j < n) (he : a * i % n = a * j % n) :
    i = j := by
  have hmod : i ≡ j [MOD n] := Nat.ModEq.cancel_left_of_coprime h he
  rwa [Nat.ModEq, Nat.mod_eq_of_lt hi, Nat.mod_eq_of_lt hj] at hmod

theorem place_lt (hn : 0 < n) : place a n i < n := Nat.mod_lt _ hn

theorem place_eq : place a n i = a * ((i + 1) % n) % n := by
  rw [place, Nat.mul_mod, Nat.mul_mod a ((i + 1) % n), Nat.mod_mod]

theorem mul_mod_add (i : Nat) : (a * i % n + a) % n = a * (i + 1) % n := by
  rw [Nat.mod_add_mod, Nat.mul_add, Nat.mul_one]

theorem place_inj (h : n.Coprime a) (hi : i < n) (hj : j < n) (he : place a n i = place a n j) :
    i = j := by
  have hn : 0 < n := Nat.zero_lt_of_lt hi
  rw [place_eq, place_eq] at he
  have hmod := mul_mod_inj h (Nat.mod_lt _ hn) (Nat.mod_lt _ hn) he
  rcases (by omega : i + 1 = n ∨ i + 1 < n) with hi' | hi' <;>
    rcases (by omega : j + 1 = n ∨ j + 1 < n) with hj' | hj'
  · omega
  · rw [hi', Nat.mod_self, Nat.mod_eq_of_lt hj'] at hmod
    omega
  · rw [hj', Nat.mod_self, Nat.mod_eq_of_lt hi'] at hmod
    omega
  · rw [Nat.mod_eq_of_lt hi', Nat.mod_eq_of_lt hj'] at hmod
    omega

/-- `ys` holds the items of `xs`, each at its place. -/
structure Permuted (a : Nat) (xs ys : List α) : Prop where
  length : ys.length = xs.length
  item : ∀ i < xs.length, ys[place a xs.length i]? = xs[i]?

/-- The items read back from their places. -/
def collect (a : Nat) (d : α) (ys : List α) : List α :=
  (List.range ys.length).map fun i => ys.getD (place a ys.length i) d

theorem Permuted.collect_eq {xs ys : List α} (h : Permuted a xs ys) (d : α) :
    collect a d ys = xs := by
  refine List.ext_getElem (by simp [collect, h.length]) fun i hi hi' => ?_
  have hitem := h.item i hi'
  rw [← h.length] at hitem
  simp [collect, List.getD_eq_getElem?_getD, hitem, hi']

/-- The items put to their places. -/
def spread (a : Nat) (d : α) (xs : List α) : List α :=
  (List.range xs.length).foldl (fun ys i => ys.set (place a xs.length i) (xs.getD i d))
    (List.replicate xs.length d)

theorem permuted_spread {xs : List α} (h : xs.length.Coprime a) (d : α) :
    Permuted a xs (spread a d xs) := by
  have hbelow : ∀ m ≤ xs.length, ∀ ys, ys =
      (List.range m).foldl (fun ys i => ys.set (place a xs.length i) (xs.getD i d))
        (List.replicate xs.length d) →
      ys.length = xs.length ∧ ∀ i < m, ys[place a xs.length i]? = xs[i]? := by
    intro m hm
    induction m with
    | zero =>
      rintro ys rfl
      exact ⟨List.length_replicate, fun i hi => absurd hi (Nat.not_lt_zero i)⟩
    | succ m ih =>
      intro ys hys
      obtain ⟨hlen, hitem⟩ := ih (by omega) _ rfl
      rw [List.range_succ, List.foldl_append, List.foldl_cons, List.foldl_nil] at hys
      refine ⟨by rw [hys, List.length_set, hlen], fun i hi => ?_⟩
      rw [hys, List.getElem?_set, hlen]
      by_cases heq : i = m
      · have hlt : place a xs.length i < xs.length := place_lt (by omega)
        subst heq
        rw [if_pos rfl, if_pos hlt, List.getD_eq_getElem _ _ (by omega),
          List.getElem?_eq_getElem (by omega)]
      · have hne : place a xs.length m ≠ place a xs.length i :=
          fun he => heq (place_inj h (by omega) (by omega) he).symm
        rw [if_neg hne]
        exact hitem i (by omega)
  obtain ⟨hlen, hitem⟩ := hbelow xs.length (Nat.le_refl _) _ rfl
  exact ⟨hlen, hitem⟩

end TetraBs.MulPerm
