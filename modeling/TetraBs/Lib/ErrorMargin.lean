import TetraBs.Lib.Hamming

/-! Error patterns that a linear trellis code survives: a potential on the states that bounds from
below by how much a word is still farther away than the word that was sent. Nothing here is about
TETRA. -/
namespace TetraBs.ErrorMargin
open TetraBs.Hamming
variable {σ γ : Type*}

/-- The word of a bit sequence, an edge a bit. -/
def word (out : σ → Bool → List Bool) (next : σ → Bool → σ) : σ → List Bool → List Bool
  | _, [] => []
  | s, b :: bs => out s b ++ word out next (next s b) bs

/-- What a monitor of the error pattern says; `none` is a pattern that does not count. -/
def allows (allow : γ → Bool → Option γ) : γ → List Bool → Option γ
  | g, [] => some g
  | g, e :: es => (allow g e).bind fun g' => allows allow g' es

/-- A potential on the differences of two paths. It is zero where they agree, no edge loses more
than the potential falls, and an edge that brings the paths together gains something. -/
structure Margin (out : σ → Bool → List Bool) (next : σ → Bool → σ) (zero : σ → Bool)
    (allow : γ → Bool → Option γ) (pot : γ → σ → Int) : Prop where
  leave : ∀ s, zero s = true → zero (next s true) = false
  stay : ∀ s, zero s = true → zero (next s false) = true
  home : ∀ g s, zero s = true → pot g s = 0
  edge : ∀ g g' s b, ∀ err : List Bool, err.length = (out s b).length →
    allows allow g err = some g' →
    pot g' (next s b) + weight err + (if !zero s && zero (next s b) then 1 else 0) ≤
      pot g s + weight (add (out s b) err)

theorem allows_append (allow : γ → Bool → Option γ) (g : γ) (es fs : List Bool) :
    allows allow g (es ++ fs) = (allows allow g es).bind fun g' => allows allow g' fs := by
  induction es generalizing g with
  | nil => rfl
  | cons e es ih =>
    rw [List.cons_append, allows, allows]
    cases allow g e with
    | none => rfl
    | some g' => exact ih g'

theorem add_append {a b c d : List Bool} (h : a.length = b.length) :
    add (a ++ c) (b ++ d) = add a b ++ add c d := List.zipWith_append h

variable {out : σ → Bool → List Bool} {next : σ → Bool → σ} {zero : σ → Bool}
  {allow : γ → Bool → Option γ} {pot : γ → σ → Int}

/-- What is left of the way back to a common state makes up for the potential, and for one more
where the paths differ. -/
theorem Margin.weight_le (h : Margin out next zero allow pot) {g g' : γ} {s : σ}
    {d err : List Bool} (hend : zero (d.foldl next s) = true)
    (hlen : err.length = (word out next s d).length) (hadm : allows allow g err = some g') :
    weight err + (if !zero s || d.contains true then 1 else 0) ≤
      pot g s + weight (add (word out next s d) err) := by
  induction d generalizing g s err with
  | nil =>
    have hs : zero s = true := hend
    have herr : err = [] := List.eq_nil_of_length_eq_zero hlen
    rw [herr, hs, h.home g s hs]
    exact Int.le_refl 0
  | cons b bs ih =>
    obtain ⟨e₁, e₂, rfl, hl₁, hl₂⟩ : ∃ e₁ e₂, err = e₁ ++ e₂ ∧
        e₁.length = (out s b).length ∧ e₂.length = (word out next (next s b) bs).length := by
      rw [word, List.length_append] at hlen
      refine ⟨err.take (out s b).length, err.drop (out s b).length,
        (List.take_append_drop _ _).symm, ?_, ?_⟩
      · rw [List.length_take]
        omega
      · rw [List.length_drop]
        omega
    rw [allows_append] at hadm
    obtain ⟨g₁, hg₁, hg₂⟩ := Option.bind_eq_some_iff.1 hadm
    have hedge := h.edge g g₁ s b e₁ hl₁ hg₁
    have hrest := ih (s := next s b) hend hl₂ hg₂
    rw [word, add_append hl₁.symm, weight_append, weight_append]
    have hbit : (b :: bs).contains true = (b || bs.contains true) := by
      cases b <;> rfl
    rw [hbit]
    cases hs : zero s with
    | false =>
      rw [hs] at hedge
      cases hn : zero (next s b) with
      | false =>
        simp only [hn, Bool.not_false, Bool.true_or, if_true] at hrest ⊢
        simp only [hn, Bool.and_false, Bool.false_eq_true, if_false] at hedge
        omega
      | true =>
        simp only [hn, Bool.not_false, Bool.and_self, if_true] at hedge
        simp only [Bool.not_false, Bool.true_or, if_true]
        have hpos : (0 : Int) ≤ if !zero (next s b) || bs.contains true then 1 else 0 := by
          split <;> decide
        omega
    | true =>
      rw [hs] at hedge
      simp only [Bool.not_true, Bool.false_and, Bool.false_eq_true, if_false] at hedge
      simp only [Bool.not_true, Bool.false_or]
      cases b with
      | true =>
        rw [h.leave s hs] at hrest
        simp only [Bool.not_false, Bool.true_or, if_true] at hrest ⊢
        omega
      | false =>
        rw [h.stay s hs] at hrest
        simp only [Bool.not_true, Bool.false_or] at hrest ⊢
        omega

/-- A word other than zero is farther from an error pattern that counts than the zero word. -/
theorem Margin.weight_lt (h : Margin out next zero allow pot) {g g' : γ} {s : σ}
    (hs : zero s = true) {d err : List Bool} (hd : true ∈ d)
    (hend : zero (d.foldl next s) = true) (hlen : err.length = (word out next s d).length)
    (hadm : allows allow g err = some g') :
    weight err < weight (add (word out next s d) err) := by
  have hall := h.weight_le hend hlen hadm
  have hsome : d.contains true = true := List.contains_iff_mem.2 hd
  rw [h.home g s hs, hs, hsome] at hall
  simp only [Bool.not_true, Bool.or_true, if_true] at hall
  omega

/-! Errors that keep a distance. -/

/-- Any two errors are at least `n` places apart. -/
def Spaced (n : Nat) (err : List Bool) : Prop :=
  ∀ i j, i < j → err[i]? = some true → err[j]? = some true → i + n ≤ j

/-- The monitor of errors that are more than `m` places apart: the bits since the last one, less
one, up to `m`. -/
def gap (m : Nat) (j : Fin (m + 1)) (e : Bool) : Option (Fin (m + 1)) :=
  if e then if j.val = m then some ⟨0, Nat.succ_pos m⟩ else none
  else some ⟨min m (j.val + 1), Nat.lt_succ_of_le (Nat.min_le_left _ _)⟩

theorem gap_allows {m : Nat} {j : Fin (m + 1)} {err : List Bool} (hsp : Spaced (m + 1) err)
    (hfirst : ∀ i : Nat, err[i]? = some true → m ≤ i + j.val) :
    ∃ g, allows (gap m) j err = some g := by
  induction err generalizing j with
  | nil => exact ⟨j, rfl⟩
  | cons e es ih =>
    have hrest : Spaced (m + 1) es := fun i k hik hi hk => by
      have h := hsp (i + 1) (k + 1) (by omega) (by simpa using hi) (by simpa using hk)
      omega
    cases e with
    | true =>
      have hj : j.val = m := by
        have h := hfirst 0 rfl
        have := j.isLt
        omega
      rw [allows, gap, if_pos rfl, if_pos hj]
      refine ih hrest fun i hi => ?_
      have h := hsp 0 (i + 1) (Nat.succ_pos i) rfl (by simpa using hi)
      show m ≤ i + 0
      omega
    | false =>
      rw [allows, gap, if_neg Bool.false_ne_true]
      refine ih hrest fun i hi => ?_
      have h := hfirst (i + 1) (by simpa using hi)
      show m ≤ i + min m (j.val + 1)
      omega

/-- Errors that keep a distance are allowed by a monitor that has seen none. -/
theorem Spaced.allows {m : Nat} {err : List Bool} (h : Spaced (m + 1) err) :
    ∃ g, allows (gap m) ⟨m, Nat.lt_succ_self m⟩ err = some g :=
  gap_allows h fun i _ => Nat.le_add_left m i

end TetraBs.ErrorMargin
