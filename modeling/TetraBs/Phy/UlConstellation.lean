import TetraBs.Phy.UlDemod
import Mathlib.Data.Nat.Sqrt

/-! The samples of an uplink burst without noise, and the soft values that the demodulator makes of
them. -/
namespace TetraBs.Phy

/-- `A / √2`, rounded to an integer. -/
def diag (A : Nat) : Nat := (Nat.sqrt (2 * A * A) + 1) / 2

/-- No integer is nearer: `diag A - 1/2 ≤ A / √2 ≤ diag A + 1/2`. -/
theorem diag_nearest (A : Nat) :
    (2 * diag A - 1) * (2 * diag A - 1) ≤ 2 * A * A ∧
      2 * A * A < (2 * diag A + 1) * (2 * diag A + 1) := by
  have hdown : 2 * diag A - 1 ≤ Nat.sqrt (2 * A * A) := by
    rw [diag]
    omega
  have hup : Nat.sqrt (2 * A * A) + 1 ≤ 2 * diag A + 1 := by
    rw [diag]
    omega
  exact ⟨(Nat.mul_le_mul hdown hdown).trans (Nat.sqrt_le _),
    Nat.lt_of_lt_of_le (Nat.lt_succ_sqrt _) (Nat.mul_le_mul hup hup)⟩

/-- The point of amplitude `A` in the direction `p`, in steps of 45 degrees. -/
def point (A : Nat) (p : BitVec 3) : IqSample :=
  match p.toNat with
  | 0 => ⟨A, 0⟩
  | 1 => ⟨diag A, diag A⟩
  | 2 => ⟨0, A⟩
  | 3 => ⟨-diag A, diag A⟩
  | 4 => ⟨-A, 0⟩
  | 5 => ⟨-diag A, -diag A⟩
  | 6 => ⟨0, -A⟩
  | _ => ⟨diag A, -diag A⟩

/-- How far a dibit turns the phase. -/
def turn (d : Bool × Bool) : BitVec 3 :=
  match d with
  | (false, false) => 1
  | (false, true) => 3
  | (true, true) => 5
  | (true, false) => 7

/-- `z` or its opposite. -/
def signed (z : Int) (b : Bool) : Int := if b then -z else z

theorem directions : ∀ p : BitVec 3,
    p = 0 ∨ p = 1 ∨ p = 2 ∨ p = 3 ∨ p = 4 ∨ p = 5 ∨ p = 6 ∨ p = 7 := by
  decide

/-- One of two neighbouring points is on an axis and the other one on a diagonal. -/
theorem point_turn (A : Nat) (p : BitVec 3) (d : Bool × Bool) :
    (point A (p + turn d)).i * (point A p).i + (point A (p + turn d)).q * (point A p).q =
        signed (A * diag A) d.2 ∧
      (point A (p + turn d)).q * (point A p).i - (point A (p + turn d)).i * (point A p).q =
        signed (A * diag A) d.1 := by
  obtain ⟨b1, b0⟩ := d
  rcases directions p with rfl | rfl | rfl | rfl | rfl | rfl | rfl | rfl <;>
    cases b1 <;> cases b0 <;> simp [point, turn, signed, Int.mul_comm]

/-! The level of the soft values. -/

/-- The magnitude of both parts of a symbol, as far as the demodulator keeps it. -/
def level (A : Nat) : Nat := A * diag A / 2 ^ 25

theorem diag_mono {A B : Nat} (h : A ≤ B) : diag A ≤ diag B := by
  have hsqrt : Nat.sqrt (2 * A * A) ≤ Nat.sqrt (2 * B * B) :=
    Nat.sqrt_le_sqrt (Nat.mul_le_mul (Nat.mul_le_mul_left 2 h) h)
  rw [diag, diag]
  omega

theorem level_mono {A B : Nat} (h : A ≤ B) : level A ≤ level B :=
  Nat.div_le_div_right (Nat.mul_le_mul h (diag_mono h))

theorem diag_eq {A s : Nat} (hlow : s * s ≤ 2 * A * A) (hhigh : 2 * A * A < (s + 1) * (s + 1)) :
    diag A = (s + 1) / 2 := by
  rw [diag, Nat.eq_sqrt.2 ⟨hlow, hhigh⟩]

/-- Below amplitude 15404 at most four steps are left of the level. -/
theorem level_lt_five_iff (A : Nat) : level A < 5 ↔ A < 15404 := by
  have hlow : level 15403 = 4 := by
    rw [level, diag_eq (s := 21783) (by decide) (by decide)]
    decide
  have hhigh : level 15404 = 5 := by
    rw [level, diag_eq (s := 21784) (by decide) (by decide)]
    decide
  constructor
  · intro h
    refine Nat.lt_of_not_le fun hle => ?_
    have hmono := level_mono hle
    omega
  · intro h
    have hmono := level_mono (Nat.le_of_lt_succ h)
    omega

theorem level_le {A : Nat} (h : A ≤ 32767) : level A ≤ 22 := by
  have hmax : level 32767 = 22 := by
    rw [level, diag_eq (s := 46339) (by decide) (by decide)]
    decide
  exact hmax ▸ level_mono h

/-- The soft value of a bit, in either part of the symbol. -/
def softOf (A : Nat) (b : Bool) : BitVec 8 := UlDemod.slice (signed (A * diag A) b)

theorem softOf_false (A : Nat) : softOf A false = BitVec.ofNat 8 (level A) := by
  rw [softOf, UlDemod.slice, signed, if_neg Bool.false_ne_true]
  have hdiv : ((A : Int) * diag A) / 2 ^ 25 = (level A : Nat) := by
    rw [level]
    push_cast
    rfl
  rw [hdiv]
  exact BitVec.ofInt_natCast 8 (level A)

/-- Rounding down leaves a negative part one step more, unless there was nothing to round. -/
theorem softOf_true (A : Nat) : softOf A true = -BitVec.ofNat 8 (level A) ∨
    softOf A true = -BitVec.ofNat 8 (level A + 1) := by
  have hneg : ∀ m : Nat, BitVec.ofInt 8 (-(m : Int)) = -BitVec.ofNat 8 m := by
    intro m
    rw [BitVec.ofInt_neg, BitVec.ofInt_natCast]
  have hdiv : -((A * diag A : Nat) : Int) / 2 ^ 25 = -(level A : Nat) ∨
      -((A * diag A : Nat) : Int) / 2 ^ 25 = -((level A + 1 : Nat) : Int) := by
    rw [level]
    omega
  have hcast : -((A : Int) * diag A) = -((A * diag A : Nat) : Int) := by push_cast; rfl
  rw [softOf, UlDemod.slice, signed, if_pos rfl, hcast]
  rcases hdiv with h | h
  · rw [h]
    exact .inl (hneg _)
  · rw [h]
    exact .inr (hneg _)

theorem softPair_point (A : Nat) (p : BitVec 3) (d : Bool × Bool) :
    UlDemod.softPair (point A p) (point A (p + turn d)) = (softOf A d.1, softOf A d.2) := by
  obtain ⟨hre, him⟩ := point_turn A p d
  rw [UlDemod.softPair, hre, him, softOf, softOf]

/-! The bursts. -/

/-- The points that the dibits lead to from the direction `p`. -/
def modulate (A : Nat) : BitVec 3 → List (Bool × Bool) → List IqSample
  | _, [] => []
  | p, d :: ds => point A (p + turn d) :: modulate A (p + turn d) ds

/-- A half of the burst: the reference, then its symbols. -/
def halfBurst (A : Nat) (p : BitVec 3) (ds : List (Bool × Bool)) : List (IqSample × Bool) :=
  (point A p, true) :: (modulate A p ds).map fun x => (x, false)

/-- `n` dibits, from dibit `m` on. -/
def dibits (bits : List Bool) (m n : Nat) : List (Bool × Bool) :=
  (List.range' m n).map fun k => (bits.getD (2 * k) false, bits.getD (2 * k + 1) false)

/-- Two halves of 42 symbols, starting from the directions `p` and `q`. -/
def burst (A : Nat) (p q : BitVec 3) (bits : List Bool) : List (IqSample × Bool) :=
  halfBurst A p (dibits bits 0 42) ++ halfBurst A q (dibits bits 42 42)

theorem pairs_half (A : Nat) (p : BitVec 3) (ds : List (Bool × Bool)) (ref : Option IqSample)
    (xs : List (IqSample × Bool)) :
    ∃ ref', UlDemod.pairs ref (halfBurst A p ds ++ xs) =
      ds.map (fun d => (softOf A d.1, softOf A d.2)) ++ UlDemod.pairs ref' xs := by
  have hsymbols : ∀ p, ∃ ref', UlDemod.pairs (some (point A p))
      ((modulate A p ds).map (fun x => (x, false)) ++ xs) =
        ds.map (fun d => (softOf A d.1, softOf A d.2)) ++ UlDemod.pairs ref' xs := by
    induction ds with
    | nil => exact fun p => ⟨some (point A p), rfl⟩
    | cons d ds ih =>
      intro p
      obtain ⟨ref', hrest⟩ := ih (p + turn d)
      refine ⟨ref', ?_⟩
      rw [modulate, List.map_cons, List.cons_append, UlDemod.pairs, hrest, softPair_point]
      rfl
  obtain ⟨ref', hrest⟩ := hsymbols p
  refine ⟨ref', ?_⟩
  rw [halfBurst, List.cons_append]
  cases ref with
  | none => exact hrest
  | some x => exact hrest

theorem pairs_burst (A : Nat) (p q : BitVec 3) (bits : List Bool) (ref : Option IqSample) :
    UlDemod.pairs ref (burst A p q bits) =
      (dibits bits 0 84).map fun d => (softOf A d.1, softOf A d.2) := by
  obtain ⟨ref', hfirst⟩ := pairs_half A p (dibits bits 0 42) ref (halfBurst A q (dibits bits 42 42))
  obtain ⟨ref'', hsecond⟩ := pairs_half A q (dibits bits 42 42) ref' []
  have hnil : UlDemod.pairs ref'' [] = [] := by cases ref'' <;> rfl
  have hsplit : dibits bits 0 84 = dibits bits 0 42 ++ dibits bits 42 42 := by
    rw [dibits, dibits, dibits, ← List.map_append]
    congr 1
  rw [List.append_nil, hnil, List.append_nil] at hsecond
  rw [burst, hfirst, hsecond, hsplit, List.map_append]

end TetraBs.Phy
