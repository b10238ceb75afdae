import Mathlib.Data.List.GetD
import Mathlib.Order.Nat

/-! Shift registers of words, the newest at the bottom. Nothing here is about TETRA. -/
namespace TetraBs.DelayLine
variable {m b n : ℕ}

/-- `x <= {x[m-1:0], d}`. -/
def push (x : BitVec (m + b)) (d : BitVec b) : BitVec (m + b) := x.extractLsb' 0 m ++ d

/-- The word that came in `j` words before the newest, `x[j*b +: b]`. -/
def word (b : ℕ) (x : BitVec n) (j : ℕ) : BitVec b := x.extractLsb' (b * j) b

theorem word_push_zero (x : BitVec (m + b)) (d : BitVec b) : word b (push x d) 0 = d := by
  refine BitVec.eq_of_getLsbD_eq fun k hk => ?_
  rw [word, push, BitVec.getLsbD_extractLsb', decide_eq_true hk, Bool.true_and, Nat.mul_zero,
    Nat.zero_add, BitVec.getLsbD_append, if_pos hk]

theorem word_push_succ (x : BitVec (m + b)) (d : BitVec b) {j : ℕ} (hj : b * (j + 1) ≤ m) :
    word b (push x d) (j + 1) = word b x j := by
  refine BitVec.eq_of_getLsbD_eq fun k hk => ?_
  have hj' : b * (j + 1) = b * j + b := Nat.mul_succ b j
  have hge : ¬ b * (j + 1) + k < b := by omega
  have hin : b * (j + 1) + k - b < m := by omega
  rw [word, word, push, BitVec.getLsbD_extractLsb', BitVec.getLsbD_extractLsb',
    BitVec.getLsbD_append, if_neg hge, BitVec.getLsbD_extractLsb', decide_eq_true hin,
    Bool.true_and, Nat.zero_add]
  congr 2
  omega

theorem word_zero (b j : ℕ) : word b (0 : BitVec n) j = 0 := by
  refine BitVec.eq_of_getLsbD_eq fun k hk => ?_
  rw [word, BitVec.getLsbD_extractLsb']
  simp

/-- The first `k` words of the register are the newest of `ds`, which lists them newest first,
and zero where there are none. -/
def Shows (x : BitVec n) (ds : List (BitVec b)) (k : ℕ) : Prop :=
  ∀ j < k, word b x j = ds.getD j 0

theorem shows_nil (k : ℕ) : Shows (0 : BitVec n) ([] : List (BitVec b)) k := by
  intro j _
  rw [word_zero, List.getD_nil]

theorem Shows.push {x : BitVec (m + b)} {ds : List (BitVec b)} {k : ℕ} (h : Shows x ds k)
    (hk : b * (k - 1) ≤ m) (d : BitVec b) : Shows (push x d) (d :: ds) k := by
  intro j hj
  cases j with
  | zero => rw [word_push_zero, List.getD_cons_zero]
  | succ j =>
    have hle : b * (j + 1) ≤ b * (k - 1) := Nat.mul_le_mul_left b (by omega)
    rw [word_push_succ x d (hle.trans hk), List.getD_cons_succ, h j (by omega)]

end TetraBs.DelayLine

/-! Delay lines of two-bit symbols. -/

namespace TetraBs.SymbolShift
variable {m : Nat}

/-- `x <= {x[m-1:0], d}`. -/
def push (x : BitVec (m + 2)) (d : BitVec 2) : BitVec (m + 2) := x.extractLsb' 0 m ++ d

/-- The symbol that came in `j` symbols before the newest. -/
def symbol {n : Nat} (x : BitVec n) (j : Nat) : BitVec 2 := x.extractLsb' (2 * j) 2

theorem symbol_push_zero (x : BitVec (m + 2)) (d : BitVec 2) : symbol (push x d) 0 = d :=
  DelayLine.word_push_zero x d

theorem symbol_push_succ (x : BitVec (m + 2)) (d : BitVec 2) {j : Nat} (hj : 2 * (j + 1) ≤ m) :
    symbol (push x d) (j + 1) = symbol x j :=
  DelayLine.word_push_succ x d hj

theorem symbol_append_low {n : Nat} (x : BitVec n) (y : BitVec m) {j : Nat} (hj : 2 * j + 2 ≤ m) :
    symbol (x ++ y) j = symbol y j := by
  refine BitVec.eq_of_getLsbD_eq fun b hb => ?_
  rw [symbol, symbol, BitVec.getLsbD_extractLsb', BitVec.getLsbD_extractLsb',
    BitVec.getLsbD_append, if_pos (by omega)]

theorem symbol_append_high {n c : Nat} (x : BitVec n) (y : BitVec (2 * c)) (j : Nat) :
    symbol (x ++ y) (c + j) = symbol x j := by
  refine BitVec.eq_of_getLsbD_eq fun b hb => ?_
  rw [symbol, symbol, BitVec.getLsbD_extractLsb', BitVec.getLsbD_extractLsb',
    BitVec.getLsbD_append, if_neg (by omega), (by omega : 2 * (c + j) + b - 2 * c = 2 * j + b)]

theorem symbol_extract {n : Nat} (x : BitVec n) (c : Nat) {k j : Nat} (hj : 2 * j + 2 ≤ k) :
    symbol (x.extractLsb' (2 * c) k) j = symbol x (c + j) := by
  refine BitVec.eq_of_getLsbD_eq fun b hb => ?_
  rw [symbol, symbol, BitVec.getLsbD_extractLsb', BitVec.getLsbD_extractLsb',
    BitVec.getLsbD_extractLsb', decide_eq_true (by omega : 2 * j + b < k), Bool.true_and,
    (by omega : 2 * c + (2 * j + b) = 2 * (c + j) + b)]

theorem eq_of_symbols {x y : BitVec (2 * m)} (h : ∀ j < m, symbol x j = symbol y j) : x = y := by
  refine BitVec.eq_of_getLsbD_eq fun b hb => ?_
  have hsym := congrArg (fun d => BitVec.getLsbD d (b % 2)) (h (b / 2) (by omega))
  have hbit : b % 2 < 2 := Nat.mod_lt _ (by decide)
  simpa [symbol, hbit, Nat.div_add_mod] using hsym

/-- The newest `k` symbols of `x` are those of `ds` that end before place `e`. -/
def Newest {n : Nat} (x : BitVec n) (ds : List (BitVec 2)) (e k : Nat) : Prop :=
  k ≤ e ∧ ∀ j < k, ds[e - 1 - j]? = some (symbol x j)

theorem newest_zero {n : Nat} (x : BitVec n) (ds : List (BitVec 2)) (e : Nat) : Newest x ds e 0 :=
  ⟨Nat.zero_le e, fun j hj => absurd hj (Nat.not_lt_zero j)⟩

theorem Newest.mono {n : Nat} {x : BitVec n} {ds : List (BitVec 2)} {e k : Nat}
    (h : Newest x ds e k) {es : List (BitVec 2)} (hpre : ds <+: es) : Newest x es e k := by
  obtain ⟨vs, rfl⟩ := hpre
  refine ⟨h.1, fun j hj => ?_⟩
  have hj' := h.2 j hj
  rwa [List.getElem?_append_left (List.getElem?_eq_some_iff.1 hj').1]

/-- The next symbol of the stream. -/
theorem Newest.push {x : BitVec (m + 2)} {ds : List (BitVec 2)} {k : Nat}
    (h : Newest x ds ds.length k) (hk : 2 * k ≤ m) (d : BitVec 2) :
    Newest (push x d) (ds ++ [d]) (ds.length + 1) (k + 1) := by
  obtain ⟨hle, hsym⟩ := h
  refine ⟨by omega, fun j hj => ?_⟩
  cases j with
  | zero => rw [symbol_push_zero, Nat.add_sub_cancel, Nat.sub_zero, List.getElem?_concat_length]
  | succ j =>
    rw [symbol_push_succ _ _ (by omega), ← hsym j (by omega),
      (by omega : ds.length + 1 - 1 - (j + 1) = ds.length - 1 - j),
      List.getElem?_append_left (by omega)]

end TetraBs.SymbolShift
