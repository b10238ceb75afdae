import Mathlib.Data.BitVec

/-! Gray codes of counters on bit vectors. Nothing here is about TETRA. -/
namespace TetraBs.Gray
variable {w : Nat}

def gray (x : BitVec w) : BitVec w := (x >>> 1) ^^^ x

theorem getLsbD_gray (x : BitVec w) (i : Nat) :
    (gray x).getLsbD i = (x.getLsbD (i + 1) ^^ x.getLsbD i) := by
  rw [gray, BitVec.getLsbD_xor, BitVec.getLsbD_ushiftRight, Nat.add_comm 1 i]

/-- From the top bit down the code determines the number. -/
theorem gray_inj {x y : BitVec w} (h : gray x = gray y) : x = y := by
  have hbits : ∀ d i, i + d = w → x.getLsbD i = y.getLsbD i := by
    intro d
    induction d with
    | zero =>
      intro i hi
      rw [BitVec.getLsbD_of_ge x i (by omega), BitVec.getLsbD_of_ge y i (by omega)]
    | succ d ih =>
      intro i hi
      have habove := ih (i + 1) (by omega)
      have hcode := congrArg (BitVec.getLsbD · i) h
      simp only [getLsbD_gray, habove] at hcode
      exact Bool.xor_right_inj.1 hcode
  exact BitVec.eq_of_getLsbD_eq fun i hi => hbits (w - i) i (by omega)

/-! Back. -/

/-- `n + 1` bits of the number from the top bit of its code down. -/
def ungrayFrom (y : BitVec w) : Nat → BitVec w
  | 0 => y
  | n + 1 => y ^^^ (ungrayFrom y n >>> 1)

def ungray (y : BitVec w) : BitVec w := ungrayFrom y w

theorem getLsbD_ungrayFrom (x : BitVec w) (n : Nat) {i : Nat} (hi : w ≤ i + 1 + n) :
    (ungrayFrom (gray x) n).getLsbD i = x.getLsbD i := by
  induction n generalizing i with
  | zero =>
    rw [ungrayFrom, getLsbD_gray, BitVec.getLsbD_of_ge x (i + 1) hi, Bool.false_xor]
  | succ n ih =>
    rw [ungrayFrom, BitVec.getLsbD_xor, BitVec.getLsbD_ushiftRight, Nat.add_comm 1 i,
      ih (by omega), getLsbD_gray, Bool.xor_comm, ← Bool.xor_assoc, Bool.xor_self,
      Bool.false_xor]

theorem ungray_gray (x : BitVec w) : ungray (gray x) = x :=
  BitVec.eq_of_getLsbD_eq fun i _ => getLsbD_ungrayFrom x w (by omega)

/-! One count. -/

/-- The bits that a count changes: those below which all bits are set. -/
theorem changed_iff (x : BitVec w) {i : Nat} (hi : i < w) :
    x.getLsbD i ≠ (x + 1#w).getLsbD i ↔ ∀ j < i, x.getLsbD j = true := by
  rw [BitVec.getLsbD_add hi]
  cases i with
  | zero => simp [hi]
  | succ i =>
    have hpos : 0 < w := by omega
    rw [BitVec.carry_succ_one _ _ hpos, BitVec.getLsbD_one]
    by_cases hall : ∀ j ≤ i, x.getLsbD j = true
    · simpa [Nat.lt_succ_iff, decide_eq_true hall] using hall
    · simpa [Nat.lt_succ_iff, decide_eq_false hall] using hall

/-- A count changes a single bit of the code. -/
theorem gray_changed_unique (x : BitVec w) {p q : Nat}
    (hp : (gray x).getLsbD p ≠ (gray (x + 1#w)).getLsbD p)
    (hq : (gray x).getLsbD q ≠ (gray (x + 1#w)).getLsbD q) : p = q := by
  have hkey : ∀ i, (gray x).getLsbD i ≠ (gray (x + 1#w)).getLsbD i →
      i < w ∧ (∀ j < i, x.getLsbD j = true) ∧ (i + 1 < w → ¬∀ j < i + 1, x.getLsbD j = true) := by
    intro i hne
    rw [getLsbD_gray, getLsbD_gray] at hne
    have hi : i < w := by
      by_contra hge
      simp [BitVec.getLsbD_of_ge _ i (Nat.le_of_not_lt hge),
        BitVec.getLsbD_of_ge _ (i + 1) (by omega : w ≤ i + 1)] at hne
    by_cases hnext : i + 1 < w
    · have hthis := changed_iff x hi
      have habove := changed_iff x hnext
      refine ⟨hi, ?_, fun _ hall => ?_⟩
      · refine hthis.1 fun heq => hne ?_
        have heq' : x.getLsbD (i + 1) = (x + 1#w).getLsbD (i + 1) := by
          by_contra hch
          exact hthis.2 (fun j hj => habove.1 hch j (by omega)) heq
        rw [heq, heq']
      · have h₀ := hthis.2 fun j hj => hall j (by omega)
        have h₁ := habove.2 hall
        revert hne h₀ h₁
        cases x.getLsbD i <;> cases x.getLsbD (i + 1) <;> cases (x + 1#w).getLsbD i <;>
          cases (x + 1#w).getLsbD (i + 1) <;> decide
    · refine ⟨hi, (changed_iff x hi).1 fun heq => hne ?_, fun h => absurd h hnext⟩
      rw [heq, BitVec.getLsbD_of_ge x (i + 1) (by omega),
        BitVec.getLsbD_of_ge (x + 1#w) (i + 1) (by omega)]
  obtain ⟨hpw, hpall, hpno⟩ := hkey p hp
  obtain ⟨hqw, hqall, hqno⟩ := hkey q hq
  rcases Nat.lt_trichotomy p q with hlt | heq | hlt
  · exact absurd (fun j hj => hqall j (by omega)) (hpno (by omega))
  · exact heq
  · exact absurd (fun j hj => hpall j (by omega)) (hqno (by omega))

/-- Every bit of `v` is one of `a` or of `b`. -/
def Mixes (a b v : BitVec w) : Prop :=
  ∀ i, v.getLsbD i = a.getLsbD i ∨ v.getLsbD i = b.getLsbD i

/-- A sample taken while the code changes is the old code or the new one. -/
theorem mixes_gray {x v : BitVec w} (h : Mixes (gray x) (gray (x + 1#w)) v) :
    v = gray x ∨ v = gray (x + 1#w) := by
  by_cases hold : ∀ i, v.getLsbD i = (gray x).getLsbD i
  · exact Or.inl (BitVec.eq_of_getLsbD_eq fun i _ => hold i)
  · obtain ⟨p, hp⟩ := Classical.not_forall.1 hold
    refine Or.inr (BitVec.eq_of_getLsbD_eq fun i _ => ?_)
    have hnew := (h p).resolve_left hp
    have hchanged : (gray x).getLsbD p ≠ (gray (x + 1#w)).getLsbD p := fun heq =>
      hp (hnew.trans heq.symm)
    by_cases hip : i = p
    · rw [hip, hnew]
    · have hsame : (gray x).getLsbD i = (gray (x + 1#w)).getLsbD i := by
        by_contra hne
        exact hip (gray_changed_unique x hne hchanged)
      exact (h i).elim (fun hi => hi.trans hsame) id

theorem mixes_self {a v : BitVec w} (h : Mixes a a v) : v = a :=
  BitVec.eq_of_getLsbD_eq fun i _ => (h i).elim id id

/-! Half a turn. -/

/-- Half a turn further the top two bits of the code are the other way round. -/
theorem gray_add_half {k : Nat} (hk : 1 ≤ k) (x : BitVec (k + 1)) :
    gray (x + BitVec.ofNat (k + 1) (2 ^ k)) = gray x ^^^ (3#(k + 1) <<< (k - 1)) := by
  have hadd : ∀ i, (x + BitVec.ofNat (k + 1) (2 ^ k)).getLsbD i =
      (x.getLsbD i ^^ decide (i = k)) := by
    intro i
    by_cases hi : i < k + 1
    · have hpow : 2 ^ k % 2 ^ (k + 1) = 2 ^ k :=
        Nat.mod_eq_of_lt (Nat.pow_lt_pow_right (by decide) (Nat.lt_succ_self k))
      rw [BitVec.getLsbD, BitVec.toNat_add, BitVec.toNat_ofNat, hpow, Nat.testBit_mod_two_pow,
        decide_eq_true hi, Bool.true_and, Nat.add_comm]
      rcases Nat.lt_or_eq_of_le (Nat.le_of_lt_succ hi) with hlt | rfl
      · rw [Nat.testBit_two_pow_add_gt hlt, decide_eq_false (Nat.ne_of_lt hlt), Bool.xor_false]
        rfl
      · rw [Nat.testBit_two_pow_add_eq, decide_eq_true rfl, Bool.xor_true]
        rfl
    · rw [BitVec.getLsbD_of_ge _ i (by omega), BitVec.getLsbD_of_ge x i (by omega),
        decide_eq_false (by omega), Bool.xor_false]
  refine BitVec.eq_of_getLsbD_eq fun i hi => ?_
  have hmask : (3#(k + 1) <<< (k - 1)).getLsbD i = (decide (i + 1 = k) ^^ decide (i = k)) := by
    rw [BitVec.getLsbD_shiftLeft, BitVec.getLsbD_ofNat]
    rcases (by omega : i + 1 < k ∨ i + 1 = k ∨ i = k) with hlt | heq | heq
    · rw [decide_eq_true (by omega : i < k - 1), decide_eq_false (by omega : ¬i + 1 = k),
        decide_eq_false (by omega : ¬i = k), Bool.not_true, Bool.and_false, Bool.false_and]
      rfl
    · rw [(by omega : i - (k - 1) = 0), decide_eq_true hi, decide_eq_false (by omega : ¬i < k - 1),
        decide_eq_true (by omega : 0 < k + 1), decide_eq_true heq,
        decide_eq_false (by omega : ¬i = k)]
      rfl
    · rw [(by omega : i - (k - 1) = 1), decide_eq_true hi, decide_eq_false (by omega : ¬i < k - 1),
        decide_eq_true (by omega : 1 < k + 1), decide_eq_false (by omega : ¬i + 1 = k),
        decide_eq_true heq]
      rfl
  rw [BitVec.getLsbD_xor, hmask, getLsbD_gray, getLsbD_gray, hadd, hadd]
  cases x.getLsbD i <;> cases x.getLsbD (i + 1) <;> cases decide (i + 1 = k) <;>
    cases decide (i = k) <;> rfl

end TetraBs.Gray
