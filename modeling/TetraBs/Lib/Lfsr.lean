import Mathlib.Data.List.Basic
import Mathlib.Data.List.GetD
import Mathlib.Logic.Function.Iterate

/-! Convolutional encoding with two generators, punctured to rate 2/3, as a function of the bits
that went in. Nothing here is about TETRA. -/
namespace TetraBs.ConvCode

/-- The sum of the bits `taps` places back. A history has its newest bit first; before its start
it reads 0. -/
def tapSum (taps : List Nat) (hist : List Bool) : Bool :=
  taps.foldr (fun d sum => hist.getD d false ^^ sum) false

/-- What bit `b` puts out: both sums at even places, the first at odd ones. -/
def emit (g1 g2 : List Nat) (hist : List Bool) (b : Bool) : List Bool :=
  if hist.length % 2 = 0 then [tapSum g1 (b :: hist), tapSum g2 (b :: hist)]
  else [tapSum g1 (b :: hist)]

def encode (g1 g2 : List Nat) : List Bool → List Bool → List Bool
  | _, [] => []
  | hist, b :: bs => emit g1 g2 hist b ++ encode g1 g2 (b :: hist) bs

theorem encode_append (g1 g2 : List Nat) (hist bs cs : List Bool) :
    encode g1 g2 hist (bs ++ cs) =
      encode g1 g2 hist bs ++ encode g1 g2 (bs.reverse ++ hist) cs := by
  induction bs generalizing hist with
  | nil => rfl
  | cons b bs ih =>
    rw [List.cons_append, encode, ih, encode, List.append_assoc, List.reverse_cons,
      List.append_assoc]
    rfl

theorem emit_length (g1 g2 : List Nat) (hist : List Bool) (b : Bool) :
    (emit g1 g2 hist b).length = 2 - hist.length % 2 := by
  rw [emit]
  split
  · rename_i h
    rw [h]
    rfl
  · rename_i h
    rw [(Nat.mod_two_eq_zero_or_one hist.length).resolve_left h]
    rfl

theorem encode_length (g1 g2 : List Nat) (hist bs : List Bool) :
    (encode g1 g2 hist bs).length = bs.length + (bs.length + 1 - hist.length % 2) / 2 := by
  induction bs generalizing hist with
  | nil => simp [encode]; omega
  | cons b bs ih =>
    rw [encode, List.length_append, emit_length, ih, List.length_cons, List.length_cons]
    omega

/-- Two pairs of generators put out the same on a bit and what follows it exactly if they do on
both. -/
theorem encode_cons_eq_iff (g1 g2 g1' g2' : List Nat) (hist bs : List Bool) (b : Bool) :
    encode g1 g2 hist (b :: bs) = encode g1' g2' hist (b :: bs) ↔
      emit g1 g2 hist b = emit g1' g2' hist b ∧
        encode g1 g2 (b :: hist) bs = encode g1' g2' (b :: hist) bs := by
  constructor
  · intro h
    exact List.append_inj h (by rw [emit_length, emit_length])
  · rintro ⟨hb, hbs⟩
    rw [encode, encode, hb, hbs]

end TetraBs.ConvCode

/-! Linear feedback shift registers that shift right, in both forms, and the bits they give.
Nothing here is about TETRA. -/
namespace TetraBs.Lfsr
variable {w : Nat}

/-- The sum of the tapped bits. -/
def tapped (taps : List Nat) (r : BitVec w) : Bool :=
  taps.foldr (fun j sum => r.getLsbD j ^^ sum) false

/-- Fibonacci form: the sum of the taps enters at the top. -/
def fibStep (taps : List Nat) (r : BitVec (w + 1)) : BitVec (w + 1) :=
  BitVec.cons (tapped taps r) (r.extractLsb' 1 w)

/-- Galois form: the bit that leaves adds the mask to what is left. -/
def galStep (mask r : BitVec w) : BitVec w :=
  if r.getLsbD 0 then (r >>> 1) ^^^ mask else r >>> 1

/-- The first `n` bits of a register that steps by `step` and shows `out`. -/
def stream (step : BitVec w → BitVec w) (out : BitVec w → Bool) : Nat → BitVec w → List Bool
  | 0, _ => []
  | n + 1, r => out r :: stream step out n (step r)

theorem stream_length (step : BitVec w → BitVec w) (out : BitVec w → Bool) (n : Nat)
    (r : BitVec w) : (stream step out n r).length = n := by
  induction n generalizing r with
  | zero => rfl
  | succ n ih => rw [stream, List.length_cons, ih]

theorem stream_succ (step : BitVec w → BitVec w) (out : BitVec w → Bool) (n : Nat)
    (r : BitVec w) : stream step out (n + 1) r = stream step out n r ++ [out (step^[n] r)] := by
  induction n generalizing r with
  | zero => rfl
  | succ n ih =>
    rw [stream, ih, stream]
    rfl

theorem stream_eq_map (step : BitVec w → BitVec w) (out : BitVec w → Bool) (n : Nat)
    (r : BitVec w) : stream step out n r = (List.range n).map fun k => out (step^[k] r) := by
  induction n with
  | zero => rfl
  | succ n ih => rw [stream_succ, ih, List.range_succ, List.map_append, List.map_singleton]

/-- Two streams agree as far as all their bits do. -/
theorem stream_eq_iff (step step' : BitVec w → BitVec w) (out out' : BitVec w → Bool) (n : Nat)
    (r : BitVec w) :
    stream step out n r = stream step' out' n r ↔
      ∀ k < n, out (step^[k] r) = out' (step'^[k] r) := by
  rw [stream_eq_map, stream_eq_map, List.map_inj_left]
  exact forall_congr' fun k => by rw [List.mem_range]

/-! Linear functionals. -/

/-- What `f` gives on a sum it gives on its parts. -/
def Functional (f : BitVec w → Bool) : Prop := ∀ r s, f (r ^^^ s) = (f r ^^ f s)

/-- The sum of the bits that `mask` selects. -/
def masked (mask r : BitVec w) : Bool := tapped (List.range w) (mask &&& r)

theorem Functional.zero {f : BitVec w → Bool} (h : Functional f) : f 0#w = false := by
  have hsum := h 0#w 0#w
  rwa [BitVec.xor_zero, Bool.xor_self] at hsum

theorem Functional.add {f g : BitVec w → Bool} (hf : Functional f) (hg : Functional g) :
    Functional fun r => f r ^^ g r := by
  intro r s
  dsimp only
  rw [hf, hg]
  cases f r <;> cases f s <;> cases g r <;> cases g s <;> rfl

/-- The bits of `x` below place `n`. -/
def below (x : BitVec w) (n : Nat) : BitVec w := (x.setWidth n).setWidth w

theorem below_succ (x : BitVec w) (n : Nat) :
    below x (n + 1) = below x n ^^^ (if x.getLsbD n then BitVec.twoPow w n else 0#w) := by
  have hbelow : ∀ m j, (below x m).getLsbD j = (decide (j < w) && (decide (j < m) && x.getLsbD j)) :=
    fun m j => by rw [below, BitVec.getLsbD_setWidth, BitVec.getLsbD_setWidth]
  refine BitVec.eq_of_getLsbD_eq fun j hj => ?_
  rw [BitVec.getLsbD_xor, hbelow, hbelow, decide_eq_true hj, Bool.true_and, Bool.true_and]
  by_cases hjn : j = n
  · subst hjn
    cases x.getLsbD j <;> simp [hj]
  · have hlt : j < n + 1 ↔ j < n := by omega
    have hother : (if x.getLsbD n then BitVec.twoPow w n else 0#w).getLsbD j = false := by
      cases x.getLsbD n <;> simp [Ne.symm hjn]
    rw [hother, Bool.xor_false, decide_eq_decide.2 hlt]

/-- Functionals that agree on every single bit agree. -/
theorem Functional.ext {f g : BitVec w → Bool} (hf : Functional f) (hg : Functional g)
    (h : ∀ j < w, f (BitVec.twoPow w j) = g (BitVec.twoPow w j)) (x : BitVec w) : f x = g x := by
  have hbelow : ∀ n ≤ w, f (below x n) = g (below x n) := by
    intro n hn
    induction n with
    | zero =>
      have hzero : below x 0 = 0#w := BitVec.eq_of_getLsbD_eq fun j hj => by simp [below]
      rw [hzero, hf.zero, hg.zero]
    | succ n ih =>
      rw [below_succ, hf, hg, ih (by omega)]
      cases x.getLsbD n with
      | false => simp only [Bool.false_eq_true, if_false, hf.zero, hg.zero]
      | true => simp only [if_true, h n (by omega)]
  have hall : below x w = x := BitVec.eq_of_getLsbD_eq fun j hj => by simp [below, hj]
  have hw := hbelow w (Nat.le_refl w)
  rwa [hall] at hw

theorem functional_tapped (taps : List Nat) : Functional (tapped taps : BitVec w → Bool) := by
  intro r s
  induction taps with
  | nil => rfl
  | cons j taps ih =>
    have hcons : ∀ x : BitVec w, tapped (j :: taps) x = (x.getLsbD j ^^ tapped taps x) :=
      fun _ => rfl
    rw [hcons, hcons, hcons, ih, BitVec.getLsbD_xor]
    cases r.getLsbD j <;> cases s.getLsbD j <;> cases tapped taps r <;> cases tapped taps s <;> rfl

theorem functional_masked (mask : BitVec w) : Functional (masked mask) := by
  intro r s
  have hand : mask &&& (r ^^^ s) = (mask &&& r) ^^^ (mask &&& s) :=
    BitVec.eq_of_getLsbD_eq fun j _ => by
      simp only [BitVec.getLsbD_and, BitVec.getLsbD_xor, Bool.and_xor_distrib_left]
  rw [masked, masked, masked, ← functional_tapped, hand]

theorem tapped_append (taps taps' : List Nat) (r : BitVec w) :
    tapped (taps ++ taps') r = (tapped taps r ^^ tapped taps' r) := by
  induction taps with
  | nil => rw [List.nil_append, tapped, tapped, List.foldr_nil, Bool.false_xor]
  | cons j taps ih =>
    have hcons : ∀ l, tapped (j :: l) r = (r.getLsbD j ^^ tapped l r) := fun _ => rfl
    rw [List.cons_append, hcons, hcons, ih, Bool.xor_assoc]

theorem masked_twoPow (mask : BitVec w) {j : Nat} (hj : j < w) :
    masked mask (BitVec.twoPow w j) = mask.getLsbD j := by
  have hbelow : ∀ n, tapped (List.range n) (mask &&& BitVec.twoPow w j) =
      (decide (j < n) && mask.getLsbD j) := by
    intro n
    induction n with
    | zero => rfl
    | succ n ih =>
      have hlast : tapped [n] (mask &&& BitVec.twoPow w j) = (decide (j = n) && mask.getLsbD j) := by
        by_cases hn : j = n
        · subst hn
          simp [tapped, hj]
        · simp [tapped, hn]
      rw [List.range_succ, tapped_append, ih, hlast]
      by_cases hlt : j < n
      · rw [decide_eq_true hlt, decide_eq_true (Nat.lt_succ_of_lt hlt),
          decide_eq_false (Nat.ne_of_lt hlt), Bool.true_and, Bool.false_and, Bool.xor_false]
      · have hsplit : j < n + 1 ↔ j = n := by omega
        rw [decide_eq_decide.2 hsplit, decide_eq_false hlt, Bool.false_and, Bool.false_xor]
  rw [masked, hbelow, decide_eq_true hj, Bool.true_and]

theorem masked_comm (mask r : BitVec w) : masked mask r = masked r mask := by
  rw [masked, masked, BitVec.and_comm]

/-- The sum of the members of `ms` that `c` selects. -/
def select {v : Nat} (ms : List (BitVec w)) (c : BitVec v) : BitVec w :=
  (List.range ms.length).foldr (fun k sum => (if c.getLsbD k then ms.getD k 0#w else 0#w) ^^^ sum)
    0#w

theorem masked_select {v : Nat} {ms : List (BitVec w)} {r : BitVec w}
    (h : ∀ m ∈ ms, masked m r = false) (c : BitVec v) : masked (select ms c) r = false := by
  have hlinear := functional_masked r
  have hall : ∀ ks : List Nat, (∀ k ∈ ks, k < ms.length) → masked (ks.foldr
      (fun k sum => (if c.getLsbD k then ms.getD k 0#w else 0#w) ^^^ sum) 0#w) r = false := by
    intro ks hks
    rw [masked_comm]
    induction ks with
    | nil => exact hlinear.zero
    | cons k ks ih =>
      rw [List.foldr_cons, hlinear, ih fun j hj => hks j (List.mem_cons_of_mem k hj),
        Bool.xor_false]
      split
      · have hk := hks k List.mem_cons_self
        rw [← masked_comm, List.getD_eq_getElem _ _ hk]
        exact h _ (List.getElem_mem hk)
      · exact hlinear.zero
  exact hall _ fun k hk => List.mem_range.1 hk

/-- Masks of which every single bit is a sum tell all registers from zero. -/
theorem eq_zero_of_masked {v : Nat} {ms : List (BitVec w)} {cs : List (BitVec v)}
    (hspan : ∀ j < w, select ms (cs.getD j 0#v) = BitVec.twoPow w j) {r : BitVec w}
    (h : ∀ m ∈ ms, masked m r = false) : r = 0#w := by
  refine BitVec.eq_of_getLsbD_eq fun j hj => ?_
  rw [← masked_twoPow r hj, masked_comm, ← hspan j hj, masked_select h, BitVec.getLsbD_zero]

/-! A register whose step and output are linear. -/

structure Linear (step : BitVec w → BitVec w) (out : BitVec w → Bool) : Prop where
  step : ∀ r s, step (r ^^^ s) = step r ^^^ step s
  out : Functional out

/-- Each bit of the stream is a functional of the first register. -/
theorem Linear.bit {step : BitVec w → BitVec w} {out : BitVec w → Bool} (h : Linear step out)
    (k : Nat) : Functional fun r => out (step^[k] r) := by
  induction k with
  | zero => exact h.out
  | succ k ih =>
    intro r s
    have hstep : ∀ t, step^[k + 1] t = step^[k] (step t) := Function.iterate_succ_apply step k
    simp only [hstep, h.step]
    exact ih (step r) (step s)

theorem linear_fib (taps : List Nat) :
    Linear (fibStep taps : BitVec (w + 1) → BitVec (w + 1)) (tapped taps) where
  step r s := by
    refine BitVec.eq_of_getLsbD_eq fun j hj => ?_
    rw [BitVec.getLsbD_xor, fibStep, fibStep, fibStep, functional_tapped, BitVec.getLsbD_cons,
      BitVec.getLsbD_cons, BitVec.getLsbD_cons]
    split
    · rfl
    · simp only [BitVec.getLsbD_extractLsb', BitVec.getLsbD_xor]
      cases decide (j < w) <;> rfl
  out := functional_tapped taps

theorem getLsbD_galStep (mask r : BitVec w) (j : Nat) :
    (galStep mask r).getLsbD j = (r.getLsbD (1 + j) ^^ (r.getLsbD 0 && mask.getLsbD j)) := by
  rw [galStep]
  cases h : r.getLsbD 0 <;> simp

theorem linear_gal (mask : BitVec w) : Linear (galStep mask) (fun r => r.getLsbD 0) where
  step r s := by
    refine BitVec.eq_of_getLsbD_eq fun j _ => ?_
    simp only [BitVec.getLsbD_xor, getLsbD_galStep]
    cases r.getLsbD (1 + j) <;> cases s.getLsbD (1 + j) <;> cases r.getLsbD 0 <;>
      cases s.getLsbD 0 <;> cases mask.getLsbD j <;> rfl
  out r s := BitVec.getLsbD_xor

/-- A register comes from what left, with a zero below it or with a one and the mask taken off. -/
theorem galStep_from (mask r : BitVec w) :
    r = galStep mask r <<< 1 ∨ r = (galStep mask r ^^^ mask) <<< 1 ||| 1#w := by
  have hshift : ∀ j, 1 ≤ j → (r >>> 1 <<< 1).getLsbD j = r.getLsbD j := by
    intro j hj
    rw [BitVec.getLsbD_shiftLeft, BitVec.getLsbD_ushiftRight, (by omega : 1 + (j - 1) = j)]
    by_cases hjw : j < w
    · rw [decide_eq_true hjw, decide_eq_false (by omega : ¬j < 1)]
      rfl
    · simp [BitVec.getLsbD_of_ge r j (by omega)]
  cases h0 : r.getLsbD 0 with
  | false =>
    refine .inl (BitVec.eq_of_getLsbD_eq fun j hj => ?_)
    rw [galStep, h0, if_neg Bool.false_ne_true]
    cases j with
    | zero => simp [h0]
    | succ j => exact (hshift (j + 1) (by omega)).symm
  | true =>
    have hmask : (r >>> 1 ^^^ mask) ^^^ mask = r >>> 1 := by
      rw [BitVec.xor_assoc, BitVec.xor_self, BitVec.xor_zero]
    refine .inr (BitVec.eq_of_getLsbD_eq fun j hj => ?_)
    rw [galStep, h0, if_pos rfl, hmask, BitVec.getLsbD_or]
    cases j with
    | zero => simp [h0, hj]
    | succ j => simp [hshift (j + 1) (by omega), BitVec.getLsbD_one]

/-- The registers that run empty are those of a set that no step enters from outside and that runs
empty itself. -/
theorem iterate_reaches_iff {step : BitVec w → BitVec w} {P : BitVec w → Prop} {m : Nat}
    (hzero : P 0#w) (hback : ∀ r, P (step r) → P r) (hfade : ∀ r, P r → step^[m] r = 0#w)
    {r : BitVec w} : (∃ n, step^[n] r = 0#w) ↔ P r := by
  refine ⟨?_, fun h => ⟨m, hfade r h⟩⟩
  rintro ⟨n, hn⟩
  induction n generalizing r with
  | zero =>
    rw [Function.iterate_zero_apply] at hn
    exact hn ▸ hzero
  | succ n ih =>
    rw [Function.iterate_succ_apply] at hn
    exact hback r (ih hn)

end TetraBs.Lfsr
