import TetraBs.Lib.Bits

/-! Bit-serial cyclic redundancy checks with a reflected shift register: the register loses
its lowest bit at every step and the polynomial is xored in when the feedback bit is set. -/
namespace TetraBs.Crc
open TetraBs.Bits
variable {w : Nat}

def feed (poly r : BitVec w) (b : Bool) : BitVec w :=
  if b != r.getLsbD 0 then (r >>> 1) ^^^ poly else r >>> 1

def run (poly r : BitVec w) (bits : List Bool) : BitVec w := bits.foldl (feed poly) r

/-- The bits of a register, lowest first. -/
def lsbBits (v : BitVec w) : List Bool := (List.range w).map v.getLsbD

/-- The check value sent with a message: preset to ones, inverted at the end. -/
def crc (poly : BitVec w) (bits : List Bool) : BitVec w :=
  ~~~run poly (BitVec.allOnes w) bits

/-- The register a receiver is left with after an intact message and its check bits. -/
def residue (poly : BitVec w) : BitVec w := run poly (BitVec.allOnes w) (List.replicate w false)

@[simp] theorem lsbBits_length (v : BitVec w) : (lsbBits v).length = w := by
  simp [lsbBits]

theorem run_append (poly r : BitVec w) (u v : List Bool) :
    run poly r (u ++ v) = run poly (run poly r u) v := by
  simp [run]

/-- The difference of two registers fed with the same bit evolves as if fed with 0. -/
theorem feed_xor (poly r s : BitVec w) (b : Bool) :
    feed poly r b ^^^ feed poly s b = feed poly (r ^^^ s) false := by
  have hshift : (r ^^^ s) >>> 1 = (r >>> 1) ^^^ (s >>> 1) := BitVec.ushiftRight_xor_distrib r s 1
  have hlow : (r ^^^ s).getLsbD 0 = (r.getLsbD 0 ^^ s.getLsbD 0) := BitVec.getLsbD_xor
  unfold feed
  rw [hshift, hlow]
  cases b <;> cases r.getLsbD 0 <;> cases s.getLsbD 0 <;>
    simp [BitVec.xor_assoc, BitVec.xor_comm poly]

theorem run_xor (poly r s : BitVec w) (bits : List Bool) :
    run poly r bits ^^^ run poly s bits =
      run poly (r ^^^ s) (List.replicate bits.length false) := by
  induction bits generalizing r s with
  | nil => rfl
  | cons b bits ih =>
    have := ih (feed poly r b) (feed poly s b)
    rw [feed_xor] at this
    simpa [run, List.replicate_succ] using this

/-- A register fed with its own low bits runs empty. -/
theorem run_own_bits (poly r : BitVec w) (n : Nat) :
    run poly r ((List.range n).map r.getLsbD) = r >>> n := by
  induction n with
  | zero => simp [run]
  | succ n ih =>
    rw [List.range_succ, List.map_append, run_append, ih]
    simp [run, feed, BitVec.shiftRight_add]

theorem run_lsbBits (poly r : BitVec w) : run poly r (lsbBits r) = 0 := by
  rw [lsbBits, run_own_bits]
  exact BitVec.ushiftRight_eq_zero (Nat.le_refl w)

theorem run_lsbBits_eq (poly r x : BitVec w) :
    run poly r (lsbBits x) = run poly (r ^^^ x) (List.replicate w false) := by
  have h := run_xor poly r x (lsbBits x)
  rw [run_lsbBits, lsbBits_length] at h
  simpa using h

theorem feed_false_inj {poly : BitVec w} (hp : poly.getLsbD (w - 1) = true) {r s : BitVec w}
    (h : feed poly r false = feed poly s false) : r = s := by
  have hbit : ∀ x : BitVec w, (feed poly x false).getLsbD (w - 1) = x.getLsbD 0 := by
    intro x
    have hx : (x >>> 1).getLsbD (w - 1) = false := by
      rw [BitVec.getLsbD_ushiftRight]
      exact BitVec.getLsbD_of_ge _ _ (by omega)
    rw [feed]
    cases h0 : x.getLsbD 0 <;> simp [hx, hp]
  have hlow : r.getLsbD 0 = s.getLsbD 0 := by rw [← hbit r, ← hbit s, h]
  have hshift : r >>> 1 = s >>> 1 := by
    unfold feed at h
    rw [hlow] at h
    split at h
    · have := congrArg (· ^^^ poly) h
      simpa [BitVec.xor_assoc] using this
    · exact h
  refine BitVec.eq_of_getLsbD_eq fun j hj => ?_
  cases j with
  | zero => exact hlow
  | succ j =>
    have := congrArg (fun x => x.getLsbD j) hshift
    simpa [Nat.add_comm 1 j] using this

theorem run_zeros_inj {poly : BitVec w} (hp : poly.getLsbD (w - 1) = true) (n : Nat)
    {r s : BitVec w} (h : run poly r (List.replicate n false) =
      run poly s (List.replicate n false)) : r = s := by
  induction n generalizing r s with
  | zero => exact h
  | succ n ih => exact feed_false_inj hp (ih h)

/-- The receiver's residue test accepts exactly the check value, sent lowest bit first. -/
theorem run_eq_residue_iff {poly : BitVec w} (hp : poly.getLsbD (w - 1) = true)
    (msg : List Bool) (x : BitVec w) :
    run poly (BitVec.allOnes w) (msg ++ lsbBits x) = residue poly ↔ x = crc poly msg := by
  rw [run_append, run_lsbBits_eq, residue, crc]
  generalize run poly (BitVec.allOnes w) msg = r
  constructor
  · intro h
    have hr := run_zeros_inj hp w h
    have := congrArg (r ^^^ ·) hr
    rw [← BitVec.xor_allOnes, ← this, ← BitVec.xor_assoc, BitVec.xor_self, BitVec.zero_xor]
  · intro h
    rw [h, ← BitVec.xor_allOnes, ← BitVec.xor_assoc, BitVec.xor_self, BitVec.zero_xor]

/-! Errors: the register is off by what the flipped bits leave in an empty register. -/

theorem feed_flip (poly r s : BitVec w) (b c : Bool) :
    feed poly (r ^^^ s) (b ^^ c) = feed poly r b ^^^ feed poly s c := by
  have hshift : (r ^^^ s) >>> 1 = (r >>> 1) ^^^ (s >>> 1) := BitVec.ushiftRight_xor_distrib r s 1
  have hlow : (r ^^^ s).getLsbD 0 = (r.getLsbD 0 ^^ s.getLsbD 0) := BitVec.getLsbD_xor
  unfold feed
  rw [hshift, hlow]
  cases b <;> cases c <;> cases r.getLsbD 0 <;> cases s.getLsbD 0 <;>
    simp [BitVec.xor_assoc, BitVec.xor_comm poly]

theorem run_flip (poly r s : BitVec w) {bits e : List Bool} (h : e.length = bits.length) :
    run poly (r ^^^ s) (List.zipWith (· ^^ ·) bits e) = run poly r bits ^^^ run poly s e := by
  induction bits generalizing r s e with
  | nil =>
    rw [List.length_eq_zero_iff.1 h]
    rfl
  | cons b bits ih =>
    cases e with
    | nil => cases h
    | cons c e =>
      have hrest := ih (feed poly r b) (feed poly s c) (Nat.succ.inj h)
      rw [← feed_flip] at hrest
      exact hrest

theorem crc_flip (poly : BitVec w) {bits e : List Bool} (h : e.length = bits.length) :
    crc poly (List.zipWith (· ^^ ·) bits e) = crc poly bits ^^^ run poly 0 e := by
  have hrun := run_flip poly (BitVec.allOnes w) 0 h
  have hpreset : BitVec.allOnes w ^^^ 0 = BitVec.allOnes w := BitVec.xor_zero
  rw [hpreset] at hrun
  rw [crc, crc, hrun, ← BitVec.xor_allOnes, ← BitVec.xor_allOnes, BitVec.xor_assoc,
    BitVec.xor_comm (run poly 0 e), BitVec.xor_assoc]

theorem run_zeros (poly : BitVec w) (n : Nat) : run poly 0 (List.replicate n false) = 0 := by
  induction n with
  | zero => rfl
  | succ n ih =>
    have hfeed : feed poly 0 false = 0 := by simp [feed]
    rw [List.replicate_succ]
    exact (congrArg (run poly · _) hfeed).trans ih

theorem eq_zeros {l : List Bool} (h : true ∉ l) : l = List.replicate l.length false := by
  refine List.eq_replicate_of_mem fun b hb => ?_
  cases b with
  | false => rfl
  | true => exact absurd hb h

theorem exists_lsbBits {l : List Bool} (h : l.length = w) : ∃ x : BitVec w, lsbBits x = l := by
  subst h
  refine ⟨BitVec.ofBoolListLE l, List.ext_getElem (by simp) fun i hi hl => ?_⟩
  simp only [lsbBits, List.getElem_map, List.getElem_range, BitVec.getLsbD_ofBoolListLE]
  rw [List.getD_eq_getElem?_getD, List.getElem?_eq_getElem hl, Option.getD_some]

theorem run_short_ne_zero {poly : BitVec w} (hp : poly.getLsbD (w - 1) = true) {u : List Bool}
    (hlen : u.length ≤ w) (hne : true ∈ u) : run poly 0 u ≠ 0 := by
  intro hzero
  obtain ⟨x, hx⟩ := exists_lsbBits (w := w) (l := u ++ List.replicate (w - u.length) false)
    (by rw [List.length_append, List.length_replicate]; omega)
  have hrun : run poly x (List.replicate w false) = run poly 0 (List.replicate w false) := by
    have hempty : (0 : BitVec w) ^^^ x = x := BitVec.zero_xor
    have hown := run_lsbBits_eq poly 0 x
    rw [hempty, hx, run_append, hzero, run_zeros] at hown
    rw [← hown, run_zeros]
  have hxzero : x = 0 := run_zeros_inj hp w hrun
  have hmem : true ∈ lsbBits x := hx ▸ List.mem_append_left _ hne
  rw [hxzero, lsbBits] at hmem
  obtain ⟨k, -, hk⟩ := List.mem_map.1 hmem
  simp at hk

/-- The flipped bits lie within `n` consecutive ones. -/
def Burst (n : Nat) (e : List Bool) : Prop :=
  ∃ a u b, e = List.replicate a false ++ u ++ List.replicate b false ∧ u.length ≤ n

theorem Burst.take {n : Nat} {e : List Bool} (h : Burst n e) (k : Nat) : Burst n (e.take k) := by
  obtain ⟨a, u, b, rfl, hlen⟩ := h
  refine ⟨min k a, u.take (k - a), min b (k - a - u.length), ?_, ?_⟩
  · simp [List.take_append, List.take_replicate, Nat.min_comm, Nat.sub_sub]
  · exact (List.length_take_le' _ _).trans hlen

/-- A burst no longer than the register leaves a trace in it. -/
theorem Burst.run_ne_zero {poly : BitVec w} (hp : poly.getLsbD (w - 1) = true) {e : List Bool}
    (h : Burst w e) (hne : true ∈ e) : run poly 0 e ≠ 0 := by
  obtain ⟨a, u, b, rfl, hlen⟩ := h
  have hu : true ∈ u := by simpa using hne
  rw [run_append, run_append, run_zeros]
  exact fun hzero => run_short_ne_zero hp hlen hu
    (run_zeros_inj hp b (hzero.trans (run_zeros poly b).symm))

theorem msbBits_eq_lsbBits_reverse (v : BitVec w) : msbBits v w = lsbBits v.reverse := by
  refine List.map_congr_left fun k hk => ?_
  have := List.mem_range.1 hk
  rw [BitVec.getLsbD_reverse, BitVec.getMsbD]
  simp [this]

end TetraBs.Crc
