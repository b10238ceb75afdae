import Mathlib.Algebra.Group.Nat.Defs
import Mathlib.Data.List.Basic
import Mathlib.Data.List.GetD
import Mathlib.Order.Nat

/-! Byte lists read as bit strings, most significant bit of a byte first. Bits past the end
read as zero. -/
namespace TetraBs.Bits

abbrev Byte := BitVec 8

def bitAt (buf : List Byte) (i : Nat) : Bool := (buf.getD (i / 8) 0).getLsbD (7 - i % 8)

/-- The bits of positions `s`, ..., `s + n - 1`. -/
def window (buf : List Byte) (s n : Nat) : List Bool :=
  (List.range n).map fun k => bitAt buf (s + k)

/-- The low `n` bits of a value, most significant first. -/
def msbBits {w : Nat} (v : BitVec w) (n : Nat) : List Bool :=
  (List.range n).map fun k => v.getLsbD (n - 1 - k)

@[simp] theorem window_length (buf : List Byte) (s n : Nat) : (window buf s n).length = n := by
  simp [window]

@[simp] theorem msbBits_length {w : Nat} (v : BitVec w) (n : Nat) :
    (msbBits v n).length = n := by
  simp [msbBits]

@[simp] theorem window_zero (buf : List Byte) (s : Nat) : window buf s 0 = [] := rfl

theorem window_add (buf : List Byte) (s m n : Nat) :
    window buf s (m + n) = window buf s m ++ window buf (s + m) n := by
  simp [window, List.range_add, Nat.add_assoc]

theorem window_succ (buf : List Byte) (s n : Nat) :
    window buf s (n + 1) = bitAt buf s :: window buf (s + 1) n := by
  rw [Nat.add_comm n 1, window_add]
  rfl

theorem window_congr {b c : List Byte} {s t n : Nat}
    (h : ∀ k, k < n → bitAt b (s + k) = bitAt c (t + k)) : window b s n = window c t n := by
  unfold window
  refine List.map_congr_left fun k hk => h k (List.mem_range.1 hk)

theorem window_eq_append {b : List Byte} {s n : Nat} {u v : List Bool}
    (h : window b s n = u ++ v) :
    window b s u.length = u ∧ window b (s + u.length) v.length = v := by
  have hlen := congrArg List.length h
  rw [window_length, List.length_append] at hlen
  rw [hlen, window_add] at h
  exact List.append_inj h (by simp)

theorem msbBits_inj {w n : Nat} {v u : BitVec w} (h : msbBits v n = msbBits u n) {j : Nat}
    (hj : j < n) : v.getLsbD j = u.getLsbD j := by
  have := congrArg (fun l => l[n - 1 - j]?) h
  have hlt : n - 1 - j < n := by omega
  have heq : n - 1 - (n - 1 - j) = j := by omega
  simpa [msbBits, hlt, heq] using this

theorem bitAt_set (buf : List Byte) (b : Nat) (v : Byte) (i : Nat) (hb : b < buf.length) :
    bitAt (buf.set b v) i = if i / 8 = b then v.getLsbD (7 - i % 8) else bitAt buf i := by
  unfold bitAt
  by_cases h : i / 8 = b
  · subst h
    simp [hb]
  · simp [h, Ne.symm h]

theorem bitAt_cons (b : Byte) (bs : List Byte) (i : Nat) :
    bitAt (b :: bs) i = if i < 8 then b.getLsbD (7 - i) else bitAt bs (i - 8) := by
  unfold bitAt
  by_cases h : i < 8
  · rw [if_pos h, (by omega : i / 8 = 0), (by omega : i % 8 = i)]
    rfl
  · rw [if_neg h, (by omega : i / 8 = (i - 8) / 8 + 1), (by omega : i % 8 = (i - 8) % 8)]
    rfl

theorem window_cons_byte (b : Byte) (bs : List Byte) (n : Nat) :
    window (b :: bs) 0 (8 + n) = msbBits b 8 ++ window bs 0 n := by
  rw [window_add]
  have hhead : window (b :: bs) 0 8 = msbBits b 8 := by
    refine List.map_congr_left fun k hk => ?_
    have := List.mem_range.1 hk
    rw [Nat.zero_add, bitAt_cons, if_pos this, (by omega : 8 - 1 - k = 7 - k)]
  have hrest : window (b :: bs) (0 + 8) n = window bs 0 n := by
    refine window_congr fun k _ => ?_
    rw [bitAt_cons, if_neg (by omega), (by omega : 0 + 8 + k - 8 = 0 + k)]
  rw [hhead, hrest]

theorem window_append_bytes (bs cs : List Byte) {m : Nat} (hm : bs.length = m) (n : Nat) :
    window (bs ++ cs) 0 (8 * m + n) = window bs 0 (8 * m) ++ window cs 0 n := by
  subst hm
  induction bs with
  | nil => simp
  | cons b bs ih =>
    have hlen : 8 * (b :: bs).length = 8 + 8 * bs.length := by
      rw [List.length_cons]
      omega
    rw [hlen, Nat.add_assoc, List.cons_append, window_cons_byte, window_cons_byte, ih,
      List.append_assoc]

/-- `c` is `b` with the bits of positions `s ≤ i < e` replaced by `f i`. -/
structure Wrote (f : Nat → Bool) (s e : Nat) (b c : List Byte) : Prop where
  length_eq : c.length = b.length
  bits : ∀ i, bitAt c i = if s ≤ i ∧ i < e then f i else bitAt b i

theorem Wrote.refl (f : Nat → Bool) (s : Nat) (b : List Byte) : Wrote f s s b b := by
  refine ⟨rfl, fun i => ?_⟩
  rw [if_neg (by omega)]

theorem Wrote.trans {f : Nat → Bool} {s m e : Nat} {a b c : List Byte} (h : Wrote f s m a b)
    (h' : Wrote f m e b c) (hsm : s ≤ m) (hme : m ≤ e) : Wrote f s e a c := by
  refine ⟨h'.length_eq.trans h.length_eq, fun i => ?_⟩
  rw [h'.bits, h.bits]
  by_cases h1 : m ≤ i ∧ i < e
  · rw [if_pos h1, if_pos (by omega)]
  · rw [if_neg h1]
    by_cases h2 : s ≤ i ∧ i < m
    · rw [if_pos h2, if_pos (by omega)]
    · rw [if_neg h2, if_neg (by omega)]

theorem Wrote.congr {f g : Nat → Bool} {s e : Nat} {b c : List Byte} (h : Wrote f s e b c)
    (hfg : ∀ i, s ≤ i → i < e → f i = g i) : Wrote g s e b c := by
  refine ⟨h.length_eq, fun i => ?_⟩
  rw [h.bits]
  by_cases hi : s ≤ i ∧ i < e
  · rw [if_pos hi, if_pos hi, hfg i hi.1 hi.2]
  · rw [if_neg hi, if_neg hi]

theorem Wrote.window_eq {f : Nat → Bool} {s e : Nat} {b c : List Byte} (h : Wrote f s e b c) :
    window c s (e - s) = (List.range (e - s)).map fun k => f (s + k) := by
  refine List.map_congr_left fun k hk => ?_
  have := List.mem_range.1 hk
  rw [h.bits, if_pos (by omega)]

/-- What was outside the written range is unchanged. -/
theorem Wrote.window_frame {f : Nat → Bool} {s e t n : Nat} {b c : List Byte}
    (h : Wrote f s e b c) (hd : t + n ≤ s ∨ e ≤ t) : window c t n = window b t n := by
  refine window_congr fun k hk => ?_
  rw [h.bits, if_neg (by omega)]

/-- Replacing the bits of `mask` inside one byte. -/
theorem wrote_byte {buf : List Byte} {cur take : Nat} {p : Byte} {f : Nat → Bool}
    (hlen : cur / 8 < buf.length) (hfit : cur % 8 + take ≤ 8)
    (hp : ∀ j, j < 8 → p.getLsbD j =
      if 8 - cur % 8 - take ≤ j ∧ j < 8 - cur % 8 then f (cur / 8 * 8 + (7 - j))
      else (buf.getD (cur / 8) 0).getLsbD j) :
    Wrote f cur (cur + take) buf (buf.set (cur / 8) p) := by
  refine ⟨by simp, fun i => ?_⟩
  rw [bitAt_set _ _ _ _ hlen]
  by_cases hi : i / 8 = cur / 8
  · rw [if_pos hi, hp _ (by omega)]
    by_cases hr : cur ≤ i ∧ i < cur + take
    · rw [if_pos (by omega), if_pos hr]
      congr 1
      omega
    · rw [if_neg (by omega), if_neg hr, bitAt, hi]
  · rw [if_neg hi, if_neg (by omega)]

/-- `v` holds the bits `s ≤ i < e` of `buf`, the last one in its lowest bit. -/
def Holds {w : Nat} (v : BitVec w) (buf : List Byte) (s e : Nat) : Prop :=
  ∀ j, j < w → v.getLsbD j = (decide (j < e - s) && bitAt buf (e - 1 - j))

theorem Holds.append {w : Nat} {v u : BitVec w} {buf : List Byte} {s m e : Nat}
    (hv : Holds v buf s m) (hu : Holds u buf m e) (hsm : s ≤ m) (hme : m ≤ e) :
    Holds (v <<< (e - m) ||| u) buf s e := by
  intro j hj
  simp only [BitVec.getLsbD_or, BitVec.getLsbD_shiftLeft, hj, decide_true, Bool.true_and]
  rw [hu j hj]
  by_cases hlt : j < e - m
  · simp [hlt, (by omega : j < e - s)]
  · rw [hv (j - (e - m)) (by omega)]
    have heq : m - 1 - (j - (e - m)) = e - 1 - j := by omega
    by_cases hs : j < e - s
    · simp [hlt, hs, heq, (by omega : j - (e - m) < m - s)]
    · have hge : ¬j - (e - m) < m - s := by omega
      simp [hlt, hs, hge]

theorem holds_zero {w : Nat} (buf : List Byte) (s : Nat) : Holds (0 : BitVec w) buf s s := by
  intro j _
  simp

theorem Holds.msbBits_eq {w : Nat} {v : BitVec w} {buf : List Byte} {s n : Nat}
    (h : Holds v buf s (s + n)) (hn : n ≤ w) : msbBits v n = window buf s n := by
  refine List.map_congr_left fun k hk => ?_
  have := List.mem_range.1 hk
  rw [h _ (by omega)]
  have heq : s + n - 1 - (n - 1 - k) = s + k := by omega
  simp [heq, (by omega : n - 1 - k < n)]

/-- A value that fits in `n` bits is determined by them. -/
theorem Holds.eq_of_msbBits {w : Nat} {v u : BitVec w} {buf : List Byte} {s n : Nat}
    (h : Holds v buf s (s + n)) (hn : n ≤ w) (hu : u.toNat < 2 ^ n)
    (hw : window buf s n = msbBits u n) : v = u := by
  refine BitVec.eq_of_getLsbD_eq fun j hj => ?_
  by_cases hjn : j < n
  · exact msbBits_inj ((h.msbBits_eq hn).trans hw) hjn
  · rw [h j hj, BitVec.getLsbD, Nat.testBit_lt_two_pow (Nat.lt_of_lt_of_le hu
      (Nat.pow_le_pow_right (by decide) (Nat.le_of_not_lt hjn)))]
    simp [hjn]

/-! Bit by bit access, for code that does not work on whole bytes. -/

/-- The bits `s`, ..., `s + n - 1` shifted into a value one after the other. -/
def readBits (w : Nat) (buf : List Byte) (s n : Nat) : BitVec w :=
  (List.range n).foldl (fun v k => v <<< 1 ||| if bitAt buf (s + k) then 1 else 0) 0

def bitMask (i : Nat) : Byte := (1 : Byte) <<< (7 - i % 8)

def setBit (buf : List Byte) (i : Nat) (b : Bool) : List Byte :=
  let byte := buf.getD (i / 8) 0
  buf.set (i / 8) (if b then byte ||| bitMask i else byte &&& ~~~bitMask i)

/-- Write the low `n` bits of `v` from position `s` on. -/
def writeBits {w : Nat} (buf : List Byte) (s : Nat) (v : BitVec w) (n : Nat) : List Byte :=
  (List.range n).foldl (fun b k => setBit b (s + k) (v.getLsbD (n - 1 - k))) buf

/-- Set in `dst`, from position `d` on, the ones among `n` bits of `src`. -/
def orBits (src : List Byte) (s : Nat) (dst : List Byte) (d n : Nat) : List Byte :=
  (List.range n).foldl (fun b k => if bitAt src (s + k) then setBit b (d + k) true else b) dst

theorem holds_readBits (w : Nat) (buf : List Byte) (s n : Nat) :
    Holds (readBits w buf s n) buf s (s + n) := by
  unfold readBits
  induction n with
  | zero => exact holds_zero buf s
  | succ n ih =>
    rw [List.range_succ, List.foldl_concat]
    have hbit : Holds (if bitAt buf (s + n) then 1 else 0 : BitVec w) buf (s + n) (s + n + 1) := by
      intro j hj
      cases j with
      | zero => by_cases h : bitAt buf (s + n) <;> simp [h, hj]
      | succ j => by_cases h : bitAt buf (s + n) <;> simp [h]
    have happ := ih.append hbit (Nat.le_add_right s n) (Nat.le_succ _)
    rwa [(by omega : s + n + 1 - (s + n) = 1)] at happ

theorem bitMask_getLsbD (i j : Nat) (hj : j < 8) :
    (bitMask i).getLsbD j = decide (j = 7 - i % 8) := by
  unfold bitMask
  rw [BitVec.getLsbD_shiftLeft]
  by_cases h : j = 7 - i % 8
  · simp [h, (by omega : 7 - i % 8 < 8)]
  · by_cases hlt : j < 7 - i % 8
    · simp [h, hlt]
    · have : j - (7 - i % 8) ≠ 0 := by omega
      simp [h, hlt, hj, this]

theorem wrote_setBit {buf : List Byte} {i : Nat} (hi : i / 8 < buf.length) (b : Bool) :
    Wrote (fun _ => b) i (i + 1) buf (setBit buf i b) := by
  apply wrote_byte hi (by omega)
  intro j hj
  have hmask := bitMask_getLsbD i j hj
  have hone : (8 - i % 8 - 1 ≤ j ∧ j < 8 - i % 8) ↔ j = 7 - i % 8 := by omega
  rw [if_congr hone rfl rfl]
  cases b with
  | false =>
    rw [if_neg Bool.false_ne_true, BitVec.getLsbD_and, BitVec.getLsbD_not, hmask]
    by_cases h : j = 7 - i % 8
    · simp [h]
    · simp [h, hj]
  | true =>
    rw [if_pos rfl, BitVec.getLsbD_or, hmask]
    by_cases h : j = 7 - i % 8
    · simp [h]
    · simp [h]

theorem wrote_writeBits {w : Nat} {buf : List Byte} {s n : Nat} (v : BitVec w)
    (h : s + n ≤ 8 * buf.length) :
    Wrote (fun i => v.getLsbD (n - 1 - (i - s))) s (s + n) buf (writeBits buf s v n) := by
  have hbegins : ∀ m, m ≤ n → Wrote (fun i => v.getLsbD (n - 1 - (i - s))) s (s + m) buf
      ((List.range m).foldl (fun b k => setBit b (s + k) (v.getLsbD (n - 1 - k))) buf) := by
    intro m hm
    induction m with
    | zero => exact Wrote.refl _ _ _
    | succ m ih =>
      rw [List.range_succ, List.foldl_concat]
      have hw := ih (by omega)
      refine hw.trans ((wrote_setBit ?_ _).congr fun i hi hi' => ?_) (by omega) (by omega)
      · rw [hw.length_eq]
        omega
      · rw [(by omega : i - s = m)]
  exact hbegins n (le_refl n)

theorem window_writeBits {w : Nat} {buf : List Byte} {s n : Nat} (v : BitVec w)
    (h : s + n ≤ 8 * buf.length) : window (writeBits buf s v n) s n = msbBits v n := by
  have := (wrote_writeBits v h).window_eq
  rw [(by omega : s + n - s = n)] at this
  rw [this]
  refine List.map_congr_left fun k _ => ?_
  rw [(by omega : s + k - s = k)]

/-- Over zeros, setting the ones of the source copies it. -/
theorem wrote_orBits (src : List Byte) {dst : List Byte} (s : Nat) {d n : Nat}
    (h : d + n ≤ 8 * dst.length)
    (hz : ∀ i, d ≤ i → bitAt dst i = false) :
    Wrote (fun i => bitAt src (s + (i - d))) d (d + n) dst (orBits src s dst d n) := by
  unfold orBits
  induction n with
  | zero => exact Wrote.refl _ _ _
  | succ n ih =>
    rw [List.range_succ, List.foldl_concat]
    have hw := ih (by omega)
    refine hw.trans ?_ (by omega) (by omega)
    by_cases hb : bitAt src (s + n)
    · rw [if_pos hb]
      refine (wrote_setBit ?_ true).congr fun i hi hi' => ?_
      · rw [hw.length_eq]
        omega
      · rw [(by omega : i - d = n), hb]
    · rw [if_neg hb]
      refine ⟨rfl, fun i => ?_⟩
      by_cases hi : d + n ≤ i ∧ i < d + (n + 1)
      · rw [if_pos hi, (by omega : i - d = n), hw.bits, if_neg (by omega), hz i (by omega)]
        simpa using (Bool.eq_false_iff.2 hb).symm
      · rw [if_neg hi]

theorem bitAt_zeros (n i : Nat) : bitAt (List.replicate n 0) i = false := by
  unfold bitAt
  rw [List.getD_eq_getElem?_getD, List.getElem?_replicate]
  split <;> simp

theorem bitAt_take (bytes : List Byte) {n i : Nat} (h : i < 8 * n) :
    bitAt (bytes.take n) i = bitAt bytes i := by
  unfold bitAt
  have hlt : i / 8 < n := by omega
  simp [List.getD_eq_getElem?_getD, hlt]

theorem window_take (bytes : List Byte) {m n : Nat} (h : m ≤ 8 * n) :
    window (bytes.take n) 0 m = window bytes 0 m :=
  window_congr fun _ hk => bitAt_take bytes (by omega)

end TetraBs.Bits

/-! Registers written one bit at a time, and registers filled from the top. Nothing here is
about TETRA. -/
namespace TetraBs.BitRegister
open TetraBs.Bits
variable {n : Nat}

/-- `x[k] <= b`. -/
def writeBit (x : BitVec n) (k : Nat) (b : Bool) : BitVec n :=
  if b then x ||| BitVec.twoPow n k else x &&& ~~~BitVec.twoPow n k

theorem getLsbD_writeBit (x : BitVec n) (k : Nat) (b : Bool) {j : Nat} (hj : j < n) :
    (writeBit x k b).getLsbD j = if j = k then b else x.getLsbD j := by
  rw [writeBit]
  by_cases hjk : j = k
  · subst hjk
    cases b <;> simp [hj]
  · cases b <;> simp [hj, hjk]

/-- The register with the bits `f 0`, ..., `f (n - 1)`, lowest first. -/
def written (n : Nat) (f : Nat → Bool) : BitVec n :=
  (List.range n).foldl (fun x k => writeBit x k (f k)) 0

theorem getLsbD_written (f : Nat → Bool) {j : Nat} (hj : j < n) :
    (written n f).getLsbD j = f j := by
  have hbelow : ∀ m, j < m →
      ((List.range m).foldl (fun x k => writeBit x k (f k)) (0 : BitVec n)).getLsbD j = f j := by
    intro m hm
    induction m with
    | zero => exact absurd hm (Nat.not_lt_zero j)
    | succ m ih =>
      rw [List.range_succ, List.foldl_concat, getLsbD_writeBit _ _ _ hj]
      by_cases hlast : j = m
      · rw [if_pos hlast, hlast]
      · rw [if_neg hlast]
        exact ih (by omega)
  exact hbelow n hj

theorem eq_written {x : BitVec n} {f : Nat → Bool} (h : ∀ j < n, x.getLsbD j = f j) :
    x = written n f :=
  BitVec.eq_of_getLsbD_eq fun j hj => by rw [h j hj, getLsbD_written f hj]

/-- The top bits of `x`, highest first, are `bs`. -/
structure Filled (x : BitVec n) (bs : List Bool) : Prop where
  fits : bs.length ≤ n
  bits : ∀ j < bs.length, x.getLsbD (n - 1 - j) = bs.getD j false

theorem filled_nil (x : BitVec n) : Filled x [] :=
  ⟨Nat.zero_le n, fun j hj => absurd hj (Nat.not_lt_zero j)⟩

/-- The next bit below the filled part. -/
theorem Filled.push {x : BitVec n} {bs : List Bool} (h : Filled x bs) (hlt : bs.length < n)
    (b : Bool) : Filled (writeBit x (n - 1 - bs.length) b) (bs ++ [b]) where
  fits := by
    rw [List.length_append]
    exact hlt
  bits j hj := by
    rw [List.length_append, List.length_singleton] at hj
    rw [getLsbD_writeBit _ _ _ (by omega)]
    by_cases hlast : j = bs.length
    · subst hlast
      rw [if_pos rfl, List.getD_append_right _ _ _ _ (Nat.le_refl _), Nat.sub_self]
      rfl
    · rw [if_neg (by omega), h.bits j (by omega), List.getD_append _ _ _ _ (by omega)]

theorem Filled.msbBits_eq {x : BitVec n} {bs : List Bool} (h : Filled x bs)
    (hfull : bs.length = n) : msbBits x n = bs := by
  refine List.ext_getElem (by rw [msbBits_length, hfull]) fun j hj hj' => ?_
  have hbit := h.bits j hj'
  rw [List.getD_eq_getElem _ _ hj'] at hbit
  simpa [msbBits] using hbit

end TetraBs.BitRegister
