import TetraBs.Lib.Lfsr
import TetraBs.Lib.Hamming
import TetraBs.Lib.Run

/-! `tetra_reed_muller`: the (30,14) code of the access assignment channel, its encoder register
and the decoder that tries every message. One step is one rising clock edge. -/
namespace TetraBs.Lmac
open TetraBs.Hamming TetraBs.Lfsr TetraBs.ReedMuller TetraBs.Run

structure RmInput where
  encodeDataIn : BitVec 14
  encodeValid : Bool
  decodeDataIn : BitVec 30
  decodeValid : Bool

inductive RmPhase where
  | idle | decode | output
deriving DecidableEq

structure ReedMuller where
  encodeDataOut : BitVec 30
  encodeDone : Bool
  state : RmPhase
  rLatch : BitVec 30
  cand : BitVec 14
  bestM : BitVec 14
  bestDist : Nat
  decodeDataOut : BitVec 14
  decodeDone : Bool
  decodeError : Bool

namespace ReedMuller

def reset : ReedMuller := ⟨0, false, .idle, 0, 0, 0, 31, 0, false, false⟩

/-- `G_ROW00` to `G_ROW13`; row `k` belongs to message bit `k`. -/
def G_ROWS : List (BitVec 30) :=
  [0x33333333, 0x3C3C3C3C, 0x3FC03FC0, 0x3FFFC000, 0x22222222, 0x28282828, 0x2A802A80,
    0x2AAA8000, 0x30303030, 0x33003300, 0x33330000, 0x3C003C00, 0x3C3C0000, 0x3FC00000]

def T_MAX : Nat := 3

def rmEncode (u : BitVec 14) : BitVec 30 :=
  (List.range 14).foldr
    (fun k word => (if u.getLsbD k then G_ROWS.getD k 0 else 0) ^^^ word) 0

/-- At most 30, so the sum of the source's 5-bit terms does not wrap. -/
def popcount30 (v : BitVec 30) : Nat := weight (bits v)

/-- The distance of the candidate `m` from the received word. -/
def distRaw (r : BitVec 30) (m : BitVec 14) : Nat := popcount30 (rmEncode m ^^^ r)

def step (s : ReedMuller) (i : RmInput) : ReedMuller :=
  let better := distRaw s.rLatch s.cand < s.bestDist
  let t := { s with
    encodeDataOut := if i.encodeValid then rmEncode i.encodeDataIn else s.encodeDataOut
    encodeDone := i.encodeValid
    decodeDone := decide (s.state = .output) }
  match s.state with
  | .idle =>
    if i.decodeValid then
      { t with state := .decode, rLatch := i.decodeDataIn, cand := 0, bestDist := 31, bestM := 0 }
    else t
  | .decode =>
    { t with
      state := if s.cand = 0x3FFF then .output else .decode
      cand := s.cand + 1
      bestDist := if better then distRaw s.rLatch s.cand else s.bestDist
      bestM := if better then s.cand else s.bestM }
  | .output =>
    { t with
      state := .idle, decodeDataOut := s.bestM, decodeError := decide (T_MAX < s.bestDist) }

/-- `decode_done` is up, for the message `u` without an error. -/
def Returns (s : ReedMuller) (u : BitVec 14) : Prop :=
  s.decodeDone = true ∧ s.decodeDataOut = u ∧ s.decodeError = false

instance (s : ReedMuller) (u : BitVec 14) : Decidable (s.Returns u) :=
  inferInstanceAs (Decidable (_ ∧ _ ∧ _))

/-! The code. -/

theorem rmEncode_xor (u v : BitVec 14) : rmEncode (u ^^^ v) = rmEncode u ^^^ rmEncode v := by
  unfold rmEncode
  induction List.range 14 with
  | nil => simp
  | cons k ks ih =>
    have hrow : (if (u ^^^ v).getLsbD k then G_ROWS.getD k 0 else 0) =
        (if u.getLsbD k then G_ROWS.getD k 0 else 0) ^^^
          (if v.getLsbD k then G_ROWS.getD k 0 else 0) := by
      rw [BitVec.getLsbD_xor]
      cases u.getLsbD k <;> cases v.getLsbD k <;> simp
    simp only [List.foldr_cons, ih, hrow]
    ac_rfl

/-- The places of a word whose sum is a message bit: the value of the bit's monomial at its own
point, less those of its divisors. -/
def messageMasks : List (BitVec 30) :=
  [0x1, 0x4, 0x40, 0x4000, 0x3, 0xC, 0xC0, 0xC000, 0x15, 0x141, 0x14001, 0x444, 0x44004, 0x404040]

theorem masked_rmEncode (u : BitVec 14) {k : Nat} (hk : k < 14) :
    masked (messageMasks.getD k 0) (rmEncode u) = u.getLsbD k := by
  have hword : Functional fun v : BitVec 14 => masked (messageMasks.getD k 0) (rmEncode v) :=
    fun v w => by simp only [rmEncode_xor, functional_masked _ (rmEncode v) (rmEncode w)]
  have hbit : Functional fun v : BitVec 14 => v.getLsbD k := fun v w => BitVec.getLsbD_xor
  have hsingle : ∀ k < 14, ∀ j < 14, masked (messageMasks.getD k 0) (rmEncode (BitVec.twoPow 14 j)) =
      (BitVec.twoPow 14 j).getLsbD k := by
    decide +kernel
  exact hword.ext hbit (hsingle k hk) u

theorem rmEncode_eq_zero {u : BitVec 14} (h : rmEncode u = 0#30) : u = 0#14 := by
  refine BitVec.eq_of_getLsbD_eq fun k hk => ?_
  rw [← masked_rmEncode u hk, h, (functional_masked _).zero, BitVec.getLsbD_zero]

/-- The two evaluation points that the code leaves out are zeros of every row. -/
def lengthened (w : BitVec 30) : List Bool := false :: false :: bits w

theorem weight_lengthened (w : BitVec 30) : weight (lengthened w) = popcount30 w := by
  simp [lengthened, popcount30]

theorem lengthened_xor (v w : BitVec 30) :
    lengthened (v ^^^ w) = add (lengthened v) (lengthened w) := by
  simp [lengthened, bits_xor, add_cons]

theorem codeword_rows : ∀ k < 14, Codeword 2 5 (lengthened (G_ROWS.getD k 0)) := by
  decide +kernel

theorem codeword_rmEncode (u : BitVec 14) : Codeword 2 5 (lengthened (rmEncode u)) := by
  have hzero : Codeword 2 5 (lengthened 0) := by decide +kernel
  have hrows : ∀ ks : List Nat, (∀ k ∈ ks, k < 14) → Codeword 2 5 (lengthened (ks.foldr
      (fun k word => (if u.getLsbD k then G_ROWS.getD k 0 else 0) ^^^ word) 0)) := by
    intro ks hks
    induction ks with
    | nil => exact hzero
    | cons k ks ih =>
      rw [List.foldr_cons, lengthened_xor]
      refine Codeword.add ?_ (ih fun j hj => hks j (List.mem_cons_of_mem k hj))
      split
      · exact codeword_rows k (hks k List.mem_cons_self)
      · exact hzero
  exact hrows (List.range 14) fun k hk => List.mem_range.1 hk

theorem popcount30_xor_le (v w : BitVec 30) :
    popcount30 (v ^^^ w) ≤ popcount30 v + popcount30 w :=
  weight_xor_le v w

theorem popcount30_eq_zero {v : BitVec 30} (h : popcount30 v = 0) : v = 0 := by
  refine BitVec.eq_of_getLsbD_eq fun k hk => ?_
  have hbit := weight_eq_zero.1 h (v.getLsbD k) (List.mem_map_of_mem (List.mem_range.2 hk))
  simpa using hbit

/-- Two messages are at least eight places apart. -/
theorem rmEncode_apart {u v : BitVec 14} (h : u ≠ v) :
    8 ≤ popcount30 (rmEncode u ^^^ rmEncode v) := by
  rw [← rmEncode_xor, ← weight_lengthened]
  refine (codeword_rmEncode (u ^^^ v)).weight_ge (by decide) ?_
  rw [weight_lengthened]
  intro hzero
  exact h (BitVec.xor_eq_zero_iff.1 (rmEncode_eq_zero (popcount30_eq_zero hzero)))

theorem near_unique {r : BitVec 30} {u v : BitVec 14} (hu : distRaw r u ≤ T_MAX)
    (hv : distRaw r v ≤ T_MAX) : u = v := by
  by_contra hne
  have hapart := rmEncode_apart hne
  have hpath : rmEncode u ^^^ rmEncode v = (rmEncode u ^^^ r) ^^^ (rmEncode v ^^^ r) := by
    have hself : r ^^^ r = 0 := BitVec.xor_self
    calc rmEncode u ^^^ rmEncode v = (rmEncode u ^^^ rmEncode v) ^^^ (r ^^^ r) := by simp
      _ = (rmEncode u ^^^ r) ^^^ (rmEncode v ^^^ r) := by ac_rfl
  have hle := popcount30_xor_le (rmEncode u ^^^ r) (rmEncode v ^^^ r)
  rw [← hpath] at hle
  simp only [distRaw, T_MAX] at hu hv
  omega

/-! The decoder's search. -/

/-- The distance of the `k`-th candidate. -/
def distAt (r : BitVec 30) (k : Nat) : Nat := distRaw r (BitVec.ofNat 14 k)

/-- The best of the first `k` candidates is known. -/
structure Searching (r : BitVec 30) (k : Nat) (s : ReedMuller) : Prop where
  state : s.state = .decode
  rLatch : s.rLatch = r
  cand : s.cand = BitVec.ofNat 14 k
  bestM : s.bestM = BitVec.ofNat 14 (nearest (distAt r) 31 k).1
  bestDist : s.bestDist = (nearest (distAt r) 31 k).2

variable {s : ReedMuller} {i : RmInput} {r : BitVec 30} {k : Nat}

theorem searching_start (hs : s.state = .idle) (hi : i.decodeValid = true) :
    Searching i.decodeDataIn 0 (step s i) := by
  simp only [step, hs, hi, if_true]
  exact ⟨rfl, rfl, rfl, rfl, rfl⟩

theorem Searching.best (h : Searching r k s) (i : RmInput) :
    (step s i).bestM = BitVec.ofNat 14 (nearest (distAt r) 31 (k + 1)).1 ∧
      (step s i).bestDist = (nearest (distAt r) 31 (k + 1)).2 := by
  by_cases hbetter : distAt r k < (nearest (distAt r) 31 k).2
  · have hraw : distRaw r (BitVec.ofNat 14 k) < (nearest (distAt r) 31 k).2 := hbetter
    simp only [step, h.state, h.rLatch, h.cand, h.bestDist, nearest, if_pos hbetter, if_pos hraw]
    exact ⟨trivial, rfl⟩
  · have hraw : ¬ distRaw r (BitVec.ofNat 14 k) < (nearest (distAt r) 31 k).2 := hbetter
    simp only [step, h.state, h.rLatch, h.cand, h.bestM, h.bestDist, nearest, if_neg hbetter,
      if_neg hraw]
    exact ⟨trivial, trivial⟩

theorem Searching.step (h : Searching r k s) (hk : k < 0x3FFF) (i : RmInput) :
    Searching r (k + 1) (ReedMuller.step s i) := by
  have hlast : ¬ BitVec.ofNat 14 k = 0x3FFF := by
    intro heq
    have := congrArg BitVec.toNat heq
    simp at this
    omega
  refine ⟨?_, ?_, ?_, (h.best i).1, (h.best i).2⟩
  · simp only [ReedMuller.step, h.state, h.cand, if_neg hlast]
  · simp [ReedMuller.step, h.state, h.rLatch]
  · simp [ReedMuller.step, h.state, h.cand, BitVec.ofNat_add]

theorem Searching.run (h : Searching r k s) (is : List RmInput) (hk : k + is.length ≤ 0x3FFF) :
    Searching r (k + is.length) (exec ReedMuller.step s is) := by
  induction is generalizing s k with
  | nil => exact h
  | cons i is ih =>
    rw [List.length_cons] at hk ⊢
    have hrest := ih (h.step (by omega) i) (by omega)
    rwa [(by omega : k + 1 + is.length = k + (is.length + 1))] at hrest

theorem Searching.output (h : Searching r 0x3FFF s) (i : RmInput) :
    (ReedMuller.step s i).state = .output := by
  simp [ReedMuller.step, h.state, h.cand]

theorem nearest_lt (r : BitVec 30) (k : Nat) (hk : 0 < k) : (nearest (distAt r) 31 k).1 < k := by
  obtain h | ⟨j, hj, h⟩ := nearest_spec (distAt r) 31 k
  · rw [h]
    exact hk
  · rw [h]
    exact hj

theorem distAt_toNat (r : BitVec 30) (u : BitVec 14) : distAt r u.toNat = distRaw r u := by
  simp [distAt]

theorem nearest_message_iff (r : BitVec 30) (u : BitVec 14) :
    BitVec.ofNat 14 (nearest (distAt r) 31 0x4000).1 = u ∧
      (nearest (distAt r) 31 0x4000).2 ≤ T_MAX ↔ distRaw r u ≤ T_MAX := by
  have hone : ∀ i < 0x4000, ∀ j < 0x4000, distAt r i ≤ T_MAX → distAt r j ≤ T_MAX → i = j := by
    intro i hi j hj hdi hdj
    have hsame := congrArg BitVec.toNat (near_unique hdi hdj)
    simpa [Nat.mod_eq_of_lt hi, Nat.mod_eq_of_lt hj] using hsame
  have hlt := nearest_lt r 0x4000 (by decide)
  rw [← distAt_toNat, ← nearest_within_iff _ _ u.isLt (by decide : T_MAX < 31) hone]
  refine and_congr_left fun _ => ?_
  rw [← BitVec.toNat_inj, BitVec.toNat_ofNat, Nat.mod_eq_of_lt hlt]

theorem returns_output_iff {t : ReedMuller} (ht : t.state = .output) (i : RmInput)
    (u : BitVec 14) : (ReedMuller.step t i).Returns u ↔ t.bestM = u ∧ t.bestDist ≤ T_MAX := by
  simp [Returns, step, ht]

/-- The answer to a word comes after all candidates and one cycle more: it is the message `u` without
an error exactly if the codeword of `u` is within `T_MAX` of the word. -/
theorem returns_iff (hs : s.state = .idle) (hi : i.decodeValid = true) {is : List RmInput}
    (his : is.length = 0x4001) (u : BitVec 14) :
    (exec step s (i :: is)).Returns u ↔ distRaw i.decodeDataIn u ≤ T_MAX := by
  obtain ⟨js, last, done, rfl⟩ : ∃ js last done, is = js ++ [last] ++ [done] := by
    refine ⟨is.take 0x3FFF, is[0x3FFF], is[0x4000], ?_⟩
    rw [List.take_append_getElem, List.take_append_getElem, List.take_of_length_le (by omega)]
  have hlen : js.length = 0x3FFF := by simpa using his
  have hsearch := (searching_start hs hi).run js (by omega)
  rw [hlen, Nat.zero_add] at hsearch
  obtain ⟨hbest, hdist⟩ := hsearch.best last
  have hout := hsearch.output last
  rw [exec, exec_snoc, exec_snoc, returns_output_iff hout, hbest, hdist]
  exact nearest_message_iff i.decodeDataIn u

end ReedMuller
end TetraBs.Lmac
