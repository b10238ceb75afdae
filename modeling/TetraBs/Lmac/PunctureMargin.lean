import TetraBs.Lib.ErrorMargin
import TetraBs.Lmac.BlockEncoder

/-! How many channel errors the rate 2/3 code of the block encoders survives: a nearest code word
is the one that was sent if the errors keep a distance of eleven code bits. -/
namespace TetraBs.Lmac
open TetraBs.ConvCode TetraBs.ErrorMargin TetraBs.Hamming

/-! The code is linear. -/

theorem tapSum_add (taps : List Nat) {h k : List Bool} (hlen : h.length = k.length) :
    tapSum taps (add h k) = (tapSum taps h ^^ tapSum taps k) := by
  have hbit : ∀ d : Nat, (add h k).getD d false = (h.getD d false ^^ k.getD d false) := by
    intro d
    by_cases hd : d < h.length
    · rw [List.getD_eq_getElem _ _ (by rw [add_length]; omega), List.getD_eq_getElem _ _ hd,
        List.getD_eq_getElem _ _ (by omega)]
      exact List.getElem_zipWith
    · rw [List.getD_eq_default _ _ (by rw [add_length]; omega),
        List.getD_eq_default _ _ (by omega), List.getD_eq_default _ _ (by omega)]
      rfl
  induction taps with
  | nil => rfl
  | cons d taps ih =>
    simp only [tapSum, List.foldr_cons] at ih ⊢
    rw [ih, hbit, Bool.xor_assoc, Bool.xor_assoc, Bool.xor_left_comm (k.getD d false)]

theorem emit_add (g1 g2 : List Nat) {h k : List Bool} (hlen : h.length = k.length)
    (b b' : Bool) : emit g1 g2 (add h k) (b ^^ b') = add (emit g1 g2 h b) (emit g1 g2 k b') := by
  have hsum : ∀ g, tapSum g ((b ^^ b') :: add h k) =
      (tapSum g (b :: h) ^^ tapSum g (b' :: k)) := fun g =>
    tapSum_add g (h := b :: h) (k := b' :: k) (congrArg (· + 1) hlen)
  have hadd : (add h k).length = h.length := by
    rw [add_length]
    omega
  rw [emit, emit, emit, hadd, ← hlen, hsum, hsum]
  split
  · rfl
  · rfl

theorem encode_add (g1 g2 : List Nat) {h k bs bs' : List Bool} (hlen : h.length = k.length)
    (hbs : bs.length = bs'.length) :
    encode g1 g2 (add h k) (add bs bs') = add (encode g1 g2 h bs) (encode g1 g2 k bs') := by
  induction bs generalizing h k bs' with
  | nil =>
    rw [List.eq_nil_of_length_eq_zero hbs.symm]
    rfl
  | cons b bs ih =>
    cases bs' with
    | nil => exact absurd hbs (Nat.succ_ne_zero _)
    | cons b' bs' =>
      have hrest := ih (h := b :: h) (k := b' :: k) (congrArg (· + 1) hlen) (Nat.succ.inj hbs)
      rw [add_cons] at hrest ⊢
      rw [encode, encode, encode, emit_add g1 g2 hlen, hrest]
      exact (add_append (by rw [emit_length, emit_length, hlen])).symm

theorem add_assoc (u v w : List Bool) : add (add u v) w = add u (add v w) := by
  induction u generalizing v w with
  | nil => rfl
  | cons b u ih =>
    cases v with
    | nil => rfl
    | cons c v =>
      cases w with
      | nil => rfl
      | cons d w => rw [add_cons, add_cons, add_cons, add_cons, ih, Bool.xor_assoc]

/-! The code as a trellis: the parity of the place and the last four bits, the newest lowest. -/

def lastBits (h : BitVec 4) : List Bool := (List.range 4).map h.getLsbD

def trellisOut (s : Bool × BitVec 4) (b : Bool) : List Bool :=
  if s.1 then [tapSum ConvStage.g1Taps (b :: lastBits s.2)]
  else [tapSum ConvStage.g1Taps (b :: lastBits s.2), tapSum ConvStage.g2Taps (b :: lastBits s.2)]

def trellisNext (s : Bool × BitVec 4) (b : Bool) : Bool × BitVec 4 :=
  (!s.1, (s.2.extractLsb' 0 3).concat b)

/-- A history as a state. -/
structure Recalls (s : Bool × BitVec 4) (hist : List Bool) : Prop where
  parity : s.1 = decide (hist.length % 2 = 1)
  bit : ∀ d < 4, s.2.getLsbD d = hist.getD d false

theorem recalls_nil : Recalls (false, 0#4) [] := ⟨rfl, fun _ _ => BitVec.getLsbD_zero⟩

variable {s : Bool × BitVec 4} {hist : List Bool}

theorem Recalls.next (h : Recalls s hist) (b : Bool) : Recalls (trellisNext s b) (b :: hist) where
  parity := by
    rw [trellisNext, h.parity, List.length_cons]
    rcases Nat.mod_two_eq_zero_or_one hist.length with h2 | h2
    · rw [h2, Nat.add_mod, h2]
      rfl
    · rw [h2, Nat.add_mod, h2]
      rfl
  bit d hd := by
    cases d with
    | zero => simp [trellisNext]
    | succ d =>
      have hlt : d < 3 := by omega
      simp only [trellisNext, BitVec.getLsbD_concat_succ, BitVec.getLsbD_extractLsb', hlt,
        decide_true, Bool.true_and, Nat.zero_add, List.getD_cons_succ]
      exact h.bit d (by omega)

theorem Recalls.tapSum (h : Recalls s hist) (taps : List Nat) (htaps : ∀ d ∈ taps, d ≤ 4)
    (b : Bool) :
    ConvCode.tapSum taps (b :: lastBits s.2) = ConvCode.tapSum taps (b :: hist) := by
  have hbit : ∀ d ≤ 4, (b :: lastBits s.2).getD d false = (b :: hist).getD d false := by
    intro d hd
    cases d with
    | zero => rfl
    | succ d =>
      rw [List.getD_cons_succ, List.getD_cons_succ, ← h.bit d (by omega), lastBits,
        List.getD_eq_getElem _ _ (by rw [List.length_map, List.length_range]; omega)]
      simp
  induction taps with
  | nil => rfl
  | cons d taps ih =>
    simp only [ConvCode.tapSum, List.foldr_cons] at ih ⊢
    rw [ih fun k hk => htaps k (List.mem_cons_of_mem d hk), hbit d (htaps d List.mem_cons_self)]

theorem Recalls.out (h : Recalls s hist) (b : Bool) :
    trellisOut s b = emit ConvStage.g1Taps ConvStage.g2Taps hist b := by
  rw [trellisOut, h.tapSum ConvStage.g1Taps (by decide), h.tapSum ConvStage.g2Taps (by decide),
    h.parity, emit]
  rcases Nat.mod_two_eq_zero_or_one hist.length with h2 | h2
  · rw [h2]
    rfl
  · rw [h2]
    rfl

theorem Recalls.word (h : Recalls s hist) (bits : List Bool) :
    word trellisOut trellisNext s bits =
      encode ConvStage.g1Taps ConvStage.g2Taps hist bits := by
  induction bits generalizing s hist with
  | nil => rfl
  | cons b bits ih => rw [ErrorMargin.word, encode, h.out, ih (h.next b)]

/-! The potential: what a path that differs by these four bits has lost at least, by the number of
code bits since the last error. -/

def margins (odd : Bool) : List (List Int) :=
  if odd then
    [[0, 0, 0, 0, 2, 0, 2, 2, 1, 1, 1, 1, 1, 1, 1, 1],
      [0, 0, 0, 0, 0, 2, 2, 2, 1, 1, 1, 1, 1, 1, 1, 1],
      [0, 0, 0, 0, 2, 2, 0, 2, 1, 1, 1, 1, 1, 1, 1, 1],
      [0, 2, 2, 2, 2, 2, 0, 0, 1, 1, 1, 1, 1, 1, 1, 1],
      [0, 0, 2, 2, 2, 2, 2, 0, 1, 1, 1, 1, 1, 1, 1, 1],
      [0, 2, 2, 2, 2, 2, 2, 0, 1, 1, 1, 1, 1, 1, 1, 1],
      [0, 2, 2, 2, 2, 2, 2, 2, 1, 1, 1, 1, 1, 1, 1, 1],
      [0, 2, 2, 2, 2, 2, 2, 0, 3, 3, 1, 1, 1, 1, 1, 1],
      [0, 2, 2, 2, 2, 2, 2, 2, 3, 3, 1, 1, 1, 1, 1, 1],
      [0, 2, 2, 2, 2, 2, 2, 2, 3, 3, 1, 1, 1, 1, 3, 3],
      [0, 2, 2, 2, 2, 2, 2, 2, 3, 3, 1, 1, 1, 1, 1, 1]]
  else
    [[0, -1, 1, 2, 0, 1, 1, 0, 0, 1, 1, 0, 0, 1, 1, 0],
      [0, 1, 1, 0, 0, 1, 1, 0, 2, 1, 1, 0, 2, 1, 1, 2],
      [0, 1, 1, 0, 0, 1, 1, 0, 0, 1, 1, 2, 2, 1, 1, 2],
      [0, 1, 1, 0, 0, 1, 1, 0, 2, 1, 1, 2, 0, 1, 1, 2],
      [0, 1, 1, 2, 2, 1, 1, 2, 2, 1, 1, 2, 0, 1, 1, 0],
      [0, 1, 1, 0, 2, 1, 1, 2, 2, 1, 1, 2, 2, 1, 1, 0],
      [0, 1, 1, 2, 2, 1, 1, 2, 2, 1, 1, 2, 2, 1, 1, 0],
      [0, 1, 1, 2, 2, 1, 1, 2, 2, 1, 1, 2, 2, 1, 1, 2],
      [0, 1, 3, 2, 2, 1, 1, 2, 2, 1, 1, 2, 2, 1, 1, 0],
      [0, 1, 3, 2, 2, 1, 1, 2, 2, 1, 1, 2, 2, 1, 1, 2],
      [0, 1, 3, 2, 2, 1, 1, 2, 2, 1, 1, 2, 2, 1, 1, 2]]

def margin (g : Fin 11) (s : Bool × BitVec 4) : Int :=
  ((margins s.1).getD g.val []).getD s.2.toNat 0

def agree (s : Bool × BitVec 4) : Bool := s.2 == 0#4

/-- One edge under one pattern of errors. -/
def edgeOk (g : Fin 11) (s : Bool × BitVec 4) (b : Bool) (err : List Bool) : Bool :=
  match allows (gap 10) g err with
  | none => true
  | some g' =>
    margin g' (trellisNext s b) + weight err +
        (if !agree s && agree (trellisNext s b) then 1 else 0) ≤
      margin g s + weight (add (trellisOut s b) err)

theorem edgeOk_even : ∀ (h : BitVec 4) (b : Bool) (g : Fin 11) (e e' : Bool),
    edgeOk g (false, h) b [e, e'] = true := by
  decide +kernel

theorem edgeOk_odd : ∀ (h : BitVec 4) (b : Bool) (g : Fin 11) (e : Bool),
    edgeOk g (true, h) b [e] = true := by
  decide +kernel

theorem margin_home : ∀ (g : Fin 11) (odd : Bool), margin g (odd, 0#4) = 0 := by decide

/-- The potential is a margin for errors that are eleven code bits apart. -/
theorem margin_spec : Margin trellisOut trellisNext agree (gap 10) margin where
  leave := by
    rintro ⟨odd, h⟩
    revert odd h
    decide
  stay := by
    rintro ⟨odd, h⟩
    revert odd h
    decide
  home := by
    rintro g ⟨odd, h⟩ hs
    have hzero : h = 0#4 := by simpa [agree] using hs
    rw [hzero]
    exact margin_home g odd
  edge := by
    rintro g g' ⟨odd, h⟩ b err hlen hadm
    have hok : edgeOk g (odd, h) b err = true := by
      cases odd with
      | false =>
        obtain ⟨e, e', rfl⟩ := List.length_eq_two.1 hlen
        exact edgeOk_even h b g e e'
      | true =>
        obtain ⟨e, rfl⟩ := List.length_eq_one_iff.1 hlen
        exact edgeOk_odd h b g e
    rw [edgeOk, hadm] at hok
    exact of_decide_eq_true hok

/-! What it is for. -/

theorem tail_agree : ∀ s, agree ([false, false, false, false].foldl trellisNext s) = true := by
  rintro ⟨odd, h⟩
  revert odd h
  decide

/-- The tail of a block. -/
abbrev tailed (bits : List Bool) : List Bool := bits ++ [false, false, false, false]

/-- The code word of a block with its tail. -/
def codeWord (bits : List Bool) : List Bool :=
  encode ConvStage.g1Taps ConvStage.g2Taps [] (tailed bits)

theorem codeWord_length (bits : List Bool) :
    (codeWord bits).length = bits.length + 4 + (bits.length + 5) / 2 := by
  rw [codeWord, encode_length, tailed, List.length_append, List.length_nil]
  rfl

theorem add_mem_true {u v : List Bool} (hlen : u.length = v.length) (hne : u ≠ v) :
    true ∈ add u v := by
  induction u generalizing v with
  | nil => exact absurd (List.eq_nil_of_length_eq_zero hlen.symm).symm hne
  | cons b u ih =>
    cases v with
    | nil => exact absurd hlen (Nat.succ_ne_zero _)
    | cons c v =>
      rw [add_cons]
      by_cases hbc : b = c
      · have htail : u ≠ v := fun he => hne (by rw [hbc, he])
        exact List.mem_cons_of_mem _ (ih (Nat.succ.inj hlen) htail)
      · have hbit : (b ^^ c) = true := by
          revert hbc
          cases b <;> cases c <;> decide
        rw [hbit]
        exact List.mem_cons_self

/-- Every other code word is farther from what is received than the one that was sent. -/
theorem codeWord_nearest {u v : List Bool} (hlen : u.length = v.length) (hne : u ≠ v)
    {err : List Bool} (herr : err.length = (codeWord u).length) (hsp : Spaced 11 err) :
    weight err < weight (add (codeWord v) (add (codeWord u) err)) := by
  have hdiff : add (codeWord v) (codeWord u) =
      word trellisOut trellisNext (false, 0#4) (add (tailed v) (tailed u)) := by
    rw [recalls_nil.word, codeWord, codeWord,
      ← encode_add ConvStage.g1Taps ConvStage.g2Taps (h := []) (k := []) rfl (by simp [hlen])]
    rfl
  have hmem : true ∈ add (tailed v) (tailed u) :=
    add_mem_true (by simp [hlen]) fun he => hne (List.append_cancel_right he).symm
  have hend : agree ((add (tailed v) (tailed u)).foldl trellisNext (false, 0#4)) = true := by
    rw [tailed, tailed, add_append hlen.symm, List.foldl_append]
    exact tail_agree _
  obtain ⟨g, hg⟩ := hsp.allows
  rw [← add_assoc, hdiff]
  refine margin_spec.weight_lt rfl hmem hend ?_ hg
  rw [herr, ← hdiff, add_length, codeWord_length, codeWord_length, hlen]
  exact (Nat.min_self _).symm

end TetraBs.Lmac
