import Mathlib.Data.List.Forall2
import TetraBs.Webui.Envelope

/-! A query string as the pairs it stands for, and the object `qs_to_args_json` makes of them. -/
namespace TetraBs.Webui
open TetraBs.Bits TetraBs.CStr TetraBs.JsonText

/-! The pairs of a query. -/

/-- The reading of a form: a plus sign is a space, a percent sign in front of two hexadecimal
digits is the byte they say, and everything else is itself. -/
inductive FormDecoded : List Byte → List Byte → Prop where
  | nil : FormDecoded [] []
  | plus {t u : List Byte} : FormDecoded t u → FormDecoded (byte '+' :: t) (32 :: u)
  | escape {h l : Byte} {x y : Nat} {t u : List Byte} : xdigit h = some x → xdigit l = some y →
      FormDecoded t u → FormDecoded (byte '%' :: h :: l :: t) (BitVec.ofNat 8 (16 * x + y) :: u)
  | plain {b : Byte} {t u : List Byte} : b ≠ byte '+' →
      (b = byte '%' → ∀ h l v, t = h :: l :: v → xdigit h = none ∨ xdigit l = none) →
      FormDecoded t u → FormDecoded (b :: t) (b :: u)

theorem urlDecodeInplace_plus (t : List Byte) :
    urlDecodeInplace (byte '+' :: t) = 32 :: urlDecodeInplace t := by
  match t with
  | [] | [_] => rfl
  | h :: l :: t => rw [urlDecodeInplace, if_pos rfl]

theorem urlDecodeInplace_escape {h l : Byte} {x y : Nat} {t : List Byte}
    (hx : xdigit h = some x) (hy : xdigit l = some y) :
    urlDecodeInplace (byte '%' :: h :: l :: t) =
      BitVec.ofNat 8 (16 * x + y) :: urlDecodeInplace t := by
  have hplus : byte '%' ≠ byte '+' := by decide
  rw [urlDecodeInplace, if_neg hplus]
  simp only [hx, hy, if_true]

theorem urlDecodeInplace_plain {b : Byte} {t : List Byte} (hplus : b ≠ byte '+')
    (hpercent : b = byte '%' → ∀ h l v, t = h :: l :: v → xdigit h = none ∨ xdigit l = none) :
    urlDecodeInplace (b :: t) = b :: urlDecodeInplace t := by
  match t with
  | [] => simp [urlDecodeInplace, hplus]
  | [_] => simp [urlDecodeInplace, hplus]
  | h :: l :: t =>
    rw [urlDecodeInplace, if_neg hplus]
    cases hx : xdigit h with
    | none => rfl
    | some x =>
      cases hy : xdigit l with
      | none => rfl
      | some y =>
        by_cases hb : b = byte '%'
        · obtain h' | h' := hpercent hb h l t rfl
          · exact absurd (hx.symm.trans h') (Option.some_ne_none x)
          · exact absurd (hy.symm.trans h') (Option.some_ne_none y)
        · simp only [hb, if_false]

theorem formDecoded_urlDecodeInplace (t : List Byte) : FormDecoded t (urlDecodeInplace t) := by
  induction hn : t.length using Nat.strong_induction_on generalizing t with
  | _ n ih =>
    match t with
    | [] => exact .nil
    | b :: t =>
      have hrest := ih t.length (by rw [← hn, List.length_cons]; omega) t rfl
      by_cases hplus : b = byte '+'
      · rw [hplus, urlDecodeInplace_plus]
        exact .plus hrest
      by_cases hescape : ∃ h l v x y, b = byte '%' ∧ t = h :: l :: v ∧ xdigit h = some x ∧
          xdigit l = some y
      · obtain ⟨h, l, v, x, y, rfl, rfl, hx, hy⟩ := hescape
        rw [urlDecodeInplace_escape hx hy]
        exact .escape hx hy (ih v.length (by rw [← hn]; simp; omega) v rfl)
      · have hpercent : b = byte '%' →
            ∀ h l v, t = h :: l :: v → xdigit h = none ∨ xdigit l = none := by
          intro hb h l v ht
          cases hx : xdigit h with
          | none => exact Or.inl rfl
          | some x =>
            cases hy : xdigit l with
            | none => exact Or.inr rfl
            | some y => exact absurd ⟨h, l, v, x, y, hb, ht, hx, hy⟩ hescape
        rw [urlDecodeInplace_plain hplus hpercent]
        exact .plain hplus hpercent hrest

/-- There is no other reading. -/
theorem FormDecoded.eq {t u : List Byte} (h : FormDecoded t u) : u = urlDecodeInplace t := by
  induction h with
  | nil => rfl
  | plus h ih => rw [urlDecodeInplace_plus, ih]
  | escape hx hy h ih => rw [urlDecodeInplace_escape hx hy, ih]
  | plain hplus hpercent h ih => rw [urlDecodeInplace_plain hplus hpercent, ih]

/-- The pieces between ampersands that are not empty. -/
def queryPieces (qs : List Byte) : List (List Byte) :=
  (qs.splitOn (byte '&')).filter fun piece => piece ≠ []

def rawName (piece : List Byte) : List Byte := piece.takeWhile fun b => b ≠ byte '='

def rawValue (piece : List Byte) : List Byte := (piece.dropWhile fun b => b ≠ byte '=').tail

/-- The pair a piece stands for. -/
def FormPair (piece : List Byte) (m : List Byte × List Byte) : Prop :=
  FormDecoded (rawName piece) m.1 ∧ FormDecoded (rawValue piece) m.2

def pairOf (piece : List Byte) : List Byte × List Byte :=
  (urlDecodeInplace (rawName piece), urlDecodeInplace (rawValue piece))

theorem formPair_pairOf (piece : List Byte) : FormPair piece (pairOf piece) :=
  ⟨formDecoded_urlDecodeInplace _, formDecoded_urlDecodeInplace _⟩

theorem FormPair.eq {piece : List Byte} {m : List Byte × List Byte} (h : FormPair piece m) :
    m = pairOf piece := Prod.ext h.1.eq h.2.eq

/-- A text C and JSON can hold. -/
def IsText (t : List Byte) : Prop := 0 ∉ t ∧ Utf8.Valid t

/-- The pieces that are arguments: all but the op. -/
def isArg (piece : List Byte) : Bool := rawName piece ≠ ascii "op"

def argPieces (qs : List Byte) : List (List Byte) := (queryPieces qs).filter isArg

/-- The pair fits the four buffers it passes through. -/
def InBuffers (piece : List Byte) : Prop :=
  (rawName piece).length < 64 ∧ (rawValue piece).length < 256 ∧
    ∀ m, FormPair piece m → (escape m.1).length < 128 ∧ (escape m.2).length < 512

theorem inBuffers_iff (piece : List Byte) :
    InBuffers piece ↔ (rawName piece).length < 64 ∧ (rawValue piece).length < 256 ∧
      (escape (pairOf piece).1).length < 128 ∧ (escape (pairOf piece).2).length < 512 := by
  constructor
  · intro ⟨hname, hvalue, hescaped⟩
    exact ⟨hname, hvalue, hescaped _ (formPair_pairOf piece)⟩
  · intro ⟨hname, hvalue, hescaped⟩
    refine ⟨hname, hvalue, fun m hm => ?_⟩
    rw [hm.eq]
    exact hescaped

def argsText (ms : List (List Byte × List Byte)) : List Byte :=
  openBrace :: (stringsText ms ++ [closeBrace])

/-! Splitting. -/

theorem strchr_append {b : Byte} {t : List Byte} (ht : b ∉ t) (u : List Byte) :
    strchr b (t ++ b :: u) = some t.length := by
  induction t with
  | nil => simp [strchr, List.findIdx?_cons]
  | cons c t ih =>
    have hc : c ≠ b := fun h => ht (h ▸ List.mem_cons_self)
    have ht' := ih fun h => ht (List.mem_cons_of_mem c h)
    rw [strchr] at ht' ⊢
    rw [List.cons_append, List.findIdx?_cons, ht']
    simp [hc]

theorem strchr_none {b : Byte} {t : List Byte} (ht : b ∉ t) : strchr b t = none := by
  rw [strchr, List.findIdx?_eq_none_iff]
  intro c hc
  exact decide_eq_false fun h => ht (h ▸ hc)

theorem piece_eq {piece : List Byte} (h : byte '=' ∈ piece) :
    piece = rawName piece ++ byte '=' :: rawValue piece := by
  induction piece with
  | nil => cases h
  | cons b piece ih =>
    by_cases hb : b = byte '='
    · simp [rawName, rawValue, hb]
    · have hrest := ih ((List.mem_cons.1 h).resolve_left fun heq => hb heq.symm)
      have hname : rawName (b :: piece) = b :: rawName piece := by simp [rawName, hb]
      have hvalue : rawValue (b :: piece) = rawValue piece := by simp [rawValue, hb]
      rw [hname, hvalue, List.cons_append, ← hrest]

theorem rawName_keyless (piece : List Byte) : byte '=' ∉ rawName piece := by
  intro h
  have hne := List.mem_takeWhile_imp h
  simp at hne

/-- The query up to its first ampersand and behind it. -/
theorem splitOn_cases (qs : List Byte) :
    byte '&' ∉ qs ∧ qs.splitOn (byte '&') = [qs] ∨
      ∃ piece rest, byte '&' ∉ piece ∧ qs = piece ++ byte '&' :: rest ∧
        qs.splitOn (byte '&') = piece :: rest.splitOn (byte '&') := by
  by_cases h : byte '&' ∈ qs
  · obtain ⟨piece, rest, rfl, hpiece⟩ := List.eq_append_cons_of_mem h
    exact Or.inr ⟨piece, rest, hpiece, rfl,
      List.splitOn_append_cons_self_of_not_mem hpiece rest⟩
  · exact Or.inl ⟨h, List.splitOn_eq_singleton h⟩

/-! The loop. -/

/-- What the loop makes of the pieces that are left when `ms` is written. -/
def ArgsFrom (cap : Nat) (ms : List (List Byte × List Byte)) (pieces : List (List Byte))
    (result : Option (List Byte)) : Prop :=
  let args := pieces.filter isArg
  let text := argsText (ms ++ args.map pairOf)
  ((∀ piece ∈ args, InBuffers piece) → text.length < cap → result = some text) ∧
    (((∃ piece ∈ args, ¬InBuffers piece) ∨ cap ≤ text.length) → result = none)

theorem argsText_length (ms : List (List Byte × List Byte)) :
    (argsText ms).length = (stringsText ms).length + 2 := by
  simp [argsText]

theorem closeArgs_from (cap : Nat) (ms : List (List Byte × List Byte)) :
    ArgsFrom cap ms [] (closeArgs cap (openBrace :: stringsText ms)) := by
  have htext : argsText ms = openBrace :: stringsText ms ++ [closeBrace] := rfl
  simp only [ArgsFrom, List.filter_nil, List.map_nil, List.append_nil, argsText_length, closeArgs,
    List.length_cons]
  constructor
  · intro _ hfit
    rw [if_neg (by omega), htext]
  · rintro (⟨piece, hpiece, -⟩ | hlong)
    · cases hpiece
    · rw [if_pos (by omega)]

theorem stringsText_le (ms more : List (List Byte × List Byte)) :
    (stringsText ms).length ≤ (stringsText (ms ++ more)).length := by
  induction more generalizing ms with
  | nil => rw [List.append_nil]
  | cons m more ih =>
    have hone : (stringsText ms).length ≤ (stringsText (ms ++ [m])).length := by
      rw [stringsText_concat, List.length_append]
      exact Nat.le_add_right _ _
    have hmore := ih (ms ++ [m])
    rw [List.append_assoc, List.singleton_append] at hmore
    exact Nat.le_trans hone hmore

/-- One step of the pieces: the op is left out, and another pair that fits is written. -/
theorem ArgsFrom.skip {cap : Nat} {ms : List (List Byte × List Byte)} {piece : List Byte}
    {pieces : List (List Byte)} {result : Option (List Byte)} (h : ArgsFrom cap ms pieces result)
    (hop : isArg piece = false) : ArgsFrom cap ms (piece :: pieces) result := by
  rw [ArgsFrom, List.filter_cons_of_neg (by rw [hop]; exact Bool.false_ne_true)]
  exact h

theorem ArgsFrom.write {cap : Nat} {ms : List (List Byte × List Byte)} {piece : List Byte}
    {pieces : List (List Byte)} {result : Option (List Byte)}
    (h : ArgsFrom cap (ms ++ [pairOf piece]) pieces result) (harg : isArg piece = true)
    (hin : InBuffers piece) : ArgsFrom cap ms (piece :: pieces) result := by
  rw [ArgsFrom, List.append_assoc, List.singleton_append] at h
  rw [ArgsFrom, List.filter_cons_of_pos harg, List.map_cons]
  constructor
  · intro hall hfit
    exact h.1 (fun q hq => hall q (List.mem_cons_of_mem _ hq)) hfit
  · rintro (⟨q, hq, hout⟩ | hlong)
    · obtain rfl | hq := List.mem_cons.1 hq
      · exact absurd hin hout
      · exact h.2 (Or.inl ⟨q, hq, hout⟩)
    · exact h.2 (Or.inr hlong)

theorem ArgsFrom.refuse {cap : Nat} {ms : List (List Byte × List Byte)} {piece : List Byte}
    (pieces : List (List Byte)) (harg : isArg piece = true)
    (hout : ¬InBuffers piece ∨ cap ≤ (stringsText (ms ++ [pairOf piece])).length + 1) :
    ArgsFrom cap ms (piece :: pieces) none := by
  have hmem : piece ∈ (piece :: pieces).filter isArg :=
    List.mem_filter.2 ⟨List.mem_cons_self, harg⟩
  constructor
  · intro hall hfit
    obtain hout | hlong := hout
    · exact absurd (hall piece hmem) hout
    · have hle := stringsText_le (ms ++ [pairOf piece]) ((pieces.filter isArg).map pairOf)
      rw [List.append_assoc, List.singleton_append] at hle
      rw [List.filter_cons_of_pos harg, List.map_cons, argsText_length] at hfit
      omega
  · intro _
    rfl

/-- What follows a piece: the rest behind its ampersand, or the end. -/
def afterPiece (cap : Nat) (out : List Byte) (first : Bool) (p : List Byte) :
    Option (List Byte) :=
  match strchr (byte '&') p with
  | none => closeArgs cap out
  | some amp => qsToArgsLoop cap out first (p.drop (amp + 1))

theorem qsToArgsLoop_some {cap : Nat} {out : List Byte} {first : Bool} {p : List Byte} {eq : Nat}
    (heq : strchr (byte '=') p = some eq) :
    qsToArgsLoop cap out first p =
      if eq = 2 ∧ p.take 2 = ascii "op" then afterPiece cap out first p
      else
        match qsPair p eq (strchr (byte '&') p) with
        | none => none
        | some m =>
          if cap - out.length ≤ (pairText first m).length then none
          else afterPiece cap (out ++ pairText first m) false p := by
  rw [qsToArgsLoop]
  simp only [heq]
  cases hamp : strchr (byte '&') p <;> simp only [afterPiece, hamp] <;> rfl

theorem piece_parts {piece name value : List Byte} (back : List Byte)
    (h : piece = name ++ byte '=' :: value) :
    piece.length = name.length + 1 + value.length ∧
      (piece ++ back).take name.length = name ∧
      ((piece ++ back).take piece.length).drop (name.length + 1) = value := by
  refine ⟨?_, ?_, ?_⟩
  · rw [h, List.length_append, List.length_cons]
    omega
  · rw [h, List.append_assoc, List.take_left]
  · rw [List.take_left, h, ← List.drop_drop, List.drop_left, List.drop_one, List.tail_cons]

/-- A pair of the query whose name or value does not fit ends the loop. -/
theorem qsPair_piece {piece back : List Byte} {amp : Option Nat} (hkey : byte '=' ∈ piece)
    (hamp : amp.getD (piece ++ back).length = piece.length)
    (htext : 0 ∉ (pairOf piece).1 ∧ 0 ∉ (pairOf piece).2) :
    (InBuffers piece → qsPair (piece ++ back) (rawName piece).length amp =
        some (escape (pairOf piece).1, escape (pairOf piece).2)) ∧
      (¬InBuffers piece → qsPair (piece ++ back) (rawName piece).length amp = none) := by
  obtain ⟨hlen, hname, hvalue⟩ := piece_parts back (piece_eq hkey)
  have hname' : (CString.of (urlDecodeInplace (rawName piece))).val = (pairOf piece).1 :=
    CString.of_eq htext.1
  have hvalue' : (CString.of (urlDecodeInplace (rawValue piece))).val = (pairOf piece).2 :=
    CString.of_eq htext.2
  rw [inBuffers_iff, qsPair]
  simp only [hamp, hname, hvalue, jsonEscape_eq, hname', hvalue']
  constructor
  · rintro ⟨h1, h2, h3, h4⟩
    rw [if_neg (by omega)]
    simp only [h3, h4, if_true]
  · intro hout
    by_cases hlong : 64 ≤ (rawName piece).length ∨ piece.length < (rawName piece).length + 1 ∨
        256 ≤ piece.length - ((rawName piece).length + 1)
    · rw [if_pos hlong]
    · rw [if_neg hlong]
      by_cases h3 : (escape (pairOf piece).1).length < 128
      · have h4 : ¬(escape (pairOf piece).2).length < 512 := by
          intro h4
          exact hout ⟨by omega, by omega, h3, h4⟩
        simp only [h3, h4, if_true, if_false]
      · simp only [h3, if_false]

theorem take_two_eq_op {piece back : List Byte} (hkey : byte '=' ∈ piece) :
    ((rawName piece).length = 2 ∧ (piece ++ back).take 2 = ascii "op") ↔ isArg piece = false := by
  obtain ⟨-, hname, -⟩ := piece_parts back (piece_eq hkey)
  rw [isArg, decide_eq_false_iff_not, not_not]
  constructor
  · intro ⟨hlen, htake⟩
    rw [← hname, hlen, htake]
  · intro hop
    have hlen : (rawName piece).length = 2 := by rw [hop]; rfl
    rw [hlen, hop] at hname
    exact ⟨hlen, hname⟩

/-- One round of the loop. -/
theorem qsToArgsLoop_step {cap : Nat} {piece back : List Byte} {pieces : List (List Byte)}
    (hkey : byte '=' ∈ piece)
    (hamp : (strchr (byte '&') (piece ++ back)).getD (piece ++ back).length = piece.length)
    (htext : isArg piece = true → 0 ∉ (pairOf piece).1 ∧ 0 ∉ (pairOf piece).2)
    (hnext : ∀ ms, ArgsFrom cap ms pieces
      (afterPiece cap (openBrace :: stringsText ms) (decide (ms = [])) (piece ++ back)))
    (ms : List (List Byte × List Byte)) :
    ArgsFrom cap ms (piece :: pieces)
      (qsToArgsLoop cap (openBrace :: stringsText ms) (decide (ms = [])) (piece ++ back)) := by
  have heq : strchr (byte '=') (piece ++ back) = some (rawName piece).length := by
    conv_lhs => rw [piece_eq hkey, List.append_assoc, List.cons_append]
    exact strchr_append (rawName_keyless piece) _
  rw [qsToArgsLoop_some heq]
  by_cases hop : isArg piece = false
  · rw [if_pos ((take_two_eq_op hkey).2 hop)]
    exact (hnext ms).skip hop
  have harg : isArg piece = true := eq_true_of_ne_false hop
  obtain ⟨hpair, hnopair⟩ := qsPair_piece hkey hamp (htext harg)
  rw [if_neg fun h => hop ((take_two_eq_op hkey).1 h)]
  by_cases hin : InBuffers piece
  · have hout : openBrace :: stringsText ms ++
        pairText (decide (ms = [])) (escape (pairOf piece).1, escape (pairOf piece).2) =
        openBrace :: stringsText (ms ++ [pairOf piece]) := by
      rw [List.cons_append, ← stringsText_concat]
    have hlen := congrArg List.length hout
    rw [List.length_append, List.length_cons, List.length_cons] at hlen
    rw [hpair hin]
    simp only [hout, List.length_cons]
    by_cases hfull : cap - ((stringsText ms).length + 1) ≤ (pairText (decide (ms = []))
        (escape (pairOf piece).1, escape (pairOf piece).2)).length
    · rw [if_pos hfull]
      exact ArgsFrom.refuse pieces harg (Or.inr (by omega))
    · have hfirst : decide (ms ++ [pairOf piece] = []) = false := by simp
      have hmore := hnext (ms ++ [pairOf piece])
      rw [hfirst] at hmore
      rw [if_neg hfull]
      exact hmore.write harg hin
  · rw [hnopair hin]
    exact ArgsFrom.refuse pieces harg (Or.inl hin)

theorem mem_of_splitOn {qs : List Byte} {b : Byte} (hb : b ∈ qs) (hne : b ≠ byte '&') :
    ∃ piece ∈ qs.splitOn (byte '&'), b ∈ piece := by
  induction hn : qs.length using Nat.strong_induction_on generalizing qs with
  | _ n ih =>
    obtain ⟨-, h⟩ | ⟨piece, rest, -, rfl, h⟩ := splitOn_cases qs
    · rw [h]
      exact ⟨qs, List.mem_singleton_self qs, hb⟩
    · rw [h]
      obtain hb | hb := List.mem_append.1 hb
      · exact ⟨piece, List.mem_cons_self, hb⟩
      · have hrest : b ∈ rest := (List.mem_cons.1 hb).resolve_left hne
        have hshort : rest.length < n := by
          rw [← hn, List.length_append, List.length_cons]
          omega
        obtain ⟨p, hp, hbp⟩ := ih rest.length hshort hrest rfl
        exact ⟨p, List.mem_cons_of_mem piece hp, hbp⟩

/-- The loop over a query of keyed pieces, and ampersands at its end. -/
theorem qsToArgsLoop_pieces {cap k : Nat} {pieces : List (List Byte)} {p : List Byte}
    (hsplit : p.splitOn (byte '&') = pieces ++ List.replicate k [])
    (hkey : ∀ piece ∈ pieces, byte '=' ∈ piece)
    (htext : ∀ piece ∈ pieces, isArg piece = true →
      0 ∉ (pairOf piece).1 ∧ 0 ∉ (pairOf piece).2)
    (ms : List (List Byte × List Byte)) :
    ArgsFrom cap ms pieces
      (qsToArgsLoop cap (openBrace :: stringsText ms) (decide (ms = [])) p) := by
  induction pieces generalizing p ms with
  | nil =>
    have hnone : byte '=' ∉ p := by
      intro h
      obtain ⟨piece, hpiece, hb⟩ := mem_of_splitOn h (by decide)
      rw [hsplit, List.nil_append] at hpiece
      rw [List.eq_of_mem_replicate hpiece] at hb
      cases hb
    rw [qsToArgsLoop, strchr_none hnone]
    exact closeArgs_from cap ms
  | cons piece pieces ih =>
    have hkey' := hkey piece List.mem_cons_self
    have htext' := htext piece List.mem_cons_self
    have hkeys : ∀ q ∈ pieces, byte '=' ∈ q := fun q hq => hkey q (List.mem_cons_of_mem _ hq)
    have htexts : ∀ q ∈ pieces, isArg q = true → 0 ∉ (pairOf q).1 ∧ 0 ∉ (pairOf q).2 :=
      fun q hq => htext q (List.mem_cons_of_mem _ hq)
    obtain ⟨hamp, h⟩ | ⟨q, rest, hamp, rfl, h⟩ := splitOn_cases p
    · rw [h] at hsplit
      obtain ⟨rfl, hnil⟩ := List.cons.inj hsplit
      obtain ⟨rfl, -⟩ := List.append_eq_nil_iff.1 hnil.symm
      have hback : p ++ [] = p := List.append_nil p
      have hlast : (strchr (byte '&') (p ++ [])).getD (p ++ []).length = p.length := by
        rw [hback, strchr_none hamp, Option.getD_none]
      have hnext : ∀ ms, ArgsFrom cap ms []
          (afterPiece cap (openBrace :: stringsText ms) (decide (ms = [])) (p ++ [])) := by
        intro ms
        rw [hback, afterPiece, strchr_none hamp]
        exact closeArgs_from cap ms
      have hstep := qsToArgsLoop_step hkey' hlast htext' hnext ms
      rwa [hback] at hstep
    · rw [h] at hsplit
      obtain ⟨rfl, hrest⟩ := List.cons.inj hsplit
      have hchr := strchr_append hamp rest
      refine qsToArgsLoop_step hkey' (by rw [hchr, Option.getD_some]) htext' ?_ ms
      intro ms
      have hdrop : (q ++ byte '&' :: rest).drop (q.length + 1) = rest := by
        rw [← List.drop_drop, List.drop_left, List.drop_one, List.tail_cons]
      rw [afterPiece, hchr]
      show ArgsFrom cap ms pieces (qsToArgsLoop cap _ _ _)
      rw [hdrop]
      exact ih hrest hkeys htexts ms

/-! The object. -/

theorem valid_stringsText {ms : List (List Byte × List Byte)}
    (hms : ∀ m ∈ ms, IsText m.1 ∧ IsText m.2) : Utf8.Valid (stringsText ms ++ [closeBrace]) := by
  induction ms with
  | nil => decide
  | cons m ms ih =>
    obtain ⟨⟨-, hk⟩, -, hv⟩ := hms m List.mem_cons_self
    have hrest := ih fun q hq => hms q (List.mem_cons_of_mem m hq)
    have hmember : ∀ {b : Byte} {t : List Byte}, b < 0x80 → Utf8.Valid t →
        Utf8.Valid (memberText m.1 (quoted m.2) ++ b :: t) := by
      intro b t hb ht
      rw [memberText, List.append_assoc, List.cons_append, valid_quoted_append _ (by decide),
        valid_quoted_append _ hb]
      exact ⟨hk, hv, ht⟩
    cases ms with
    | nil => exact hmember (by decide) (by decide)
    | cons m' ms =>
      rw [stringsText_cons, List.append_assoc, List.cons_append]
      exact hmember (by decide) hrest

theorem loadObject_argsText (fits : List Byte → Bool) {ms : List (List Byte × List Byte)}
    (hms : ∀ m ∈ ms, IsText m.1 ∧ IsText m.2) :
    loadObject fits (argsText ms) = some (strings ms) := by
  have hvalid : Utf8.Valid (argsText ms) :=
    (Utf8.valid_cons (by decide) _).2 (valid_stringsText hms)
  have hws : skipWs (argsText ms) = argsText ms := skipWs_cons (by decide) _
  have hread : readValue fits ((argsText ms).length + 1) (argsText ms) =
      some (.object (strings ms), []) := by
    have hlen : ms.length ≤ (stringsText ms).length + 1 :=
      Nat.le_succ_of_le (length_le_stringsText ms)
    rw [argsText_length]
    exact readValue_strings fits hlen (fun m hm => ⟨(hms m hm).1.1, (hms m hm).2.1⟩) []
  rw [loadObject, load, if_pos ⟨hvalid, Or.inl (by rw [hws]; rfl)⟩, hread]
  rfl

/-- A query whose pieces all have an equals sign, with empty ones only at its end, and whose
arguments are text. -/
structure PlainQuery (qs : List Byte) : Prop where
  pieces : ∃ k, qs.splitOn (byte '&') = queryPieces qs ++ List.replicate k []
  keyed : ∀ piece ∈ queryPieces qs, byte '=' ∈ piece
  text : ∀ piece ∈ argPieces qs, ∀ m, FormPair piece m → IsText m.1 ∧ IsText m.2

/-- What the call returns for arguments that stand for the pairs `ms`. -/
structure ArgsExactly (fits : List Byte → Bool) (cap : Nat) (qs : List Byte)
    (ms : List (List Byte × List Byte)) : Prop where
  pairs : List.Forall₂ FormPair (argPieces qs) ms
  object : (∀ piece ∈ argPieces qs, InBuffers piece) → (argsText ms).length < cap →
    qsToArgsJson cap qs = some (argsText ms) ∧
      loadObject fits (argsText ms) = some (strings ms)
  fails : ((∃ piece ∈ argPieces qs, ¬InBuffers piece) ∨ cap ≤ (argsText ms).length) →
    qsToArgsJson cap qs = none

/-- Every plain query, into a buffer of any size. -/
theorem qsToArgsJson_exactly (fits : List Byte → Bool) (cap : Nat) {qs : CString}
    (hq : PlainQuery qs.val) : ∃ ms, ArgsExactly fits cap qs.val ms := by
  have htext : ∀ piece ∈ queryPieces qs.val, isArg piece = true →
      IsText (pairOf piece).1 ∧ IsText (pairOf piece).2 := by
    intro piece hpiece harg
    exact hq.text piece (List.mem_filter.2 ⟨hpiece, harg⟩) _ (formPair_pairOf piece)
  obtain ⟨k, hsplit⟩ := hq.pieces
  have hloop : ArgsFrom cap [] (queryPieces qs.val) (qsToArgsLoop cap [openBrace] true qs.val) :=
    qsToArgsLoop_pieces hsplit hq.keyed
      (fun piece hpiece harg => ⟨(htext piece hpiece harg).1.1, (htext piece hpiece harg).2.1⟩) []
  refine ⟨(argPieces qs.val).map pairOf, ?_, ?_, ?_⟩
  · rw [List.forall₂_map_right_iff, List.forall₂_same]
    exact fun piece _ => formPair_pairOf piece
  · intro hin hfit
    have hcap : ¬cap < 3 := by
      rw [argsText_length] at hfit
      omega
    rw [qsToArgsJson, if_neg hcap]
    refine ⟨hloop.1 hin hfit, loadObject_argsText fits fun m hm => ?_⟩
    obtain ⟨piece, hpiece, rfl⟩ := List.mem_map.1 hm
    exact htext piece (List.mem_filter.1 hpiece).1 (List.mem_filter.1 hpiece).2
  · intro hout
    rw [qsToArgsJson]
    by_cases hcap : cap < 3
    · rw [if_pos hcap]
    · rw [if_neg hcap]
      exact hloop.2 hout

def sampleQuery : CString := CString.of (ascii "op=get&name=a+b%26&note=%22\\%0a&")

theorem plainQuery_sample : PlainQuery sampleQuery.val where
  pieces := ⟨1, by decide⟩
  keyed := by decide
  text := by
    intro piece hpiece m hm
    have hall : ∀ piece ∈ argPieces sampleQuery.val,
        (0 ∉ (pairOf piece).1 ∧ Utf8.Valid (pairOf piece).1) ∧
          0 ∉ (pairOf piece).2 ∧ Utf8.Valid (pairOf piece).2 := by decide +kernel
    rw [hm.eq]
    exact hall piece hpiece

/-- Escapes, a plus sign, a quote, a backslash and a line feed. -/
theorem qsToArgsJson_exactly_sample :
    ∃ ms, ArgsExactly (fun _ => true) 2048 sampleQuery.val ms :=
  qsToArgsJson_exactly (fun _ => true) 2048 plainQuery_sample

example : qsToArgsJson 2048 sampleQuery.val =
    some (ascii "\x7b\"name\":\"a b&\",\"note\":\"\\\"\\\\\\n\"\x7d") := by
  decide +kernel

/-- The op is not among the members, and a name of 64 bytes does not fit its buffer. A piece
without an equals sign in front of another is refused, a zero ends the value, and a byte that is
not UTF-8 gives no JSON. -/
theorem queries_not_exact :
    qsToArgsJson 2048 (ascii "op=x") = some (argsText []) ∧
    qsToArgsJson 2048 (List.replicate 64 (byte 'a') ++ ascii "=") = none ∧
    qsToArgsJson 2048 (ascii "a&b=1") = none ∧
    qsToArgsJson 2048 (ascii "a=%00b") = some (argsText [(ascii "a", [])]) ∧
    ∃ t, qsToArgsJson 2048 (ascii "a=%FF") = some t ∧
      loadObject (fun _ => true) t = none := by
  refine ⟨by decide +kernel, by decide +kernel, by decide +kernel, by decide +kernel, ?_⟩
  exact ⟨argsText [(ascii "a", [0xFF])], by decide +kernel, by decide +kernel⟩

end TetraBs.Webui
