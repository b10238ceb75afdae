import TetraBs.Webui.Cgi

/-! What the text of a request is made of: the escaped strings, the arguments made of a query, and
the whole envelope. -/
namespace TetraBs.Webui
open TetraBs.Bits TetraBs.CStr TetraBs.JsonText

theorem jsonEscapeFrom_eq (cap : Nat) (out t : List Byte) :
    jsonEscapeFrom cap out t =
      if out.length + (escape t).length < cap then some (out ++ escape t) else none := by
  induction t generalizing out with
  | nil =>
    by_cases h : cap ≤ out.length
    · simp [jsonEscapeFrom, escape, h]
    · simp [jsonEscapeFrom, escape, h, Nat.lt_of_not_le h]
  | cons c t ih =>
    have hescape : escape (c :: t) = escapeByte c ++ escape t := rfl
    rw [jsonEscapeFrom, hescape, List.length_append]
    by_cases h : cap ≤ out.length + (escapeByte c).length
    · rw [if_pos h, if_neg (by omega)]
    · rw [if_neg h, ih, List.length_append, List.append_assoc, Nat.add_assoc]

theorem jsonEscape_eq (cap : Nat) (s : CString) :
    jsonEscape cap s = if (escape s.val).length < cap then some (escape s.val) else none := by
  rw [jsonEscape, jsonEscapeFrom_eq]
  simp

theorem CString.of_eq {t : List Byte} (ht : 0 ∉ t) : (CString.of t).val = t :=
  congrArg Subtype.val (CString.of_val ⟨t, ht⟩)

/-! The arguments made of a query. -/

/-- A text of string members in braces that fits a buffer of `cap` bytes. -/
def IsForm (cap : Nat) (t : List Byte) : Prop :=
  ∃ ms : List (List Byte × List Byte), (∀ m ∈ ms, 0 ∉ m.1 ∧ 0 ∉ m.2) ∧
    t = openBrace :: (stringsText ms ++ [closeBrace]) ∧ t.length < cap

theorem qsPair_eq {p : List Byte} {eq : Nat} {amp : Option Nat} {m : List Byte × List Byte}
    (h : qsPair p eq amp = some m) :
    ∃ name value : CString, m = (escape name.val, escape value.val) := by
  simp only [qsPair, jsonEscape_eq] at h
  split at h
  · cases h
  · split at h
    · rename_i hname hvalue
      split at hname
      · split at hvalue
        · cases hname
          cases hvalue
          cases h
          exact ⟨_, _, rfl⟩
        · cases hvalue
      · cases hname
    · cases h

theorem pairText_eq (first : Bool) (name value : List Byte) :
    pairText first (escape name, escape value) =
      (if first then [] else [comma]) ++ memberText name (quoted value) := by
  have h1 : ascii "\"" = [quote] := by decide
  have h2 : ascii "\":\"" = [quote, colon, quote] := by decide
  simp [pairText, memberText, quoted, h1, h2]

theorem stringsText_concat (ms : List (List Byte × List Byte)) (name value : List Byte) :
    stringsText (ms ++ [(name, value)]) =
      stringsText ms ++ pairText (decide (ms = [])) (escape name, escape value) := by
  rw [pairText_eq, stringsText, stringsText, List.map_append, List.map_singleton,
    membersText_concat, List.append_assoc]
  cases ms <;> simp

theorem closeArgs_isForm {cap : Nat} {ms : List (List Byte × List Byte)} {args : List Byte}
    (hms : ∀ m ∈ ms, 0 ∉ m.1 ∧ 0 ∉ m.2)
    (h : closeArgs cap (openBrace :: stringsText ms) = some args) : IsForm cap args := by
  rw [closeArgs] at h
  split at h
  · cases h
  · rename_i hcap
    cases h
    refine ⟨ms, hms, by simp, ?_⟩
    simp only [List.length_append, List.length_cons, List.length_nil] at hcap ⊢
    omega

theorem qsToArgsLoop_isForm {cap : Nat} {ms : List (List Byte × List Byte)}
    {p args : List Byte} (hms : ∀ m ∈ ms, 0 ∉ m.1 ∧ 0 ∉ m.2)
    (h : qsToArgsLoop cap (openBrace :: stringsText ms) (decide (ms = [])) p = some args) :
    IsForm cap args := by
  induction hn : p.length using Nat.strong_induction_on generalizing ms p with
  | _ n ih =>
    rw [qsToArgsLoop] at h
    have hshort {amp : Nat} (hamp : strchr (byte '&') p = some amp) :
        (p.drop (amp + 1)).length < n := by
      have hlt := strchr_lt hamp
      rw [List.length_drop]
      omega
    split at h
    · exact closeArgs_isForm hms h
    split at h
    · split at h
      · exact closeArgs_isForm hms h
      · rename_i amp hamp
        exact ih _ (hshort hamp) hms h rfl
    split at h
    · cases h
    · rename_i m hm
      obtain ⟨name, value, rfl⟩ := qsPair_eq hm
      have hmore : ∀ m ∈ ms ++ [(name.val, value.val)], 0 ∉ m.1 ∧ 0 ∉ m.2 := by
        intro m hm
        rcases List.mem_append.1 hm with hm | hm
        · exact hms m hm
        · cases List.mem_singleton.1 hm
          exact ⟨name.property, value.property⟩
      have htext : openBrace :: stringsText ms ++
          pairText (decide (ms = [])) (escape name.val, escape value.val) =
          openBrace :: stringsText (ms ++ [(name.val, value.val)]) := by
        rw [stringsText_concat, List.cons_append]
      simp only [htext] at h
      split at h
      · cases h
      split at h
      · exact closeArgs_isForm hmore h
      · rename_i amp hamp
        have hfirst : decide (ms ++ [(name.val, value.val)] = []) = false := by simp
        rw [← hfirst] at h
        exact ih _ (hshort hamp) hmore h rfl

theorem qsToArgsJson_isForm {cap : Nat} {qs args : List Byte}
    (h : qsToArgsJson cap qs = some args) : IsForm cap args := by
  rw [qsToArgsJson] at h
  split at h
  · cases h
  · have hnone : ∀ m ∈ ([] : List (List Byte × List Byte)), 0 ∉ m.1 ∧ 0 ∉ m.2 := by simp
    exact qsToArgsLoop_isForm hnone h

theorem IsForm.of_eq {cap : Nat} {t : List Byte} (h : IsForm cap t) : (CString.of t).val = t := by
  obtain ⟨ms, -, rfl, -⟩ := h
  refine CString.of_eq fun h => ?_
  rcases List.mem_cons.1 h with h | h
  · exact absurd h (by decide)
  rcases List.mem_append.1 h with h | h
  · exact stringsText_nul_free ms h
  · exact absurd (List.mem_singleton.1 h) (by decide)

/-! The envelope. -/

/-- The members of the envelope behind its op, in braces of their own. -/
def behindOp (args tag : CString) : List Byte :=
  memberText (ascii "args") args.val ++
    comma :: (memberText (ascii "client") (quoted tag.val) ++ [closeBrace])

def envelope (op args tag : CString) : List Byte :=
  openBrace :: (memberText (ascii "op") (quoted op.val) ++ comma :: behindOp args tag)

theorem cgiBuildRequest_text (op args tag : CString) :
    ascii "\x7b\"op\":\"" ++ escape op.val ++ ascii "\",\"args\":" ++ args.val ++ [] ++
      ascii ",\"client\":\"" ++ escape tag.val ++ ascii "\"\x7d" = envelope op args tag := by
  have hop : ascii "\x7b\"op\":\"" = openBrace :: (quoted (ascii "op") ++ [colon, quote]) := by
    decide
  have hargs : ascii "\",\"args\":" = quote :: comma :: (quoted (ascii "args") ++ [colon]) := by
    decide
  have hclient : ascii ",\"client\":\"" =
      comma :: (quoted (ascii "client") ++ [colon, quote]) := by decide
  have hend : ascii "\"\x7d" = [quote, closeBrace] := by decide
  rw [hop, hargs, hclient, hend]
  simp [envelope, behindOp, memberText, quoted]

theorem envelope_length (op args tag : CString) :
    (envelope op args tag).length =
      29 + (escape op.val).length + args.val.length + (escape tag.val).length := by
  have hop : (escape (ascii "op")).length = 2 := by decide
  have hargs : (escape (ascii "args")).length = 4 := by decide
  have hclient : (escape (ascii "client")).length = 6 := by decide
  simp only [envelope, behindOp, memberText, quoted, List.length_append, List.length_cons,
    List.length_nil, hop, hargs, hclient]
  omega

theorem cgiBuildRequest_eq {op args tag : CString} (hargs : args.val ≠ [])
    (hfits : args.val.length < ARGS_JSON_CAP) :
    cgiBuildRequest CGI_DEFAULT_MAX_BODY op (some args) none (some tag) =
      if (escape op.val).length < 256 ∧ (escape tag.val).length < 128 then
        some (envelope op args tag)
      else none := by
  have hcap : ¬ CGI_DEFAULT_MAX_BODY < 16 := by decide
  have hrid : jsonEscape 64 ((none : Option CString).getD empty) = some [] := by decide +kernel
  rw [cgiBuildRequest, if_neg hcap, hrid, jsonEscape_eq, Option.getD_some, jsonEscape_eq]
  by_cases hop : (escape op.val).length < 256
  · by_cases htag : (escape tag.val).length < 128
    · have hlen : ¬ CGI_DEFAULT_MAX_BODY ≤ (envelope op args tag).length := by
        rw [envelope_length, CGI_DEFAULT_MAX_BODY]
        rw [ARGS_JSON_CAP] at hfits
        omega
      simp only [hop, htag, and_self, if_true, hargs, if_false, cgiBuildRequest_text, hlen]
    · simp [hop, htag]
  · simp [hop]

end TetraBs.Webui
