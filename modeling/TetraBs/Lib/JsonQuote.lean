import TetraBs.Lib.JsonText

/-! Writing strings into JSON texts, and what the reader makes of texts put together that way:
a quoted string is read back, a quoted member at the front of an object is one member more and
changes nothing behind it. -/
namespace TetraBs.JsonText
open TetraBs.Bits TetraBs.CStr

def hexDigit (n : Nat) : Byte := BitVec.ofNat 8 (if n < 10 then 48 + n else 87 + n)

/-- A byte as it is written in a string. -/
def escapeByte (c : Byte) : List Byte :=
  if c = quote ∨ c = backslash then [backslash, c]
  else if c = 10 then [backslash, byte 'n']
  else if c = 13 then [backslash, byte 'r']
  else if c = 9 then [backslash, byte 't']
  else if c < 0x20 then
    ascii "\\u" ++ [hexDigit 0, hexDigit 0, hexDigit (c.toNat / 16), hexDigit (c.toNat % 16)]
  else [c]

def escape (s : List Byte) : List Byte := s.flatMap escapeByte

def quoted (s : List Byte) : List Byte := quote :: (escape s ++ [quote])

/-- A member whose value is the text `v`. -/
def memberText (k v : List Byte) : List Byte := quoted k ++ colon :: v

/-- Members with a comma between two of them. -/
def membersText : List (List Byte × List Byte) → List Byte
  | [] => []
  | [m] => memberText m.1 m.2
  | m :: ms => memberText m.1 m.2 ++ comma :: membersText ms

theorem membersText_concat (ms : List (List Byte × List Byte)) (m : List Byte × List Byte) :
    membersText (ms ++ [m]) =
      membersText ms ++ (if ms = [] then [] else [comma]) ++ memberText m.1 m.2 := by
  induction ms with
  | nil => rfl
  | cons a ms ih =>
    cases ms with
    | nil => simp [membersText]
    | cons b ms =>
      rw [List.cons_append, List.cons_append, membersText, ← List.cons_append, ih]
      · simp [membersText]
      · simp

/-! Quoted strings are read back. -/

/-- What a run of bytes inside a string adds. -/
def chars : Mode → List Byte → Option (List Byte × Mode)
  | m, [] => some ([], m)
  | m, b :: t => (charStep m b).bind fun c => (chars c.2 t).map fun r => (c.1 ++ r.1, r.2)

theorem readString_chars {m m' : Mode} {u s : List Byte} (h : chars m u = some (s, m'))
    (t : List Byte) : readString m (u ++ t) = (readString m' t).map fun r => (s ++ r.1, r.2) := by
  induction u generalizing m s with
  | nil =>
    cases h
    simp
  | cons b u ih =>
    obtain ⟨c, hc, h⟩ := Option.bind_eq_some_iff.1 h
    obtain ⟨r, hr, hs⟩ := Option.map_eq_some_iff.1 h
    cases hs
    have hquote : ¬(m = .plain ∧ b = quote) := by
      rintro ⟨rfl, rfl⟩
      cases hc
    rw [List.cons_append, readString, if_neg hquote, hc, Option.bind_some, ih hr, Option.map_map]
    simp [Function.comp_def]

theorem chars_escapeByte :
    ∀ c : Byte, c ≠ 0 → chars .plain (escapeByte c) = some ([c], .plain) := by
  decide +kernel

theorem readString_escape {s : List Byte} (hs : 0 ∉ s) (t : List Byte) :
    readString .plain (escape s ++ quote :: t) = some (s, t) := by
  induction s with
  | nil => rfl
  | cons c s ih =>
    have hc : c ≠ 0 := fun h => hs (by simp [h])
    have hrest : 0 ∉ s := fun h => hs (List.mem_cons_of_mem c h)
    rw [escape, List.flatMap_cons, List.append_assoc, readString_chars (chars_escapeByte c hc),
      ← escape, ih hrest]
    rfl

theorem quoted_append (s t : List Byte) :
    quoted s ++ t = quote :: (escape s ++ quote :: t) := by
  simp [quoted]

theorem quote_ne_close (t : List Byte) : (skipWs (quote :: t)).head? ≠ some closeBrace := by
  rw [skipWs_cons (by decide)]
  exact fun h => absurd (Option.some.inj h) (by decide)

theorem readValue_quoted (fits : List Byte → Bool) (n : Nat) {s : List Byte} (hs : 0 ∉ s)
    (t : List Byte) : readValue fits (n + 1) (quoted s ++ t) = some (.string s, t) := by
  rw [quoted_append, readValue, skipWs_cons (by decide)]
  simp [readString_escape hs]

theorem readMember_memberText (value : List Byte → Option (Value × List Byte)) {k : List Byte}
    (hk : 0 ∉ k) (v t : List Byte) :
    readMember value (memberText k v ++ t) = (value (v ++ t)).map fun r => ((k, r.1), r.2) := by
  rw [memberText, List.append_assoc, quoted_append, readMember, skipWs_cons (by decide)]
  simp only [if_true, readString_escape hk, Option.bind_some, List.cons_append, afterColon]
  rw [skipWs_cons (by decide)]
  simp

/-! Lists of members. -/

section Lists
variable {α : Type} {item : List Byte → Option (α × List Byte)} {n : Nat} {t u : List Byte} {a : α}

theorem sepBy_next (h : item t = some (a, comma :: u)) :
    sepBy item closeBrace (n + 1) t =
      (sepBy item closeBrace n u).map fun r => (a :: r.1, r.2) := by
  have hne : comma ≠ closeBrace := by decide
  rw [sepBy, h]
  simp only [skipWs_cons (show isWs comma = false by decide), hne, if_false, if_true]

theorem sepBy_last (h : item t = some (a, closeBrace :: u)) :
    sepBy item closeBrace (n + 1) t = some ([a], u) := by
  rw [sepBy, h]
  simp only [skipWs_cons (show isWs closeBrace = false by decide), if_true]

/-- A list that starts with a quote is not the empty one. -/
theorem bracketed_memberText (k v : List Byte) :
    bracketed item closeBrace n (memberText k v ++ t) =
      sepBy item closeBrace n (memberText k v ++ t) := by
  have hhead : (skipWs (memberText k v ++ t)).head? ≠ some closeBrace := by
    rw [memberText, List.append_assoc, quoted_append]
    exact quote_ne_close _
  rw [bracketed, if_neg hhead]

end Lists

/-! What quoting makes of the bytes: no zero, ASCII stays ASCII, UTF-8 stays UTF-8. -/

theorem escapeByte_ascii {c : Byte} (hc : c < 0x80) : ∀ b ∈ escapeByte c, b < 0x80 := by
  have hall : ∀ c : Byte, c < 0x80 → (escapeByte c).all (fun b => b < 0x80) := by decide +kernel
  simpa using hall c hc

theorem escapeByte_nul_free : ∀ c : Byte, 0 ∉ escapeByte c := by
  decide +kernel

theorem escape_nul_free (s : List Byte) : 0 ∉ escape s := by
  intro h
  obtain ⟨c, -, hc⟩ := List.mem_flatMap.1 h
  exact escapeByte_nul_free c hc

theorem quoted_nul_free (s : List Byte) : 0 ∉ quoted s := by
  intro h
  rcases List.mem_cons.1 h with h | h
  · exact absurd h (by decide)
  rcases List.mem_append.1 h with h | h
  · exact escape_nul_free s h
  · exact absurd (List.mem_singleton.1 h) (by decide)

theorem memberText_nul_free (k : List Byte) {v : List Byte} (hv : 0 ∉ v) :
    0 ∉ memberText k v := by
  intro h
  rcases List.mem_append.1 h with h | h
  · exact quoted_nul_free k h
  rcases List.mem_cons.1 h with h | h
  · exact absurd h (by decide)
  · exact hv h

theorem escapeByte_ne_nil : ∀ c : Byte, escapeByte c ≠ [] := by
  decide +kernel

theorem escapeByte_high : ∀ c : Byte, ¬ c < 0x80 → escapeByte c = [c] := by
  decide +kernel

theorem utf8_run_escape (rs : List Utf8.Range) (s : List Byte) :
    Utf8.run rs (escape s) = Utf8.run rs s := by
  induction s generalizing rs with
  | nil => rfl
  | cons c s ih =>
    rw [escape, List.flatMap_cons, Utf8.run_append, ← escape, Utf8.run]
    by_cases hc : c < 0x80
    · rw [Utf8.run_ascii rs (escapeByte_ascii hc) (escapeByte_ne_nil c), Utf8.step_ascii rs hc]
      by_cases hrs : rs = [] <;> simp [hrs, ih]
    · rw [escapeByte_high c hc, Utf8.run]
      cases Utf8.step rs c with
      | none => rfl
      | some rs' => exact ih rs'

theorem valid_quoted_append (s : List Byte) {b : Byte} (hb : b < 0x80) (t : List Byte) :
    Utf8.Valid (quoted s ++ b :: t) ↔ Utf8.Valid s ∧ Utf8.Valid t := by
  rw [quoted_append, Utf8.valid_cons (by decide), Utf8.valid_append_cons _ (by decide),
    Utf8.valid_cons hb]
  unfold Utf8.Valid
  rw [utf8_run_escape]

/-! Objects. -/

/-- The members behind an opening brace, up to the end of the text. -/
def objectTail (fits : List Byte → Bool) (t : List Byte) : Option Members :=
  (bracketed (readMember (readValue fits (t.length + 1))) closeBrace (t.length + 1) t).bind
    fun r => if skipWs r.2 = [] then some r.1 else none

theorem loadObject_brace (fits : List Byte → Bool) (t : List Byte) :
    loadObject fits (openBrace :: t) =
      if Utf8.Valid t then objectTail fits t else none := by
  have hws : skipWs (openBrace :: t) = openBrace :: t := skipWs_cons (by decide) t
  have hvalid : Utf8.Valid (openBrace :: t) ↔ Utf8.Valid t := Utf8.valid_cons (by decide) t
  by_cases ht : Utf8.Valid t
  · rw [if_pos ht, loadObject, load, if_pos ⟨hvalid.2 ht, .inl (by rw [hws]; rfl)⟩, readValue, hws]
    have hq : openBrace ≠ quote := by decide
    simp only [hq, if_false, if_true, List.length_cons, objectTail]
    cases bracketed (readMember (readValue fits (t.length + 1))) closeBrace (t.length + 1) t with
    | none => rfl
    | some r => by_cases hr : skipWs r.2 = [] <;> simp [hr, Value.object?]
  · rw [if_neg ht, loadObject, load, if_neg fun h => ht (hvalid.1 h.1)]
    rfl

theorem objectTail_cons (fits : List Byte → Bool) {k v t : List Byte} (hk : 0 ∉ k) (hv : 0 ∉ v)
    (ht : (skipWs t).head? ≠ some closeBrace) :
    objectTail fits (memberText k (quoted v) ++ comma :: t) =
      (objectTail fits t).map fun ms => (k, .string v) :: ms := by
  have hlen : t.length < (memberText k (quoted v) ++ comma :: t).length := by
    simp only [List.length_append, List.length_cons]
    omega
  generalize hn : (memberText k (quoted v) ++ comma :: t).length = n at hlen
  have hmember : readMember (readValue fits (n + 1)) (memberText k (quoted v) ++ comma :: t) =
      some ((k, .string v), comma :: t) := by
    rw [readMember_memberText _ hk, readValue_quoted fits n hv]
    rfl
  have hrest : sepBy (readMember (readValue fits (n + 1))) closeBrace n t =
      sepBy (readMember (readValue fits (t.length + 1))) closeBrace (t.length + 1) t :=
    sepBy_congr (readMember_shrinks (readValue_shrinks fits _))
      (fun u hu => readMember_congr fun w hw => readValue_fuel fits (by omega) (by omega))
      hlen (by omega)
  rw [objectTail, objectTail, hn, bracketed_memberText, sepBy_next hmember, hrest, bracketed,
    if_neg ht]
  cases sepBy (readMember (readValue fits (t.length + 1))) closeBrace (t.length + 1) t with
  | none => rfl
  | some r => by_cases hr : skipWs r.2 = [] <;> simp [hr]

/-- A string member at the front of an object adds itself to what the rest of the text says. -/
theorem loadObject_cons (fits : List Byte → Bool) {k v t : List Byte} (hk : 0 ∉ k) (hv : 0 ∉ v)
    (ht : (skipWs t).head? ≠ some closeBrace) :
    loadObject fits (openBrace :: (memberText k (quoted v) ++ comma :: t)) =
      if Utf8.Valid k ∧ Utf8.Valid v then
        (loadObject fits (openBrace :: t)).map fun ms => (k, .string v) :: ms
      else none := by
  have hvalid : Utf8.Valid (memberText k (quoted v) ++ comma :: t) ↔
      Utf8.Valid k ∧ Utf8.Valid v ∧ Utf8.Valid t := by
    rw [memberText, List.append_assoc, List.cons_append, valid_quoted_append _ (by decide),
      valid_quoted_append _ (by decide)]
  rw [loadObject_brace, loadObject_brace, objectTail_cons fits hk hv ht]
  by_cases hkv : Utf8.Valid k ∧ Utf8.Valid v
  · rw [if_pos hkv]
    by_cases h : Utf8.Valid t
    · rw [if_pos (hvalid.2 ⟨hkv.1, hkv.2, h⟩), if_pos h]
    · rw [if_neg fun hu => h (hvalid.1 hu).2.2, if_neg h]
      rfl
  · rw [if_neg hkv, if_neg fun hu => hkv ⟨(hvalid.1 hu).1, (hvalid.1 hu).2.1⟩]

/-! An object of string members is read back. -/

/-- The members an object of strings has. -/
def strings (ms : List (List Byte × List Byte)) : Members := ms.map fun m => (m.1, .string m.2)

/-- The text of string members. -/
def stringsText (ms : List (List Byte × List Byte)) : List Byte :=
  membersText (ms.map fun m => (m.1, quoted m.2))

theorem stringsText_cons (m m' : List Byte × List Byte) (ms : List (List Byte × List Byte)) :
    stringsText (m :: m' :: ms) =
      memberText m.1 (quoted m.2) ++ comma :: stringsText (m' :: ms) := rfl

theorem stringsText_nul_free (ms : List (List Byte × List Byte)) : 0 ∉ stringsText ms := by
  induction ms with
  | nil => exact List.not_mem_nil
  | cons m ms ih =>
    cases ms with
    | nil => exact memberText_nul_free m.1 (quoted_nul_free m.2)
    | cons m' ms =>
      rw [stringsText_cons, List.mem_append, List.mem_cons]
      rintro (h | h | h)
      · exact memberText_nul_free m.1 (quoted_nul_free m.2) h
      · exact absurd h (by decide)
      · exact ih h

theorem length_le_stringsText (ms : List (List Byte × List Byte)) :
    ms.length ≤ (stringsText ms).length := by
  induction ms with
  | nil => exact Nat.zero_le _
  | cons m ms ih =>
    cases ms with
    | nil => simp [stringsText, membersText, memberText, quoted]
    | cons m' ms =>
      rw [stringsText_cons]
      simp only [List.length_append, List.length_cons] at ih ⊢
      omega

theorem sepBy_stringsText (fits : List Byte → Bool) (d : Nat) {n : Nat}
    {ms : List (List Byte × List Byte)} (hne : ms ≠ []) (hn : ms.length ≤ n)
    (hms : ∀ m ∈ ms, 0 ∉ m.1 ∧ 0 ∉ m.2) (t : List Byte) :
    sepBy (readMember (readValue fits (d + 1))) closeBrace n (stringsText ms ++ closeBrace :: t) =
      some (strings ms, t) := by
  induction ms generalizing n with
  | nil => exact absurd rfl hne
  | cons m ms ih =>
    obtain ⟨hk, hv⟩ := hms m (by simp)
    cases n with
    | zero => simp at hn
    | succ n =>
      cases ms with
      | nil =>
        have hmember : readMember (readValue fits (d + 1))
            (stringsText [m] ++ closeBrace :: t) = some ((m.1, .string m.2), closeBrace :: t) := by
          rw [stringsText, List.map_singleton, membersText, readMember_memberText _ hk,
            readValue_quoted fits d hv]
          rfl
        rw [sepBy_last hmember]
        rfl
      | cons m' ms =>
        have htext : stringsText (m :: m' :: ms) ++ closeBrace :: t =
            memberText m.1 (quoted m.2) ++
              comma :: (stringsText (m' :: ms) ++ closeBrace :: t) := by
          rw [stringsText_cons, List.append_assoc, List.cons_append]
        have hmember : readMember (readValue fits (d + 1))
            (stringsText (m :: m' :: ms) ++ closeBrace :: t) =
            some ((m.1, .string m.2), comma :: (stringsText (m' :: ms) ++ closeBrace :: t)) := by
          rw [htext, readMember_memberText _ hk, readValue_quoted fits d hv]
          rfl
        rw [sepBy_next hmember, ih (by simp) (by simpa using hn) fun a ha => hms a (by simp [ha])]
        rfl

theorem readValue_strings (fits : List Byte → Bool) {n : Nat} {ms : List (List Byte × List Byte)}
    (hn : ms.length ≤ n) (hms : ∀ m ∈ ms, 0 ∉ m.1 ∧ 0 ∉ m.2) (t : List Byte) :
    readValue fits (n + 2) (openBrace :: (stringsText ms ++ closeBrace :: t)) =
      some (.object (strings ms), t) := by
  have hq : openBrace ≠ quote := by decide
  rw [readValue, skipWs_cons (by decide)]
  simp only [hq, if_false, if_true, bracketed]
  cases ms with
  | nil => rfl
  | cons m ms =>
    have hhead : (skipWs (stringsText (m :: ms) ++ closeBrace :: t)).head? ≠ some closeBrace := by
      have hfront : ∃ u, stringsText (m :: ms) ++ closeBrace :: t = quote :: u := by
        cases ms <;> simp [stringsText, membersText, memberText, quoted]
      obtain ⟨u, hu⟩ := hfront
      rw [hu]
      exact quote_ne_close u
    rw [if_neg hhead, sepBy_stringsText fits n (by simp) (by omega) hms]
    rfl

end TetraBs.JsonText
