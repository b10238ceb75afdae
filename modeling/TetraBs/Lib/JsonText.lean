import TetraBs.Lib.CString
import Mathlib.Data.List.Basic

/-! JSON documents as the trees a JSON library hands out. Texts are not modelled: what was
written is read back. Nothing here is about TETRA. -/
namespace TetraBs

inductive Json where
  | null
  | real (digits : String)
  | string (s : String)
  | integer (i : Int)
  | bool (b : Bool)
  | array (xs : List Json)
  | object (ms : List (String × Json))

namespace Json

/-- The member of a key; other values have no members. -/
def get : Json → String → Option Json
  | .object ms, key => (ms.find? fun m => m.1 == key).map (·.2)
  | _, _ => none

def int? : Json → Option Int
  | .integer i => some i
  | _ => none

def bool? : Json → Option Bool
  | .bool b => some b
  | _ => none

def array? : Json → Option (List Json)
  | .array xs => some xs
  | _ => none

def isObject : Json → Bool
  | .object _ => true
  | _ => false

@[simp] theorem int?_integer (i : Int) : (integer i).int? = some i := rfl

@[simp] theorem bool?_bool (b : Bool) : (bool b).bool? = some b := rfl

@[simp] theorem array?_array (xs : List Json) : (array xs).array? = some xs := rfl

@[simp] theorem isObject_object (ms : List (String × Json)) : (object ms).isObject = true := rfl

@[simp] theorem get_cons (k : String) (v : Json) (ms : List (String × Json)) (key : String) :
    (object ((k, v) :: ms)).get key = if k = key then some v else (object ms).get key := by
  by_cases h : k = key <;> simp [get, h]

end Json

/-- What a path holds: nothing, a text that is no JSON, or a document. -/
inductive File where
  | absent
  | malformed
  | json (root : Json)

end TetraBs

/-! A reader of JSON texts, bytes in and values out, and the fuel it needs. Nothing here is about
TETRA. -/
namespace TetraBs.JsonText
open TetraBs.Bits TetraBs.CStr

inductive Value where
  | null
  | bool (b : Bool)
  | number (lexeme : List Byte)
  | string (s : List Byte)
  | array (vs : List Value)
  | object (ms : List (List Byte × Value))

abbrev Members := List (List Byte × Value)

def Value.string? : Value → Option (List Byte)
  | .string s => some s
  | _ => none

def Value.object? : Value → Option Members
  | .object ms => some ms
  | _ => none

/-- The value of a key. Of several members with one key the last counts. -/
def lookup (ms : Members) (key : List Byte) : Option Value :=
  (ms.reverse.find? fun m => m.1 = key).map (·.2)

theorem lookup_cons (k : List Byte) (v : Value) (ms : Members) (key : List Byte) :
    lookup ((k, v) :: ms) key =
      (lookup ms key).or (if k = key then some v else none) := by
  rw [lookup, List.reverse_cons, List.find?_append, lookup]
  cases ms.reverse.find? fun m => m.1 = key with
  | some m => rfl
  | none => by_cases h : k = key <;> simp [h]

def quote : Byte := byte '"'
def backslash : Byte := byte '\\'
def colon : Byte := byte ':'
def comma : Byte := byte ','
def openBrace : Byte := byte '\x7b'
def closeBrace : Byte := byte '\x7d'

def isWs (b : Byte) : Bool := b = 32 || b = 9 || b = 10 || b = 13

def skipWs (t : List Byte) : List Byte := t.dropWhile isWs

theorem skipWs_cons {b : Byte} (hb : isWs b = false) (t : List Byte) :
    skipWs (b :: t) = b :: t := by
  rw [skipWs, List.dropWhile_cons, hb]
  rfl

theorem skipWs_length (t : List Byte) : (skipWs t).length ≤ t.length :=
  (List.dropWhile_sublist isWs).length_le

theorem skipWs_tail {t u : List Byte} {b : Byte} (h : skipWs t = b :: u) : u.length < t.length := by
  have hle := skipWs_length t
  rw [h, List.length_cons] at hle
  omega

/-! Strings. -/

def simpleEscape (e : Byte) : Option Byte :=
  if e = quote ∨ e = backslash ∨ e = byte '/' then some e
  else if e = byte 'b' then some 8
  else if e = byte 'f' then some 12
  else if e = byte 'n' then some 10
  else if e = byte 'r' then some 13
  else if e = byte 't' then some 9
  else none

/-- The bytes of a code point. -/
def encode (u : Nat) : List Byte :=
  let tail (k : Nat) : Byte := BitVec.ofNat 8 (0x80 + u / 64 ^ k % 64)
  if u < 0x80 then [BitVec.ofNat 8 u]
  else if u < 0x800 then [BitVec.ofNat 8 (0xC0 + u / 64), tail 0]
  else if u < 0x10000 then [BitVec.ofNat 8 (0xE0 + u / 64 ^ 2), tail 1, tail 0]
  else [BitVec.ofNat 8 (0xF0 + u / 64 ^ 3), tail 2, tail 1, tail 0]

def isHigh (u : Nat) : Bool := 0xD800 ≤ u && u < 0xDC00
def isLow (u : Nat) : Bool := 0xDC00 ≤ u && u < 0xE000

/-- Where a string reader stands: `high` is the first half of a surrogate pair, `ds` are the
digits of a code unit. -/
inductive Mode where
  | plain
  | afterHigh (high : Nat)
  | escape (high : Option Nat)
  | unicode (high : Option Nat) (ds : List Nat)
  deriving DecidableEq

def codeUnit (ds : List Nat) : Nat := ds.foldl (fun u d => u * 16 + d) 0

/-- What a complete code unit means: a code point, or the first half of one. Half a pair does not
stand alone, and there is no zero. -/
def unit (high : Option Nat) (u : Nat) : Option (List Byte × Mode) :=
  match high with
  | none =>
    if u = 0 ∨ isLow u then none
    else if isHigh u then some ([], .afterHigh u)
    else some (encode u, .plain)
  | some h =>
    if isLow u then some (encode (0x10000 + (h - 0xD800) * 0x400 + (u - 0xDC00)), .plain)
    else none

/-- One byte of a string: what it adds, and where the reader stands then. A bare quote is none,
it ends the string. -/
def charStep : Mode → Byte → Option (List Byte × Mode)
  | .plain, b =>
    if b = backslash then some ([], .escape none)
    else if b < 32 ∨ b = quote then none
    else some ([b], .plain)
  | .afterHigh h, b => if b = backslash then some ([], .escape (some h)) else none
  | .escape high, b =>
    if b = byte 'u' then some ([], .unicode high [])
    else if high.isSome then none
    else (simpleEscape b).map fun c => ([c], .plain)
  | .unicode high ds, b =>
    match xdigit b with
    | none => none
    | some d => if ds.length < 3 then some ([], .unicode high (ds ++ [d]))
      else unit high (codeUnit (ds ++ [d]))

/-- The string up to the quote that ends it, and what comes behind. -/
def readString (m : Mode) : List Byte → Option (List Byte × List Byte)
  | [] => none
  | b :: t =>
    if m = .plain ∧ b = quote then some ([], t)
    else (charStep m b).bind fun c => (readString c.2 t).map fun r => (c.1 ++ r.1, r.2)

/-! Values. -/

def digitsLength (t : List Byte) : Nat := (t.takeWhile isdigit).length

def signLength (t : List Byte) : Nat := if t.head? = some (byte '-') then 1 else 0

/-- The length of a sign and the digits behind it. Only zero itself starts with a zero. -/
def intLength (t : List Byte) : Option Nat :=
  let u := t.drop (signLength t)
  let n := digitsLength u
  if n = 0 ∨ (1 < n ∧ u.head? = some (byte '0')) then none else some (signLength t + n)

def fractionLength (t : List Byte) : Option Nat :=
  let n := digitsLength t.tail
  if t.head? ≠ some (byte '.') then some 0
  else if n = 0 then none
  else some (1 + n)

def exponentLength (t : List Byte) : Option Nat :=
  let signed := t.tail.head? = some (byte '+') ∨ t.tail.head? = some (byte '-')
  let start := if signed then 2 else 1
  let n := digitsLength (t.drop start)
  if t.head? ≠ some (byte 'e') ∧ t.head? ≠ some (byte 'E') then some 0
  else if n = 0 then none
  else some (start + n)

/-- The length of a number at the front of `t`. -/
def numberLength (t : List Byte) : Option Nat :=
  (intLength t).bind fun i => (fractionLength (t.drop i)).bind fun f =>
    (exponentLength (t.drop (i + f))).map fun e => i + f + e

/-- A number, if it is in the range of the reader. -/
def readNumber (fits : List Byte → Bool) (t : List Byte) : Option (Value × List Byte) :=
  match numberLength t with
  | none => none
  | some n => if fits (t.take n) then some (.number (t.take n), t.drop n) else none

def readLiteral (t : List Byte) : Option (Value × List Byte) :=
  if ascii "null" <+: t then some (.null, t.drop 4)
  else if ascii "true" <+: t then some (.bool true, t.drop 4)
  else if ascii "false" <+: t then some (.bool false, t.drop 5)
  else none

section Lists
variable {α : Type} (item : List Byte → Option (α × List Byte)) (close : Byte)

/-- At least one item, with commas between and `close` behind. -/
def sepBy : Nat → List Byte → Option (List α × List Byte)
  | 0, _ => none
  | n + 1, t =>
    match item t with
    | none => none
    | some (a, t) =>
      match skipWs t with
      | [] => none
      | b :: t =>
        if b = close then some ([a], t)
        else if b = comma then (sepBy n t).map fun r => (a :: r.1, r.2)
        else none

def bracketed (n : Nat) (t : List Byte) : Option (List α × List Byte) :=
  if (skipWs t).head? = some close then some ([], (skipWs t).tail) else sepBy item close n t

end Lists

/-- A colon and a value. -/
def afterColon (value : List Byte → Option (Value × List Byte)) (t : List Byte) :
    Option (Value × List Byte) :=
  match skipWs t with
  | [] => none
  | b :: t => if b = colon then value t else none

/-- A key, a colon and a value. -/
def readMember (value : List Byte → Option (Value × List Byte)) (t : List Byte) :
    Option ((List Byte × Value) × List Byte) :=
  match skipWs t with
  | [] => none
  | b :: t =>
    if b = quote then
      (readString .plain t).bind fun k =>
        (afterColon value k.2).map fun r => ((k.1, r.1), r.2)
    else none

def readValue (fits : List Byte → Bool) : Nat → List Byte → Option (Value × List Byte)
  | 0, _ => none
  | n + 1, t =>
    match skipWs t with
    | [] => none
    | b :: t =>
      if b = quote then (readString .plain t).map fun r => (.string r.1, r.2)
      else if b = openBrace then
        (bracketed (readMember (readValue fits n)) closeBrace n t).map fun r => (.object r.1, r.2)
      else if b = byte '[' then
        (bracketed (readValue fits n) (byte ']') n t).map fun r => (.array r.1, r.2)
      else (readLiteral (b :: t)).or (readNumber fits (b :: t))

/-- A whole text: UTF-8, an object or an array, and only white space behind it. -/
def load (fits : List Byte → Bool) (t : List Byte) : Option Value :=
  if Utf8.Valid t ∧
      ((skipWs t).head? = some openBrace ∨ (skipWs t).head? = some (byte '[')) then
    (readValue fits (t.length + 1) t).bind fun r => if skipWs r.2 = [] then some r.1 else none
  else none

/-- The members of a text that is an object. -/
def loadObject (fits : List Byte → Bool) (t : List Byte) : Option Members :=
  (load fits t).bind Value.object?

/-! Every reader uses up bytes, so a number of rounds above the length is never used up. -/

/-- What the reader leaves is shorter than what it was given. -/
def Shrinks {α : Type} (item : List Byte → Option (α × List Byte)) : Prop :=
  ∀ ⦃t a r⦄, item t = some (a, r) → r.length < t.length

theorem readString_shrinks (m : Mode) : Shrinks (readString m) := by
  intro t
  induction t generalizing m with
  | nil => intro a r h; cases h
  | cons b t ih =>
    intro a r h
    rw [readString] at h
    split at h
    · cases h
      simp
    · obtain ⟨c, -, hc⟩ := Option.bind_eq_some_iff.1 h
      obtain ⟨q, hq, hr⟩ := Option.map_eq_some_iff.1 hc
      cases hr
      have hlt := ih c.2 hq
      simp only [List.length_cons]
      omega

theorem intLength_pos {t : List Byte} {n : Nat} (h : intLength t = some n) : 0 < n ∧ t ≠ [] := by
  have hne : t ≠ [] := by
    rintro rfl
    cases h
  refine ⟨?_, hne⟩
  simp only [intLength] at h
  split at h
  · cases h
  · cases h
    omega

theorem numberLength_pos {t : List Byte} {n : Nat} (h : numberLength t = some n) :
    0 < n ∧ t ≠ [] := by
  obtain ⟨i, hi, h⟩ := Option.bind_eq_some_iff.1 h
  obtain ⟨f, -, h⟩ := Option.bind_eq_some_iff.1 h
  obtain ⟨e, -, rfl⟩ := Option.map_eq_some_iff.1 h
  obtain ⟨hpos, hne⟩ := intLength_pos hi
  exact ⟨by omega, hne⟩

theorem readNumber_shrinks (fits : List Byte → Bool) : Shrinks (readNumber fits) := by
  intro t a r h
  rw [readNumber] at h
  split at h
  · cases h
  · rename_i n hn
    obtain ⟨hpos, hne⟩ := numberLength_pos hn
    have hlen : 0 < t.length := List.length_pos_iff.2 hne
    split at h
    · cases h
      rw [List.length_drop]
      omega
    · cases h

theorem readLiteral_shrinks : Shrinks readLiteral := by
  intro t a r h
  have hlen (s : String) (k : Nat) (hk : 0 < k) (hs : 0 < (ascii s).length)
      (hp : ascii s <+: t) : (t.drop k).length < t.length := by
    have hle := hp.length_le
    rw [List.length_drop]
    omega
  unfold readLiteral at h
  split at h
  · rename_i hp
    cases h
    exact hlen "null" 4 (by decide) (by decide) hp
  split at h
  · rename_i hp
    cases h
    exact hlen "true" 4 (by decide) (by decide) hp
  split at h
  · rename_i hp
    cases h
    exact hlen "false" 5 (by decide) (by decide) hp
  · cases h

section Lists
variable {α : Type} {item item' : List Byte → Option (α × List Byte)} {close : Byte}

theorem sepBy_shrinks (hitem : Shrinks item) (n : Nat) : Shrinks (sepBy item close n) := by
  induction n with
  | zero => intro t a r h; cases h
  | succ n ih =>
    intro t as r h
    rw [sepBy] at h
    cases hi : item t with
    | none => simp [hi] at h
    | some p =>
      have hp : p.2.length < t.length := hitem hi
      simp only [hi] at h
      cases hws : skipWs p.2 with
      | nil => simp [hws] at h
      | cons b u =>
        have hu := skipWs_tail hws
        simp only [hws] at h
        split at h
        · cases h
          omega
        split at h
        · obtain ⟨q, hq, hr⟩ := Option.map_eq_some_iff.1 h
          cases hr
          have hlt := ih hq
          omega
        · cases h

theorem bracketed_shrinks (hitem : Shrinks item) (n : Nat) :
    Shrinks (bracketed item close n) := by
  intro t as r h
  rw [bracketed] at h
  split at h
  · rename_i hhead
    cases hws : skipWs t with
    | nil => simp [hws] at hhead
    | cons b u =>
      rw [hws] at h
      cases h
      exact skipWs_tail hws
  · exact sepBy_shrinks hitem n h

/-- Two item readers that agree up to the length of the text read the same list, whatever the
numbers of rounds are, as long as they are above the length. -/
theorem sepBy_congr (hitem : Shrinks item) {t : List Byte}
    (heq : ∀ u, u.length ≤ t.length → item u = item' u) {n m : Nat} (hn : t.length < n)
    (hm : t.length < m) : sepBy item close n t = sepBy item' close m t := by
  induction n generalizing t m with
  | zero => omega
  | succ n ih =>
    cases m with
    | zero => omega
    | succ m =>
      rw [sepBy, sepBy, ← heq t le_rfl]
      cases hi : item t with
      | none => rfl
      | some p =>
        have hp : p.2.length < t.length := hitem hi
        cases hws : skipWs p.2 with
        | nil => simp [hws]
        | cons b u =>
          have hu := skipWs_tail hws
          have hrec := ih (t := u) (m := m) (fun v hv => heq v (by omega)) (by omega) (by omega)
          simp only [hws, hrec]

theorem bracketed_congr (hitem : Shrinks item) {t : List Byte}
    (heq : ∀ u, u.length ≤ t.length → item u = item' u) {n m : Nat} (hn : t.length < n)
    (hm : t.length < m) : bracketed item close n t = bracketed item' close m t := by
  rw [bracketed, bracketed, sepBy_congr hitem heq hn hm]

end Lists

theorem afterColon_shrinks {value : List Byte → Option (Value × List Byte)}
    (hvalue : Shrinks value) : Shrinks (afterColon value) := by
  intro t a r h
  rw [afterColon] at h
  cases hws : skipWs t with
  | nil => simp [hws] at h
  | cons b u =>
    have hu := skipWs_tail hws
    simp only [hws] at h
    split at h
    · have hlt := hvalue h
      omega
    · cases h

theorem readMember_shrinks {value : List Byte → Option (Value × List Byte)}
    (hvalue : Shrinks value) : Shrinks (readMember value) := by
  intro t a r h
  rw [readMember] at h
  cases hws : skipWs t with
  | nil => simp [hws] at h
  | cons b u =>
    have hu := skipWs_tail hws
    simp only [hws] at h
    split at h
    · obtain ⟨k, hk, h⟩ := Option.bind_eq_some_iff.1 h
      obtain ⟨q, hq, hr⟩ := Option.map_eq_some_iff.1 h
      cases hr
      have hkey := readString_shrinks .plain hk
      have hrest := afterColon_shrinks hvalue hq
      omega
    · cases h

theorem afterColon_congr {value value' : List Byte → Option (Value × List Byte)} {t : List Byte}
    (heq : ∀ u, u.length < t.length → value u = value' u) :
    afterColon value t = afterColon value' t := by
  rw [afterColon, afterColon]
  cases hws : skipWs t with
  | nil => rfl
  | cons b u => simp only [heq u (skipWs_tail hws)]

/-- Values are shorter than the text of the members they stand in. -/
theorem readMember_congr {value value' : List Byte → Option (Value × List Byte)} {t : List Byte}
    (heq : ∀ u, u.length < t.length → value u = value' u) :
    readMember value t = readMember value' t := by
  rw [readMember, readMember]
  cases hws : skipWs t with
  | nil => rfl
  | cons b u =>
    have hu := skipWs_tail hws
    have hvalue (k : List Byte × List Byte) (hk : readString .plain u = some k) :
        afterColon value k.2 = afterColon value' k.2 := by
      have hkey := readString_shrinks .plain hk
      exact afterColon_congr fun v hv => heq v (by omega)
    cases hk : readString .plain u with
    | none => simp [hk]
    | some k => simp only [hk, Option.bind_some, hvalue k hk]

theorem readValue_shrinks (fits : List Byte → Bool) (n : Nat) : Shrinks (readValue fits n) := by
  induction n with
  | zero => intro t a r h; cases h
  | succ n ih =>
    intro t a r h
    rw [readValue] at h
    cases hws : skipWs t with
    | nil => simp [hws] at h
    | cons b u =>
      have hu := skipWs_tail hws
      have hle := skipWs_length t
      simp only [hws] at h hle
      split at h
      · obtain ⟨q, hq, hr⟩ := Option.map_eq_some_iff.1 h
        cases hr
        have hlt := readString_shrinks .plain hq
        omega
      split at h
      · obtain ⟨q, hq, hr⟩ := Option.map_eq_some_iff.1 h
        cases hr
        have hlt := bracketed_shrinks (readMember_shrinks ih) n hq
        omega
      split at h
      · obtain ⟨q, hq, hr⟩ := Option.map_eq_some_iff.1 h
        cases hr
        have hlt := bracketed_shrinks ih n hq
        omega
      · rcases Option.or_eq_some_iff.1 h with hl | ⟨-, hn⟩
        · have hlt := readLiteral_shrinks hl
          omega
        · have hlt := readNumber_shrinks fits hn
          omega

/-- Enough fuel is any fuel above the length of the text. -/
theorem readValue_fuel (fits : List Byte → Bool) {n m : Nat} {t : List Byte} (hn : t.length < n)
    (hm : t.length < m) : readValue fits n t = readValue fits m t := by
  induction n generalizing m t with
  | zero => omega
  | succ n ih =>
    cases m with
    | zero => omega
    | succ m =>
      rw [readValue, readValue]
      cases hws : skipWs t with
      | nil => rfl
      | cons b u =>
        have hu := skipWs_tail hws
        have hvalue (v : List Byte) (hv : v.length ≤ u.length) :
            readValue fits n v = readValue fits m v := ih (by omega) (by omega)
        have hobject : bracketed (readMember (readValue fits n)) closeBrace n u =
            bracketed (readMember (readValue fits m)) closeBrace m u :=
          bracketed_congr (readMember_shrinks (readValue_shrinks fits n))
            (fun v hv => readMember_congr fun w hw => hvalue w (by omega)) (by omega) (by omega)
        have harray : bracketed (readValue fits n) (byte ']') n u =
            bracketed (readValue fits m) (byte ']') m u :=
          bracketed_congr (readValue_shrinks fits n) hvalue (by omega) (by omega)
        simp only [hobject, harray]

end TetraBs.JsonText
