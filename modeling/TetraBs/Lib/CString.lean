import TetraBs.Lib.Bits
import Mathlib.Data.List.TakeWhile

/-! Zero-terminated byte strings and the byte classes of the C locale. -/
namespace TetraBs.CStr
open TetraBs.Bits

def byte (c : Char) : Byte := BitVec.ofNat 8 c.toNat

def ascii (s : String) : List Byte := s.toList.map byte

/-- What a C function sees of a buffer: the bytes before the first zero. -/
def cstr (t : List Byte) : List Byte := t.takeWhile (· ≠ 0)

/-- A string as C passes it, with no zero byte inside. -/
abbrev CString := { t : List Byte // 0 ∉ t }

theorem cstr_nul_free (t : List Byte) : 0 ∉ cstr t := by
  intro h
  have hne := List.mem_takeWhile_imp h
  simp at hne

def CString.of (t : List Byte) : CString := ⟨cstr t, cstr_nul_free t⟩

theorem CString.of_val (s : CString) : CString.of s.val = s := by
  apply Subtype.ext
  refine List.takeWhile_eq_self_iff.2 fun b hb => ?_
  have hne : b ≠ 0 := fun h => s.property (h ▸ hb)
  simpa using hne

def isspace (b : Byte) : Bool := b = 32 ∨ (9 ≤ b ∧ b ≤ 13)

def isdigit (b : Byte) : Bool := byte '0' ≤ b ∧ b ≤ byte '9'

def isalnum (b : Byte) : Bool :=
  isdigit b ∨ (byte 'a' ≤ b ∧ b ≤ byte 'z') ∨ (byte 'A' ≤ b ∧ b ≤ byte 'Z')

/-- The value of a hexadecimal digit of either case. -/
def xdigit (b : Byte) : Option Nat :=
  if isdigit b then some (b.toNat - 48)
  else if byte 'a' ≤ b ∧ b ≤ byte 'f' then some (b.toNat - 87)
  else if byte 'A' ≤ b ∧ b ≤ byte 'F' then some (b.toNat - 55)
  else none

/-- The position of the first byte `b`, as `strchr` finds it. -/
def strchr (b : Byte) (t : List Byte) : Option Nat := t.findIdx? (· = b)

/-- `strtoul` in base 10 where `unsigned long` has `w` bits: leading white space, a sign, and the
digits up to the first other byte. Without a digit there is no value. -/
def strtoul (w : Nat) (t : List Byte) : Option Nat :=
  let t := t.dropWhile isspace
  let negative := t.head? = some (byte '-')
  let digits := (if negative ∨ t.head? = some (byte '+') then t.tail else t).takeWhile isdigit
  let value := digits.foldl (fun n b => n * 10 + (b.toNat - 48)) 0
  if digits = [] then none
  else if 2 ^ w ≤ value then some (2 ^ w - 1)
  else if negative then some ((2 ^ w - value) % 2 ^ w)
  else some value

end TetraBs.CStr

/-! Which byte strings are UTF-8. A check reads the bytes in order and keeps the ranges of the
bytes that must still come; ASCII bytes cut a text into parts that are checked alone. -/
namespace TetraBs.Utf8
open TetraBs.Bits

/-- The bytes allowed at a place behind a lead byte. None of them is ASCII. -/
structure Range where
  lo : Byte
  hi : Byte
  high : 0x80 ≤ lo
  deriving DecidableEq

def tail : Range := ⟨0x80, 0xBF, by decide⟩

/-- What a first byte asks for. Overlong forms, surrogates and code points from 0x110000 on are
excluded by the range of the second byte. -/
def first (b : Byte) : Option (List Range) :=
  if b < 0x80 then some []
  else if b < 0xC2 then none
  else if b < 0xE0 then some [tail]
  else if b = 0xE0 then some [⟨0xA0, 0xBF, by decide⟩, tail]
  else if b = 0xED then some [⟨0x80, 0x9F, by decide⟩, tail]
  else if b < 0xF0 then some [tail, tail]
  else if b = 0xF0 then some [⟨0x90, 0xBF, by decide⟩, tail, tail]
  else if b < 0xF4 then some [tail, tail, tail]
  else if b = 0xF4 then some [⟨0x80, 0x8F, by decide⟩, tail, tail]
  else none

def step : List Range → Byte → Option (List Range)
  | [], b => first b
  | r :: rs, b => if r.lo ≤ b ∧ b ≤ r.hi then some rs else none

def run : List Range → List Byte → Option (List Range)
  | rs, [] => some rs
  | rs, b :: t => (step rs b).bind fun rs => run rs t

def Valid (t : List Byte) : Prop := run [] t = some []

instance (t : List Byte) : Decidable (Valid t) := inferInstanceAs (Decidable (_ = _))

theorem run_append (rs : List Range) (u v : List Byte) :
    run rs (u ++ v) = (run rs u).bind fun rs => run rs v := by
  induction u generalizing rs with
  | nil => rfl
  | cons b u ih =>
    simp only [List.cons_append, run]
    cases step rs b with
    | none => rfl
    | some rs' => exact ih rs'

theorem step_ascii (rs : List Range) {b : Byte} (hb : b < 0x80) :
    step rs b = if rs = [] then some [] else none := by
  cases rs with
  | nil => rw [step, first, if_pos hb, if_pos rfl]
  | cons r rs =>
    have hlo : ¬ r.lo ≤ b := fun h => absurd (BitVec.le_trans r.high h) (BitVec.not_le.2 hb)
    simp [step, hlo]

theorem run_ascii (rs : List Range) {w : List Byte} (hw : ∀ b ∈ w, b < 0x80) (hne : w ≠ []) :
    run rs w = if rs = [] then some [] else none := by
  induction w generalizing rs with
  | nil => exact absurd rfl hne
  | cons b w ih =>
    rw [run, step_ascii rs (hw b (by simp))]
    by_cases hrs : rs = []
    · rw [if_pos hrs, Option.bind_some]
      cases w with
      | nil => rfl
      | cons c w => exact ih [] (fun b hb => hw b (by simp [hb])) (by simp)
    · rw [if_neg hrs, Option.bind_none]

/-- An ASCII byte cuts a text in two. -/
theorem valid_append_cons (u : List Byte) {b : Byte} (hb : b < 0x80) (v : List Byte) :
    Valid (u ++ b :: v) ↔ Valid u ∧ Valid v := by
  unfold Valid
  rw [run_append]
  cases hu : run [] u with
  | none => simp
  | some rs =>
    rw [Option.bind_some, run, step_ascii rs hb]
    by_cases hrs : rs = []
    · simp [hrs]
    · simp [hrs]

theorem valid_cons {b : Byte} (hb : b < 0x80) (v : List Byte) : Valid (b :: v) ↔ Valid v := by
  have h := valid_append_cons [] hb v
  simpa [Valid, run] using h

end TetraBs.Utf8
