import TetraBs.Lib.BitReader
import Mathlib.Data.List.Basic

/-! Readers of fields at a position in a bit string that keep what they find under keys, one find
behind the other. A reader that stops leaves what it has found. -/
namespace TetraBs.FieldReader
open TetraBs.Bits TetraBs.BitReader
variable {κ α β : Type}

/-- What was found, in the order in which it was. -/
abbrev Finds (κ : Type) := List (κ × Nat)

/-- The position and what was found. -/
abbrev Cursor (κ : Type) := Nat × Finds κ

abbrev FieldM (κ α : Type) := ReaderT (List Bool) (StateT (Cursor κ) (Except (Cursor κ))) α

/-- The number in the `n` bits from `pos` on. -/
def numberAt (bits : List Bool) (pos n : Nat) : Nat := ofBits ((bits.drop pos).take n)

/-- There are `n` more bits. -/
def room (n : Nat) : FieldM κ Bool := fun bits s => .ok (decide (s.1 + n ≤ bits.length), s)

def find (k : κ) (v : Nat) : FieldM κ Unit := fun _ s => .ok ((), (s.1, s.2 ++ [(k, v)]))

def findPosition (k : κ) : FieldM κ Unit := fun _ s => .ok ((), (s.1, s.2 ++ [(k, s.1)]))

/-- A field of `n` bits, without which the reader stops. -/
def field (k : κ) (n : Nat) : FieldM κ Nat := fun bits s =>
  if bits.length < s.1 + n then .error s
  else .ok (numberAt bits s.1 n, (s.1 + n, s.2 ++ [(k, numberAt bits s.1 n)]))

/-- A field that is read and not kept. -/
def skipped (n : Nat) : FieldM κ Nat := fun bits s =>
  if bits.length < s.1 + n then .error s else .ok (numberAt bits s.1 n, (s.1 + n, s.2))

/-- A field that is left out if there is no room for it. -/
def fieldIfRoom (k : κ) (n : Nat) : FieldM κ Unit := do
  if ← room n then
    let _ ← field k n

/-- A part that can stop without what follows it. -/
def part (m : FieldM κ Unit) : FieldM κ Unit := fun bits s =>
  match m bits s with
  | .error t => .ok ((), t)
  | .ok (_, t) => .ok ((), t)

/-- What is found from `pos` on, whether or not the reader stops. -/
def findsFrom (m : FieldM κ Unit) (bits : List Bool) (pos : Nat) : Finds κ :=
  match m bits (pos, []) with
  | .error s => s.2
  | .ok (_, s) => s.2

/-- At the position `pos`, `m` reads `bs` and finds `kvs`. -/
def Takes (pos : Nat) (m : FieldM κ α) (bs : List Bool) (kvs : Finds κ) (a : α) : Prop :=
  ∀ front back found, front.length = pos →
    m (front ++ (bs ++ back)) (pos, found) = .ok (a, (pos + bs.length, found ++ kvs))

variable {pos : Nat}

theorem ofBits_append (u v : List Bool) :
    ofBits (u ++ v) = 2 ^ v.length * ofBits u + ofBits v := by
  induction u with
  | nil => simp [ofBits]
  | cons b u ih =>
    rw [List.cons_append, ofBits, ofBits, ih, List.length_append, Nat.pow_add, Nat.mul_add,
      ← Nat.mul_assoc, Nat.mul_comm (2 ^ u.length), Nat.add_assoc]

theorem numberAt_add {bits : List Bool} {m n : Nat} (h : pos + m + n ≤ bits.length) :
    numberAt bits pos (m + n) = 2 ^ n * numberAt bits pos m + numberAt bits (pos + m) n := by
  have hlen : ((bits.drop (pos + m)).take n).length = n := by
    rw [List.length_take, List.length_drop]
    omega
  rw [numberAt, List.take_add, List.drop_drop, ofBits_append, hlen]
  rfl

theorem takes_pure (a : α) : Takes pos (pure a : FieldM κ α) [] [] a := by
  intro front back found hfront
  rw [List.append_nil]
  rfl

theorem Takes.bind {m : FieldM κ α} {f : α → FieldM κ β} {bs cs : List Bool}
    {kvs lvs : Finds κ} {a : α} {b : β} (hm : Takes pos m bs kvs a)
    (hf : Takes (pos + bs.length) (f a) cs lvs b) :
    Takes pos (m >>= f) (bs ++ cs) (kvs ++ lvs) b := by
  intro front back found hfront
  have h1 := hm front (cs ++ back) found hfront
  have h2 := hf (front ++ bs) back (found ++ kvs) (by rw [List.length_append, hfront])
  rw [List.append_assoc, List.append_assoc] at h2
  have hrun : (m >>= f) (front ++ (bs ++ (cs ++ back))) (pos, found) =
      f a (front ++ (bs ++ (cs ++ back))) (pos + bs.length, found ++ kvs) := by
    show (m (front ++ (bs ++ (cs ++ back))) (pos, found)).bind _ = _
    rw [h1]
    rfl
  rw [List.append_assoc, hrun, h2, List.length_append, Nat.add_assoc]

/-- A last step that reads nothing. -/
theorem Takes.bind_end {m : FieldM κ α} {f : α → FieldM κ β} {bs : List Bool}
    {kvs lvs : Finds κ} {a : α} {b : β} (hm : Takes pos m bs kvs a)
    (hf : Takes (pos + bs.length) (f a) [] lvs b) : Takes pos (m >>= f) bs (kvs ++ lvs) b := by
  have h := hm.bind hf
  rwa [List.append_nil] at h

/-- A first step that only finds. -/
theorem Takes.find {f : Unit → FieldM κ β} {bs : List Bool} {kvs : Finds κ} {b : β} {k : κ}
    {v : Nat} (hf : Takes pos (f ()) bs kvs b) :
    Takes pos (FieldReader.find k v >>= f) bs ((k, v) :: kvs) b := by
  intro front back found hfront
  have h := hf front back (found ++ [(k, v)]) hfront
  rw [List.append_assoc] at h
  exact h

theorem takes_findPosition (k : κ) {n : Nat} (hn : pos = n) :
    Takes pos (findPosition k) [] [(k, n)] () := by
  intro front back found hfront
  rw [← hn]
  rfl

theorem numberAt_middle {front : List Bool} (h : front.length = pos) (bs back : List Bool) :
    numberAt (front ++ (bs ++ back)) pos bs.length = ofBits bs := by
  rw [numberAt, ← h, List.drop_left, List.take_left]

theorem takes_field (pos : Nat) (k : κ) (bs : List Bool) :
    Takes pos (field k bs.length) bs [(k, ofBits bs)] (ofBits bs) := by
  intro front back found hfront
  have hroom : ¬ (front ++ (bs ++ back)).length < pos + bs.length := by
    rw [List.length_append, List.length_append]
    omega
  show (if (front ++ (bs ++ back)).length < pos + bs.length then _ else _) = _
  rw [if_neg hroom, numberAt_middle hfront bs back]

theorem takes_bits {k : κ} {bs : List Bool} {n : Nat} (hn : bs.length = n) :
    Takes pos (field k n) bs [(k, ofBits bs)] (ofBits bs) := by
  subst hn
  exact takes_field pos k bs

theorem Takes.bits {f : Nat → FieldM κ β} {bs cs : List Bool} {lvs : Finds κ} {b : β} {k : κ}
    {n : Nat} (hn : bs.length = n) (hf : Takes (pos + n) (f (ofBits bs)) cs lvs b) :
    Takes pos (field k n >>= f) (bs ++ cs) ((k, ofBits bs) :: lvs) b := by
  refine (takes_bits hn).bind ?_
  rwa [hn]

theorem takes_value {w : Nat} (pos : Nat) (k : κ) (v : BitVec w) :
    Takes pos (field k w) (msbBits v w) [(k, v.toNat)] v.toNat := by
  have h := takes_field pos k (msbBits v w)
  rwa [msbBits_length, ofBits_msbBits, Nat.mod_eq_of_lt v.isLt] at h

theorem Takes.value {w : Nat} {f : Nat → FieldM κ β} {cs : List Bool} {lvs : Finds κ} {b : β}
    {k : κ} (v : BitVec w) (hf : Takes (pos + w) (f v.toNat) cs lvs b) :
    Takes pos (field k w >>= f) (msbBits v w ++ cs) ((k, v.toNat) :: lvs) b := by
  refine (takes_value pos k v).bind ?_
  rwa [msbBits_length]

theorem Takes.flag {f : Nat → FieldM κ β} {cs : List Bool} {lvs : Finds κ} {b : β} {k : κ}
    (c : Bool) (hf : Takes (pos + 1) (f c.toNat) cs lvs b) :
    Takes pos (field k 1 >>= f) (c :: cs) ((k, c.toNat) :: lvs) b := by
  have hbit : ofBits [c] = c.toNat := by cases c <;> rfl
  have h := takes_field pos k [c]
  rw [hbit] at h
  exact h.bind hf

/-- There is room for what follows. -/
theorem Takes.room {m : Bool → FieldM κ β} {bs : List Bool} {kvs : Finds κ} {b : β} {n : Nat}
    (hm : Takes pos (m true) bs kvs b) (hn : n ≤ bs.length) :
    Takes pos (FieldReader.room n >>= m) bs kvs b := by
  intro front back found hfront
  have hroom : decide (pos + n ≤ (front ++ (bs ++ back)).length) = true := by
    rw [decide_eq_true_eq, List.length_append, List.length_append]
    omega
  have h := hm front back found hfront
  rw [← hroom] at h
  exact h

theorem takes_bitsIfRoom (k : κ) {bs : List Bool} {n : Nat} (hn : bs.length = n) :
    Takes pos (fieldIfRoom k n) bs [(k, ofBits bs)] () := by
  subst hn
  have h : Takes pos (field k bs.length >>= fun _ => pure ()) bs ([(k, ofBits bs)] ++ []) () :=
    (takes_field pos k bs).bind_end (takes_pure ())
  exact Takes.room h (Nat.le_refl _)

theorem takes_valueIfRoom {w : Nat} (k : κ) (v : BitVec w) :
    Takes pos (fieldIfRoom k w) (msbBits v w) [(k, v.toNat)] () := by
  have hv : v.toNat = ofBits (msbBits v w) := by
    rw [ofBits_msbBits, Nat.mod_eq_of_lt v.isLt]
  rw [hv]
  exact takes_bitsIfRoom k (msbBits_length v w)

theorem Takes.part {m : FieldM κ Unit} {bs : List Bool} {kvs : Finds κ}
    (h : Takes pos m bs kvs ()) : Takes pos (FieldReader.part m) bs kvs () := by
  intro front back found hfront
  rw [FieldReader.part, h front back found hfront]

theorem Takes.findsFrom {m : FieldM κ Unit} {bs : List Bool} {kvs : Finds κ}
    (h : Takes pos m bs kvs ()) {front : List Bool} (hfront : front.length = pos)
    (back : List Bool) : FieldReader.findsFrom m (front ++ (bs ++ back)) pos = kvs := by
  rw [FieldReader.findsFrom, h front back [] hfront]
  rfl

/-! On one bit string, whatever it holds. -/

/-- From `pos` on, `m` finds `kvs` and gets to `stop`. -/
def Gives (bits : List Bool) (pos : Nat) (m : FieldM κ α) (kvs : Finds κ) (a : α) (stop : Nat) :
    Prop :=
  ∀ found, m bits (pos, found) = .ok (a, (stop, found ++ kvs))

section
variable {bits : List Bool} {stop : Nat}

theorem gives_pure (a : α) : Gives bits pos (pure a : FieldM κ α) [] a pos := by
  intro found
  rw [List.append_nil]
  rfl

theorem Gives.bind {m : FieldM κ α} {f : α → FieldM κ β} {kvs lvs : Finds κ} {a : α} {b : β}
    {mid : Nat} (hm : Gives bits pos m kvs a mid) (hf : Gives bits mid (f a) lvs b stop) :
    Gives bits pos (m >>= f) (kvs ++ lvs) b stop := by
  intro found
  show (m bits (pos, found)).bind _ = _
  rw [hm found, ← List.append_assoc]
  exact hf (found ++ kvs)

theorem gives_field (k : κ) {n : Nat} (h : pos + n ≤ bits.length) :
    Gives bits pos (field k n) [(k, numberAt bits pos n)] (numberAt bits pos n) (pos + n) := by
  intro found
  rw [field, if_neg (Nat.not_lt.2 h)]

theorem Gives.field {f : Nat → FieldM κ β} {lvs : Finds κ} {b : β} {k : κ} {n v : Nat}
    (h : pos + n ≤ bits.length) (hv : numberAt bits pos n = v)
    (hf : Gives bits (pos + n) (f v) lvs b stop) :
    Gives bits pos (FieldReader.field k n >>= f) ((k, v) :: lvs) b stop := by
  subst hv
  exact (gives_field k h).bind hf

theorem Gives.skipped {f : Nat → FieldM κ β} {lvs : Finds κ} {b : β} {n v : Nat}
    (h : pos + n ≤ bits.length) (hv : numberAt bits pos n = v)
    (hf : Gives bits (pos + n) (f v) lvs b stop) :
    Gives bits pos (FieldReader.skipped n >>= f) lvs b stop := by
  intro found
  rw [← hv] at hf
  show (FieldReader.skipped n bits (pos, found)).bind _ = _
  rw [FieldReader.skipped, if_neg (Nat.not_lt.2 h)]
  exact hf found

theorem Gives.room {m : Bool → FieldM κ β} {kvs : Finds κ} {b : β} {n : Nat}
    (h : pos + n ≤ bits.length) (hm : Gives bits pos (m true) kvs b stop) :
    Gives bits pos (FieldReader.room n >>= m) kvs b stop := by
  intro found
  rw [← decide_eq_true h] at hm
  exact hm found

theorem gives_findPosition (k : κ) : Gives bits pos (findPosition k) [(k, pos)] () pos :=
  fun _ => rfl

theorem Gives.findsFrom {m : FieldM κ Unit} {kvs : Finds κ} (h : Gives bits pos m kvs () stop) :
    FieldReader.findsFrom m bits pos = kvs := by
  rw [FieldReader.findsFrom, h []]
  rfl

end

/-! What was found stays. -/

/-- What was found when a reader came to its end or stopped. -/
def finds : Except (Cursor κ) (α × Cursor κ) → Finds κ
  | .error s => s.2
  | .ok (_, s) => s.2

def Keeps (m : FieldM κ α) : Prop := ∀ bits s, s.2 <+: finds (m bits s)

theorem keeps_pure (a : α) : Keeps (pure a : FieldM κ α) := fun _ _ => List.prefix_rfl

theorem Keeps.bind {m : FieldM κ α} {f : α → FieldM κ β} (hm : Keeps m) (hf : ∀ a, Keeps (f a)) :
    Keeps (m >>= f) := by
  intro bits s
  have hfirst := hm bits s
  show s.2 <+: finds ((m bits s).bind fun r => f r.1 bits r.2)
  cases hrun : m bits s with
  | error t =>
    rw [hrun] at hfirst
    exact hfirst
  | ok r =>
    rw [hrun] at hfirst
    exact List.IsPrefix.trans hfirst (hf r.1 bits r.2)

theorem keeps_room (n : Nat) : Keeps (room n : FieldM κ Bool) := fun _ _ => List.prefix_rfl

theorem keeps_findPosition (k : κ) : Keeps (findPosition k) := fun _ _ => List.prefix_append _ _

theorem keeps_field (k : κ) (n : Nat) : Keeps (field k n) := by
  intro bits s
  by_cases h : bits.length < s.1 + n
  · have hrun : field k n bits s = .error s := if_pos h
    rw [hrun]
    exact List.prefix_rfl
  · have hrun : field k n bits s = .ok (numberAt bits s.1 n,
        (s.1 + n, s.2 ++ [(k, numberAt bits s.1 n)])) := if_neg h
    rw [hrun]
    exact List.prefix_append _ _

theorem keeps_fieldIfRoom (k : κ) (n : Nat) : Keeps (fieldIfRoom k n) := by
  refine (keeps_room n).bind fun b => ?_
  cases b with
  | false => exact keeps_pure ()
  | true => exact (keeps_field k n).bind fun _ => keeps_pure ()

/-- What the first part finds is found first. -/
theorem Gives.found_first {bits : List Bool} {stop : Nat} {m : FieldM κ α} {f : α → FieldM κ Unit}
    {kvs : Finds κ} {a : α} (hm : Gives bits pos m kvs a stop) (hf : Keeps (f a)) :
    kvs <+: FieldReader.findsFrom (m >>= f) bits pos := by
  have hrest := hf bits (stop, kvs)
  have hrun : (m >>= f) bits (pos, []) = f a bits (stop, kvs) := by
    show (m bits (pos, [])).bind _ = _
    rw [hm []]
    rfl
  have hfinds : FieldReader.findsFrom (m >>= f) bits pos = finds (f a bits (stop, kvs)) := by
    rw [FieldReader.findsFrom, hrun]
    cases f a bits (stop, kvs) <;> rfl
  rw [hfinds]
  exact hrest

end TetraBs.FieldReader
