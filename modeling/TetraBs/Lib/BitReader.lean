import TetraBs.Lib.Bits
import Mathlib.Control.Basic

/-! Decoders: a cursor that moves, and a result or an error. What a decoder ensures, stated for
the results it does return. Nothing here is about TETRA. -/
namespace TetraBs

abbrev Decoder (σ ε α : Type) := StateT σ (Except ε) α

namespace Decoder
variable {σ ε α β : Type}

/-- Whatever `d` returns from a state in `P` meets `Q`. -/
def Ensures (P : σ → Prop) (d : Decoder σ ε α) (Q : α → σ → Prop) : Prop :=
  ∀ s, P s → ∀ a s', d.run s = .ok (a, s') → Q a s'

theorem ensures_pure {P : σ → Prop} {Q : α → σ → Prop} {a : α} (h : ∀ s, P s → Q a s) :
    Ensures P (pure a : Decoder σ ε α) Q := by
  intro s hs b s' hrun
  cases hrun
  exact h s hs

theorem ensures_bind {P : σ → Prop} {R : α → σ → Prop} {Q : β → σ → Prop} {d : Decoder σ ε α}
    {f : α → Decoder σ ε β} (hd : Ensures P d R) (hf : ∀ a, Ensures (R a) (f a) Q) :
    Ensures P (d >>= f) Q := by
  intro s hs b s' hrun
  rw [StateT.run_bind] at hrun
  cases hd' : d.run s with
  | error e =>
    rw [hd'] at hrun
    cases hrun
  | ok r =>
    obtain ⟨a, t⟩ := r
    rw [hd'] at hrun
    exact hf a t (hd s hs a t hd') b s' hrun

theorem ensures_true (d : Decoder σ ε α) {P : σ → Prop} : Ensures P d fun _ _ => True :=
  fun _ _ _ _ _ => trivial

/-- A bind after which the result no longer depends on what came before. -/
theorem ensures_bind_any {P : σ → Prop} {Q : β → Prop} {d : Decoder σ ε α}
    {f : α → Decoder σ ε β} (hf : ∀ a, Ensures (fun _ => True) (f a) fun b _ => Q b) :
    Ensures P (d >>= f) fun b _ => Q b :=
  ensures_bind (ensures_true d) hf

/-- A bind whose first result is known by a fact that no longer mentions the state. -/
theorem ensures_bind_of {Q : α → Prop} {R : β → σ → Prop} {d : Decoder σ ε α}
    {f : α → Decoder σ ε β} (hd : Ensures (fun _ => True) d fun a _ => Q a)
    (hf : ∀ a, Q a → Ensures (fun _ => True) (f a) R) : Ensures (fun _ => True) (d >>= f) R :=
  ensures_bind hd fun a s ha => hf a ha s trivial

theorem ensures_ite {P : σ → Prop} {Q : α → σ → Prop} {c : Prop} [Decidable c]
    {d e : Decoder σ ε α} (hd : c → Ensures P d Q) (he : ¬c → Ensures P e Q) :
    Ensures P (if c then d else e) Q := by
  by_cases h : c
  · rw [if_pos h]
    exact hd h
  · rw [if_neg h]
    exact he h

theorem ensures_map_fst {P : σ → Prop} {d : Decoder σ ε α} {Q : α → σ → Prop}
    (h : Ensures P d Q) {s : σ} (hs : P s) {a : α} (hr : (d.run s).map Prod.fst = .ok a) :
    ∃ s', Q a s' := by
  cases hd : d.run s with
  | error e =>
    rw [hd] at hr
    cases hr
  | ok r =>
    rw [hd] at hr
    cases hr
    exact ⟨r.2, h s hs r.1 r.2 hd⟩

end Decoder
end TetraBs

/-! Readers of bit strings laid out field after field. A reader consumes the bits of what it reads
and leaves the rest. -/
namespace TetraBs.BitReader
open TetraBs.Bits

/-- The number a field stands for, most significant bit first. -/
def ofBits : List Bool → Nat
  | [] => 0
  | b :: bs => 2 ^ bs.length * b.toNat + ofBits bs

theorem msbBits_succ {w : Nat} (v : BitVec w) (n : Nat) :
    msbBits v (n + 1) = v.getLsbD n :: msbBits v n := by
  unfold msbBits
  rw [List.range_succ_eq_map, List.map_cons, List.map_map]
  refine congrArg₂ List.cons (by simp) (List.map_congr_left fun k _ => ?_)
  rw [Function.comp_apply, (by omega : n + 1 - 1 - (k + 1) = n - 1 - k)]

/-- A field written with `n` bits is read back modulo `2 ^ n`. -/
theorem ofBits_msbBits {w : Nat} (v : BitVec w) (n : Nat) :
    ofBits (msbBits v n) = v.toNat % 2 ^ n := by
  induction n with
  | zero => rw [Nat.pow_zero, Nat.mod_one]; rfl
  | succ n ih =>
    rw [msbBits_succ, ofBits, ih, msbBits_length, Nat.mod_pow_succ, BitVec.getLsbD,
      Nat.toNat_testBit]
    exact Nat.add_comm _ _

abbrev Reader := Decoder (List Bool) Unit

def takeField (n : Nat) : Reader Nat := fun bs =>
  if bs.length < n then .error () else .ok (ofBits (bs.take n), bs.drop n)

/-- A field that is there only if `c` holds, and zero otherwise. -/
def takeFieldIf (c : Bool) (n : Nat) : Reader Nat := if c then takeField n else pure 0

/-- A field with one value allowed. -/
def expectField (n v : Nat) : Reader Unit := do
  let x ← takeField n
  if x = v then pure () else throw ()

def takeMany {α : Type} (d : Reader α) : Nat → Reader (List α)
  | 0 => pure []
  | k + 1 => do
    let a ← d
    let as ← takeMany d k
    return a :: as

/-- A length field of `n` bits, then what `d` reads, which has to be as long. -/
def withLength {α : Type} (n : Nat) (d : Reader α) : Reader α := do
  let length ← takeField n
  let before ← get
  let a ← d
  let rest ← get
  if before.length = length + rest.length then return a else throw ()

/-- `d` reads `bs` as `a`, whatever follows. -/
def Reads {α : Type} (d : Reader α) (bs : List Bool) (a : α) : Prop :=
  ∀ rest, d.run (bs ++ rest) = .ok (a, rest)

variable {α β : Type}

theorem reads_pure (a : α) : Reads (pure a) [] a := fun _ => rfl

theorem Reads.bind {d : Reader α} {f : α → Reader β} {bs cs : List Bool} {a : α} {b : β}
    (hd : Reads d bs a) (hf : Reads (f a) cs b) : Reads (d >>= f) (bs ++ cs) b := by
  intro rest
  rw [StateT.run_bind, List.append_assoc, hd]
  exact hf rest

/-- A last step that reads nothing more. -/
theorem Reads.bind_end {d : Reader α} {f : α → Reader β} {bs : List Bool} {a : α} {b : β}
    (hd : Reads d bs a) (hf : Reads (f a) [] b) : Reads (d >>= f) bs b := by
  have h := hd.bind hf
  rwa [List.append_nil] at h

theorem reads_takeField {w : Nat} (v : BitVec w) (n : Nat) :
    Reads (takeField n) (msbBits v n) (v.toNat % 2 ^ n) := by
  intro rest
  have hlen : ¬(msbBits v n ++ rest).length < n := by
    rw [List.length_append, msbBits_length]
    omega
  have htake : (msbBits v n ++ rest).take n = msbBits v n :=
    List.take_left' (msbBits_length v n)
  have hdrop : (msbBits v n ++ rest).drop n = rest := List.drop_left' (msbBits_length v n)
  show takeField n (msbBits v n ++ rest) = _
  rw [takeField, if_neg hlen, htake, hdrop, ofBits_msbBits]

/-- The bits of a field that is there only if `c` holds. -/
def fieldIf {w : Nat} (c : Bool) (v : BitVec w) (n : Nat) : List Bool :=
  if c then msbBits v n else []

@[simp] theorem fieldIf_length {w : Nat} (c : Bool) (v : BitVec w) (n : Nat) :
    (fieldIf c v n).length = if c then n else 0 := by
  cases c
  · rfl
  · exact msbBits_length v n

theorem reads_takeFieldIf {w : Nat} (c : Bool) (v : BitVec w) (n : Nat) :
    Reads (takeFieldIf c n) (fieldIf c v n) (if c then v.toNat % 2 ^ n else 0) := by
  cases c
  · exact reads_pure 0
  · exact reads_takeField v n

theorem reads_expectField {w : Nat} (v : BitVec w) (n : Nat) :
    Reads (expectField n (v.toNat % 2 ^ n)) (msbBits v n) () := by
  refine (reads_takeField v n).bind_end ?_
  rw [if_pos rfl]
  exact reads_pure ()

theorem reads_takeMany {d : Reader β} {bits : α → List Bool} {value : α → β} {xs : List α}
    (h : ∀ x ∈ xs, Reads d (bits x) (value x)) :
    Reads (takeMany d xs.length) (xs.flatMap bits) (xs.map value) := by
  induction xs with
  | nil => exact reads_pure []
  | cons x xs ih =>
    have hrest := ih fun y hy => h y (List.mem_cons_of_mem x hy)
    exact (h x List.mem_cons_self).bind (hrest.bind_end (reads_pure (value x :: xs.map value)))

theorem reads_withLength {w : Nat} {d : Reader α} {bs : List Bool} {a : α} (hd : Reads d bs a)
    (v : BitVec w) {n : Nat} (hv : v.toNat % 2 ^ n = bs.length) :
    Reads (withLength n d) (msbBits v n ++ bs) a := by
  intro rest
  have hlen : (bs ++ rest).length = v.toNat % 2 ^ n + rest.length := by
    rw [List.length_append, hv]
  rw [withLength, StateT.run_bind, List.append_assoc, reads_takeField v n]
  show (do
    let r ← d.run (bs ++ rest)
    (if (bs ++ rest).length = v.toNat % 2 ^ n + r.2.length then (pure r.1 : Reader α)
      else throw ()).run r.2) = _
  rw [hd]
  show (if (bs ++ rest).length = v.toNat % 2 ^ n + rest.length then (pure a : Reader α)
    else throw ()).run rest = _
  rw [if_pos hlen]
  rfl

/-- A field behind a bit that says whether it is there. -/
def takeOptional (n : Nat) : Reader (Option Nat) := do
  let present ← takeField 1
  if present = 0 then pure none else do
    let v ← takeField n
    return some v

def flagged {w : Nat} (c : Bool) (v : BitVec w) (n : Nat) : List Bool :=
  msbBits (BitVec.ofBool c) 1 ++ fieldIf c v n

theorem reads_flagged {w : Nat} (c : Bool) (v : BitVec w) {n : Nat}
    (hv : c = true → v.toNat < 2 ^ n) :
    Reads (takeOptional n) (flagged c v n) (if c then some v.toNat else none) := by
  rw [takeOptional, flagged]
  refine (reads_takeField (BitVec.ofBool c) 1).bind ?_
  cases c with
  | false => exact reads_pure none
  | true =>
    have hvalue : v.toNat % 2 ^ n = v.toNat := Nat.mod_eq_of_lt (hv rfl)
    refine (reads_takeField v n).bind_end ?_
    rw [hvalue]
    exact reads_pure (some v.toNat)

end TetraBs.BitReader
