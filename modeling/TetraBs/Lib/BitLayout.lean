import TetraBs.Lib.Bits
import TetraBs.Lib.BitReader

/-! Layouts of bit strings, and decoders that read exactly what is laid out. Nothing here is about
TETRA. -/
namespace TetraBs.BitLayout
open TetraBs.Bits

/-- `C t s s'`: the string `s` begins with `t`, laid out as `C` has it, and goes on with `s'`. -/
abbrev Layout (τ : Type) := τ → List Bool → List Bool → Prop

section
variable {τ υ : Type}

/-- One bit string for each thing, whatever follows. -/
def coded (bits : τ → List Bool) (P : τ → Prop) : Layout τ := fun t s s' => P t ∧ s = bits t ++ s'

def field (n : Nat) : Layout (BitVec n) := fun v s s' => s = msbBits v n ++ s'

/-- There only if `c` holds. -/
def partIf (c : Bool) (C : Layout τ) : Layout (Option τ)
  | none, s, s' => c = false ∧ s = s'
  | some t, s, s' => c = true ∧ C t s s'

def fieldIf (c : Bool) (n : Nat) : Layout (Option (BitVec n)) := partIf c (field n)

/-- A field behind a bit that says whether it is there. -/
def optionalBits {n : Nat} : Option (BitVec n) → List Bool
  | none => [false]
  | some v => true :: msbBits v n

def optional (n : Nat) : Layout (Option (BitVec n)) := fun o s s' => s = optionalBits o ++ s'

/-- `n` bits of any kind. -/
def body (n : Nat) : Layout (List Bool) := fun u s s' => u.length = n ∧ s = u ++ s'

def bit : Layout Bool := fun b s s' => s = b :: s'

/-- Nothing, if not `c`. -/
def refusing (c : Bool) : Layout Unit := fun _ s s' => c = false ∧ s = s'

def nothing : Layout Unit := fun _ s s' => s = s'

def andThen (C : Layout τ) (D : τ → Layout υ) : Layout (τ × υ) := fun p s s'' =>
  ∃ s', C p.1 s s' ∧ D p.1 p.2 s' s''

/-- There exactly if the string goes on with its tag. -/
def element (tag : List Bool) (C : Layout τ) : Layout (Option τ)
  | none, s, s' => ¬tag <+: s ∧ s = s'
  | some t, s, s' => ∃ m, s = tag ++ m ∧ C t m s'

/-- A bit that is zero, or the end of the string. -/
def closing : Layout Bool
  | true, s, s' => s = false :: s'
  | false, s, s' => s = [] ∧ s = s'

/-- No string begins with two different codes. -/
def PrefixCode (bits : τ → List Bool) (P : τ → Prop) : Prop :=
  ∀ ⦃t u s s'⦄, P t → P u → bits t ++ s = bits u ++ s' → t = u ∧ s = s'

theorem msbBits_append_inj {n : Nat} {v u : BitVec n} {s s' : List Bool} :
    msbBits v n ++ s = msbBits u n ++ s' ↔ v = u ∧ s = s' := by
  constructor
  · intro h
    obtain ⟨hv, hs⟩ := List.append_inj h (by rw [msbBits_length, msbBits_length])
    exact ⟨BitVec.eq_of_getLsbD_eq fun j hj => msbBits_inj hv hj, hs⟩
  · rintro ⟨rfl, rfl⟩
    rfl

theorem fieldIf_absent {c : Bool} {n : Nat} {o : Option (BitVec n)} {s s' : List Bool}
    (h : fieldIf c n o s s') (hc : c = false) : o = none ∧ s = s' := by
  cases o with
  | none => exact ⟨rfl, h.2⟩
  | some v => exact absurd (hc.symm.trans h.1) nofun

theorem fieldIf_present {c : Bool} {n : Nat} {o : Option (BitVec n)} {s s' : List Bool}
    (h : fieldIf c n o s s') (hc : c = true) : ∃ v, o = some v ∧ s = msbBits v n ++ s' := by
  cases o with
  | none => exact absurd (h.1.symm.trans hc) nofun
  | some v => exact ⟨v, rfl, h.2⟩

/-- A field and the bit that says whether it is there. -/
theorem fieldIf_iff {c : Bool} {n : Nat} {o : Option (BitVec n)} {s s' : List Bool} :
    fieldIf c n o s s' ↔ o.isSome = c ∧ c :: s = optionalBits o ++ s' := by
  cases o with
  | none =>
    constructor
    · rintro ⟨rfl, rfl⟩
      exact ⟨rfl, rfl⟩
    · rintro ⟨rfl, h⟩
      exact ⟨rfl, (List.cons.inj h).2⟩
  | some v =>
    constructor
    · rintro ⟨rfl, rfl⟩
      exact ⟨rfl, rfl⟩
    · rintro ⟨rfl, h⟩
      exact ⟨rfl, (List.cons.inj h).2⟩

theorem exists_msbBits {n : Nat} {u : List Bool} (h : u.length = n) :
    ∃ v : BitVec n, msbBits v n = u := by
  subst h
  refine ⟨BitVec.ofBoolListBE u, List.ext_getElem (msbBits_length _ _) fun k hk hk' => ?_⟩
  have hback : u.length - 1 - (u.length - 1 - k) = k := by omega
  simp only [msbBits, List.getElem_map, List.getElem_range, BitVec.getLsbD_ofBoolListBE, hback,
    (by omega : u.length - 1 - k < u.length), decide_true, Bool.true_and]
  exact (List.getElem_eq_getD false).symm

theorem optionalBits_append_inj {n : Nat} {o p : Option (BitVec n)} {s s' : List Bool} :
    optionalBits o ++ s = optionalBits p ++ s' ↔ o = p ∧ s = s' := by
  cases o <;> cases p <;> simp [optionalBits, msbBits_append_inj]

theorem PrefixCode.flatMap {bits : τ → List Bool} {P : τ → Prop} (h : PrefixCode bits P)
    {xs ys : List τ} {s s' : List Bool} (hx : ∀ x ∈ xs, P x) (hy : ∀ y ∈ ys, P y)
    (hlen : xs.length = ys.length) (heq : xs.flatMap bits ++ s = ys.flatMap bits ++ s') :
    xs = ys ∧ s = s' := by
  induction xs generalizing ys with
  | nil =>
    obtain rfl := List.eq_nil_of_length_eq_zero hlen.symm
    exact ⟨rfl, heq⟩
  | cons x xs ih =>
    obtain _ | ⟨y, ys⟩ := ys
    · cases hlen
    rw [List.flatMap_cons, List.flatMap_cons, List.append_assoc, List.append_assoc] at heq
    obtain ⟨rfl, htail⟩ := h (hx x List.mem_cons_self) (hy y List.mem_cons_self) heq
    obtain ⟨rfl, rfl⟩ := ih (fun z hz => hx z (List.mem_cons_of_mem x hz))
      (fun z hz => hy z (List.mem_cons_of_mem x hz)) (Nat.succ.inj hlen) htail
    exact ⟨rfl, rfl⟩

/-- An element behind its tag, or nothing. -/
def taggedBits (tag : List Bool) (bits : τ → List Bool) : Option τ → List Bool
  | none => []
  | some t => tag ++ bits t

def closingBits (c : Bool) : List Bool := if c then [false] else []

theorem element_iff {tag s s' : List Bool} {bits : τ → List Bool} {P : τ → Prop} {o : Option τ} :
    element tag (coded bits P) o s s' ↔
      (∀ t ∈ o, P t) ∧ s = taggedBits tag bits o ++ s' ∧ (o = none → ¬tag <+: s') := by
  cases o with
  | none =>
    constructor
    · rintro ⟨hno, rfl⟩
      exact ⟨fun _ h => (nomatch h), rfl, fun _ => hno⟩
    · rintro ⟨-, rfl, hno⟩
      exact ⟨hno rfl, rfl⟩
  | some t =>
    constructor
    · rintro ⟨m, rfl, hP, rfl⟩
      refine ⟨fun u hu => ?_, by rw [taggedBits, List.append_assoc], nofun⟩
      cases hu
      exact hP
    · rintro ⟨hP, rfl, -⟩
      exact ⟨bits t ++ s', by rw [taggedBits, List.append_assoc], hP t rfl, rfl⟩

theorem closing_iff {c : Bool} {s s' : List Bool} :
    closing c s s' ↔ s = closingBits c ++ s' ∧ (c = true ∨ s' = []) := by
  cases c with
  | false =>
    constructor
    · rintro ⟨rfl, rfl⟩
      exact ⟨rfl, Or.inr rfl⟩
    · rintro ⟨rfl, h | rfl⟩
      · cases h
      · exact ⟨rfl, rfl⟩
  | true => exact ⟨fun h => ⟨h, Or.inl rfl⟩, fun h => h.1⟩

/-- Behind a tag that is another, or a zero, a tag does not stand. -/
theorem not_tag_taggedBits {tag other s : List Bool} {bits : τ → List Bool} {o : Option τ}
    (hlen : tag.length = other.length) (hne : tag ≠ other) (hs : ¬tag <+: s) :
    ¬tag <+: taggedBits other bits o ++ s := by
  cases o with
  | none => exact hs
  | some t =>
    rw [taggedBits, List.append_assoc]
    intro h
    exact hne (List.prefix_of_prefix_length_le h (List.prefix_append _ _) (Nat.le_of_eq hlen)
      |>.eq_of_length hlen)

theorem not_tag_closingBits {tag s : List Bool} {c : Bool} (hs : c = true ∨ s = []) :
    ¬true :: tag <+: closingBits c ++ s := by
  cases c with
  | true =>
    intro h
    exact absurd (List.cons_prefix_cons.1 h).1 (by decide)
  | false =>
    obtain rfl := hs.resolve_left nofun
    exact fun h => nomatch List.prefix_nil.1 h

/-- An element is determined where it stands, if what follows does not begin with its tag. -/
theorem PrefixCode.element {bits : τ → List Bool} {P : τ → Prop} (h : PrefixCode bits P)
    {tag s s' : List Bool} {o p : Option τ} (ho : ∀ t ∈ o, P t) (hp : ∀ t ∈ p, P t)
    (hs : ¬tag <+: s) (hs' : ¬tag <+: s')
    (heq : taggedBits tag bits o ++ s = taggedBits tag bits p ++ s') : o = p ∧ s = s' := by
  cases o with
  | none =>
    cases p with
    | none => exact ⟨rfl, heq⟩
    | some u =>
      rw [taggedBits, taggedBits, List.nil_append, List.append_assoc] at heq
      exact absurd ⟨_, heq.symm⟩ hs
  | some t =>
    rw [taggedBits, List.append_assoc] at heq
    cases p with
    | none => exact absurd ⟨_, heq⟩ hs'
    | some u =>
      rw [taggedBits, List.append_assoc] at heq
      obtain ⟨rfl, rfl⟩ := h (ho t rfl) (hp u rfl) (List.append_cancel_left heq)
      exact ⟨rfl, rfl⟩

theorem closingBits_inj {c e : Bool} {s s' : List Bool} (hc : c = true ∨ s = [])
    (he : e = true ∨ s' = []) (h : closingBits c ++ s = closingBits e ++ s') :
    c = e ∧ s = s' := by
  cases c <;> cases e <;> simp_all [closingBits]

end

/-- What a decoder's state says about the string that is left. A state that is not `Good` has lost
the string; `Valid` is what every step keeps. -/
structure Cursor (σ : Type) where
  rest : σ → List Bool
  Valid : σ → Prop
  Good : σ → Prop
  Same : σ → σ → Prop
  same_refl : ∀ r, Same r r
  same_trans : ∀ {r s t}, Same r s → Same s t → Same r t

/-- From a good state `d` reads exactly the strings that begin with some `t`, as `C` has it, and
returns `f t`; from any other state it does not come back to a good one. -/
structure Parses {σ ε α τ : Type} (V : Cursor σ) (d : Decoder σ ε α) (C : Layout τ) (f : τ → α) :
    Prop where
  keeps : ∀ {r a r'}, d.run r = .ok (a, r') → V.Valid r → V.Valid r'
  good_of : ∀ {r a r'}, d.run r = .ok (a, r') → V.Good r' → V.Good r
  reads : ∀ {r a r'}, d.run r = .ok (a, r') → V.Good r' →
    V.Same r r' ∧ ∃ t, C t (V.rest r) (V.rest r') ∧ f t = a
  accepts : ∀ {r t s'}, V.Good r → C t (V.rest r) s' →
    ∃ r', d.run r = .ok (f t, r') ∧ V.Good r' ∧ V.Same r r' ∧ V.rest r' = s'

section
variable {σ ε α β τ υ : Type} {V : Cursor σ}

theorem parses_pure (a : α) : Parses V (pure a : Decoder σ ε α) nothing fun _ => a where
  keeps h hr := by cases h; exact hr
  good_of h hr := by cases h; exact hr
  reads h _ := by cases h; exact ⟨V.same_refl _, (), rfl, rfl⟩
  accepts hr h := ⟨_, rfl, hr, V.same_refl _, h⟩

theorem run_bind_ok {d : Decoder σ ε α} {g : α → Decoder σ ε β} {r r' : σ} {b : β}
    (h : (d >>= g).run r = .ok (b, r')) :
    ∃ a m, d.run r = .ok (a, m) ∧ (g a).run m = .ok (b, r') := by
  rw [StateT.run_bind] at h
  cases hd : d.run r with
  | error e =>
    rw [hd] at h
    cases h
  | ok p =>
    rw [hd] at h
    exact ⟨p.1, p.2, rfl, h⟩

theorem Parses.bind {d : Decoder σ ε α} {g : α → Decoder σ ε β} {C : Layout τ} {f : τ → α}
    {D : α → Layout υ} {h : α → υ → β} (hd : Parses V d C f)
    (hg : ∀ a, Parses V (g a) (D a) (h a)) :
    Parses V (d >>= g) (andThen C fun t => D (f t)) fun p => h (f p.1) p.2 where
  keeps hrun hr := by
    obtain ⟨a, m, h1, h2⟩ := run_bind_ok hrun
    exact (hg a).keeps h2 (hd.keeps h1 hr)
  good_of hrun hr := by
    obtain ⟨a, m, h1, h2⟩ := run_bind_ok hrun
    exact hd.good_of h1 ((hg a).good_of h2 hr)
  reads hrun hr := by
    obtain ⟨a, m, h1, h2⟩ := run_bind_ok hrun
    have hm := (hg a).good_of h2 hr
    obtain ⟨hsame, t, ht, rfl⟩ := hd.reads h1 hm
    obtain ⟨hsame', u, hu, rfl⟩ := (hg (f t)).reads h2 hr
    exact ⟨V.same_trans hsame hsame', (t, u), ⟨_, ht, hu⟩, rfl⟩
  accepts hr hC := by
    obtain ⟨m, ht, hu⟩ := hC
    obtain ⟨r', h1, hr', hsame, rfl⟩ := hd.accepts hr ht
    obtain ⟨r'', h2, hr'', hsame', hrest⟩ := (hg _).accepts hr' hu
    refine ⟨r'', ?_, hr'', V.same_trans hsame hsame', hrest⟩
    rw [StateT.run_bind, h1]
    exact h2

/-- The same strings under another description. -/
theorem Parses.relayout {d : Decoder σ ε α} {C : Layout τ} {f : τ → α} {D : Layout υ} {g : υ → α}
    (hd : Parses V d C f) (hto : ∀ {t s s'}, C t s s' → ∃ u, D u s s' ∧ g u = f t)
    (hof : ∀ {u s s'}, D u s s' → ∃ t, C t s s' ∧ f t = g u) : Parses V d D g where
  keeps := hd.keeps
  good_of := hd.good_of
  reads hrun hr := by
    obtain ⟨hsame, t, ht, rfl⟩ := hd.reads hrun hr
    exact ⟨hsame, hto ht⟩
  accepts hr hD := by
    obtain ⟨t, ht, hval⟩ := hof hD
    rw [← hval]
    exact hd.accepts hr ht

theorem Parses.value {d : Decoder σ ε α} {C : Layout τ} {f g : τ → α} (hd : Parses V d C f)
    (h : ∀ t, f t = g t) : Parses V d C g :=
  funext h ▸ hd

theorem Parses.bind_pure {d : Decoder σ ε α} {C : Layout τ} {f : τ → α} (hd : Parses V d C f)
    (g : α → β) : Parses V (d >>= fun a => pure (g a)) C fun t => g (f t) := by
  refine (hd.bind fun a => parses_pure (g a)).relayout ?_ ?_
  · rintro ⟨t, u⟩ s s' ⟨_, ht, rfl⟩
    exact ⟨t, ht, rfl⟩
  · intro t s s' ht
    exact ⟨(t, ()), ⟨s', ht, rfl⟩, rfl⟩

end
end TetraBs.BitLayout
