import TetraBs.Lib.Run

/-! Strobes that keep a distance from each other. Nothing here is about TETRA. -/
namespace TetraBs.Pacing
open TetraBs.Run
variable {σ ι : Type*}

/-- After every strobe the next `d` inputs carry none. -/
def Apart (strobe : ι → Bool) (d : Nat) : List ι → Prop
  | [] => True
  | i :: is => (strobe i = true → ∀ j ∈ is.take d, strobe j = false) ∧ Apart strobe d is

instance Apart.decidable (strobe : ι → Bool) (d : Nat) : (is : List ι) →
    Decidable (Apart strobe d is)
  | [] => isTrue trivial
  | i :: is =>
    have := Apart.decidable strobe d is
    inferInstanceAs (Decidable ((strobe i = true → ∀ j ∈ is.take d, strobe j = false) ∧
      Apart strobe d is))

theorem Apart.initial {strobe : ι → Bool} {d : Nat} {pre is : List ι} (h : Apart strobe d is)
    (hpre : pre <+: is) : Apart strobe d pre := by
  induction pre generalizing is with
  | nil => trivial
  | cons i pre ih =>
    obtain ⟨rest, rfl⟩ := hpre
    rw [List.cons_append] at h
    refine ⟨fun hi j hj => h.1 hi j ?_, ih h.2 (List.prefix_append pre rest)⟩
    have htake : (pre ++ rest).take d = pre.take d ++ rest.take (d - pre.length) :=
      List.take_append
    exact htake ▸ List.mem_append_left _ hj

theorem Apart.mono {strobe : ι → Bool} {d e : Nat} {is : List ι} (h : Apart strobe e is)
    (hd : d ≤ e) : Apart strobe d is := by
  induction is with
  | nil => trivial
  | cons i is ih =>
    exact ⟨fun hi j hj => h.1 hi j (List.take_subset_take_left is hd hj), ih h.2⟩

theorem Apart.drop {strobe : ι → Bool} {d : Nat} {is : List ι} (h : Apart strobe d is) (n : Nat) :
    Apart strobe d (is.drop n) := by
  induction n generalizing is with
  | zero => exact h
  | succ n ih =>
    cases is with
    | nil => trivial
    | cons i is => exact ih h.2

theorem apart_map {κ : Type*} {strobe : κ → Bool} {d : Nat} {f : ι → κ} {is : List ι} :
    Apart strobe d (is.map f) ↔ Apart (fun i => strobe (f i)) d is := by
  induction is with
  | nil => exact Iff.rfl
  | cons i is ih =>
    rw [List.map_cons, Apart, Apart, ih, ← List.map_take, List.forall_mem_map]

theorem Apart.append_quiet {strobe : ι → Bool} {d : Nat} {is quiet : List ι}
    (h : Apart strobe d is) (hquiet : ∀ j ∈ quiet, strobe j = false) :
    Apart strobe d (is ++ quiet) := by
  induction is with
  | nil =>
    clear h
    induction quiet with
    | nil => trivial
    | cons j quiet ih =>
      exact ⟨fun _ k hk => hquiet k (List.mem_cons_of_mem j (List.mem_of_mem_take hk)),
        ih fun k hk => hquiet k (List.mem_cons_of_mem j hk)⟩
  | cons i is ih =>
    rw [List.cons_append]
    refine ⟨fun hi j hj => ?_, ih h.2⟩
    rw [List.take_append, List.mem_append] at hj
    rcases hj with hj | hj
    · exact h.1 hi j hj
    · exact hquiet j (List.mem_of_mem_take hj)

/-- The strobes from the first on. -/
theorem Apart.filter_cons {strobe : ι → Bool} {d : Nat} {i : ι} {is : List ι}
    (h : Apart strobe d (i :: is)) (hi : strobe i = true) :
    (i :: is).filter strobe = i :: (is.drop d).filter strobe := by
  have hnone : (is.take d).filter strobe = [] :=
    List.filter_eq_nil_iff.2 fun j hj => by
      rw [h.1 hi j hj]
      exact Bool.false_ne_true
  have hcut : is.filter strobe = (is.drop d).filter strobe := by
    conv_lhs => rw [← List.take_append_drop d is, List.filter_append, hnone]
    rfl
  rw [List.filter_cons_of_pos hi, hcut]

/-- A strobe with enough inputs after it. -/
theorem Apart.block {strobe : ι → Bool} {d : Nat} {is : List ι} (h : Apart strobe d is) (i : ι)
    {js : List ι} (hjs : ∀ j ∈ js, strobe j = false) (hd : d ≤ js.length) :
    Apart strobe d (i :: js ++ is) := by
  have hrest : Apart strobe d (js ++ is) := by
    clear hd
    induction js with
    | nil => exact h
    | cons j js ih =>
      have hj := hjs j List.mem_cons_self
      exact ⟨fun hno => absurd (hj.symm.trans hno) (by decide),
        ih fun k hk => hjs k (List.mem_cons_of_mem j hk)⟩
  refine ⟨fun _ j hj => hjs j ?_, hrest⟩
  have htake : (js ++ is).take d = js.take d := List.take_append_of_le_length hd
  exact List.mem_of_mem_take (htake ▸ hj)

/-- Inputs since the last strobe. -/
def since (strobe : ι → Bool) (n : Nat) (i : ι) : Nat := if strobe i then 0 else n + 1

/-- A system that counts the inputs since the last strobe finds at least `d` of them at the next
one. -/
theorem along_of_apart {step : σ → ι → σ} {strobe : ι → Bool} {d : Nat} (age : σ → Nat)
    (hage : ∀ s i, age (step s i) = since strobe (age s) i) {s : σ} {is : List ι}
    (h : Apart strobe d is) (hs : d ≤ age s ∨ ∀ j ∈ is.take (d - age s), strobe j = false) :
    Along step (fun s i => strobe i = true → d ≤ age s) s is := by
  induction is generalizing s with
  | nil => trivial
  | cons i is ih =>
    constructor
    · intro hi
      by_contra hlt
      rcases hs with hs | hs
      · exact hlt hs
      · have hmem : i ∈ (i :: is).take (d - age s) := by
          rw [(by omega : d - age s = d - age s - 1 + 1), List.take_succ_cons]
          exact List.mem_cons_self
        rw [hs i hmem] at hi
        cases hi
    · refine ih h.2 ?_
      rw [hage, since]
      cases hi : strobe i with
      | true => exact Or.inr (h.1 hi)
      | false =>
        rw [if_neg Bool.false_ne_true]
        by_cases hlt : d ≤ age s + 1
        · exact Or.inl hlt
        · refine Or.inr fun j hj => ?_
          rcases hs with hs | hs
          · omega
          · refine hs j ?_
            rw [(by omega : d - age s = d - (age s + 1) + 1), List.take_succ_cons]
            exact List.mem_cons_of_mem i hj

/-! An event that takes place at the first instant at which a period has passed since the last
one. The instants are the newest first, each with whether the event took place. -/

def latest : List (Nat × Bool) → Nat
  | [] => 0
  | (now, true) :: _ => now
  | (_, false) :: earlier => latest earlier

def Cadenced (period : Nat) : List (Nat × Bool) → Prop
  | [] => True
  | (now, took) :: earlier =>
    (took = true ↔ latest earlier + period ≤ now) ∧ Cadenced period earlier

theorem Cadenced.gap {period now : Nat} {earlier : List (Nat × Bool)}
    (h : Cadenced period ((now, true) :: earlier)) : latest earlier + period ≤ now := h.1.1 rfl

theorem Cadenced.unless {period now : Nat} {earlier : List (Nat × Bool)}
    (h : Cadenced period ((now, false) :: earlier)) : now < latest earlier + period :=
  Nat.lt_of_not_le fun hle => Bool.false_ne_true (h.1.2 hle)

/-- Every instant up to `n`. -/
def EveryInstant : Nat → List (Nat × Bool) → Prop
  | n, [] => n = 0
  | n, (now, _) :: earlier => now = n ∧ 0 < n ∧ EveryInstant (n - 1) earlier

/-- If no instant is left out, the event takes place at the multiples of the period. -/
theorem Cadenced.everyInstant {period n : Nat} {instants : List (Nat × Bool)}
    (h : Cadenced period instants) (hp : 0 < period) (he : EveryInstant n instants) :
    latest instants = n / period * period ∧
      ∀ i ∈ instants, i.2 = true ↔ period ∣ i.1 := by
  induction instants generalizing n with
  | nil =>
    subst he
    exact ⟨by rw [Nat.zero_div, Nat.zero_mul]; rfl, fun i hi => absurd hi List.not_mem_nil⟩
  | cons i earlier ih =>
    obtain ⟨now, took⟩ := i
    obtain ⟨rfl, hpos, he⟩ := he
    obtain ⟨hlatest, hall⟩ := ih h.2 he
    obtain ⟨k, rfl⟩ : ∃ k, now = k + 1 := ⟨now - 1, by omega⟩
    rw [Nat.add_sub_cancel] at hlatest
    have hdue : took = true ↔ period ∣ k + 1 := by
      rw [h.1, hlatest]
      have hsplit := Nat.div_add_mod' k period
      have hlt := Nat.mod_lt k hp
      constructor
      · intro hle
        have heq : k + 1 = k / period * period + period := by omega
        rw [heq]
        exact Nat.dvd_add (Nat.dvd_mul_left _ _) (Nat.dvd_refl _)
      · intro hdvd
        have hsucc : (k + 1) / period = k / period + 1 := by rw [Nat.succ_div, if_pos hdvd]
        have hmul := Nat.div_mul_cancel hdvd
        rw [hsucc, Nat.add_mul, Nat.one_mul] at hmul
        omega
    refine ⟨?_, List.forall_mem_cons.2 ⟨hdue, hall⟩⟩
    cases took with
    | true => exact (Nat.div_mul_cancel (hdue.1 rfl)).symm
    | false =>
      have hnot : ¬ period ∣ k + 1 := fun hd => Bool.false_ne_true (hdue.2 hd)
      rw [Nat.succ_div, if_neg hnot]
      exact hlatest

end TetraBs.Pacing
