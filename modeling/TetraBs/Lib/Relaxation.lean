import Mathlib.Data.List.Basic

/-! Least-cost decoding on a trellis by relaxing its edges stage by stage, in any order. Nothing
here is about TETRA. -/
namespace TetraBs.Relaxation
variable {σ : Type*}

/-- What one stage keeps for every state. -/
structure Stage (σ : Type*) where
  metric : σ → Nat
  back : σ → σ
  input : σ → Bool

/-- The bits read back from `s`; the newest stage is first. -/
def readBack : List (Stage σ) → σ → List Bool
  | [], _ => []
  | k :: ks, s => readBack ks (k.back s) ++ [k.input s]

variable (next : σ → Bool → σ)

/-- The state that a bit sequence leads to. -/
def final (s : σ) (bits : List Bool) : σ := bits.foldl next s

/-- The cost of a bit sequence, an edge a stage. -/
def cost : List (σ → Bool → Nat) → σ → List Bool → Nat
  | c :: cs, s, b :: bs => c s b + cost cs (next s b) bs
  | _, _, _ => 0

/-- A stage that keeps the best edge into every state, of those that start below `inf`. -/
structure Keeps (inf : Nat) (c : σ → Bool → Nat) (pm : σ → Nat) (k : Stage σ) : Prop where
  taken : ∀ s, k.metric s < inf → next (k.back s) (k.input s) = s ∧ pm (k.back s) < inf ∧
    k.metric s = pm (k.back s) + c (k.back s) (k.input s)
  least : ∀ s b, pm s < inf → pm s + c s b < inf → k.metric (next s b) ≤ pm s + c s b

/-- The stages of a run and the metrics they leave. -/
inductive Decodes (inf : Nat) (pm₀ : σ → Nat) :
    List (σ → Bool → Nat) → List (Stage σ) → (σ → Nat) → Prop
  | start : Decodes inf pm₀ [] [] pm₀
  | stage {cs ks pm c k} : Decodes inf pm₀ cs ks pm → Keeps next inf c pm k →
      Decodes inf pm₀ (cs ++ [c]) (k :: ks) k.metric

/-- The metric of a state is the cost of the bits read back from it, and no other bits that lead
there cost less. -/
structure Optimal (inf : Nat) (s₀ : σ) (cs : List (σ → Bool → Nat)) (ks : List (Stage σ))
    (pm : σ → Nat) : Prop where
  reached : ∀ s, pm s < inf → (readBack ks s).length = cs.length ∧
    final next s₀ (readBack ks s) = s ∧ cost next cs s₀ (readBack ks s) = pm s
  least : ∀ bs : List Bool, bs.length = cs.length → cost next cs s₀ bs < inf →
    pm (final next s₀ bs) ≤ cost next cs s₀ bs

variable {next}

theorem final_snoc (s : σ) (bs : List Bool) (b : Bool) :
    final next s (bs ++ [b]) = next (final next s bs) b := List.foldl_concat ..

theorem cost_snoc {cs : List (σ → Bool → Nat)} {s : σ} {bs : List Bool}
    (hlen : bs.length = cs.length) (c : σ → Bool → Nat) (b : Bool) :
    cost next (cs ++ [c]) s (bs ++ [b]) = cost next cs s bs + c (final next s bs) b := by
  induction cs generalizing s bs with
  | nil =>
    rw [List.eq_nil_of_length_eq_zero hlen]
    exact Nat.add_comm _ _
  | cons c' cs ih =>
    cases bs with
    | nil => exact absurd hlen (Nat.succ_ne_zero _).symm
    | cons b' bs =>
      have hrest := ih (s := next s b') (Nat.succ.inj hlen)
      rw [List.cons_append, List.cons_append, cost, hrest, cost, Nat.add_assoc]
      rfl

theorem cost_le {m : Nat} {cs : List (σ → Bool → Nat)} (h : ∀ c ∈ cs, ∀ s b, c s b ≤ m) (s : σ)
    (bs : List Bool) : cost next cs s bs ≤ m * cs.length := by
  induction cs generalizing s bs with
  | nil => exact Nat.zero_le _
  | cons c cs ih =>
    cases bs with
    | nil => exact Nat.zero_le _
    | cons b bs =>
      have hedge := h c List.mem_cons_self s b
      have hrest := ih (fun c' hc' => h c' (List.mem_cons_of_mem c hc')) (next s b) bs
      rw [cost, List.length_cons, Nat.mul_succ]
      omega

theorem Optimal.stage {inf : Nat} {s₀ : σ} {cs : List (σ → Bool → Nat)} {ks : List (Stage σ)}
    {pm : σ → Nat} (h : Optimal next inf s₀ cs ks pm) {c : σ → Bool → Nat} {k : Stage σ}
    (hk : Keeps next inf c pm k) : Optimal next inf s₀ (cs ++ [c]) (k :: ks) k.metric where
  reached s hs := by
    obtain ⟨hnext, hback, hmetric⟩ := hk.taken s hs
    obtain ⟨hlen, hfinal, hcost⟩ := h.reached _ hback
    refine ⟨?_, ?_, ?_⟩
    · rw [readBack, List.length_append, List.length_append, hlen]
      rfl
    · rw [readBack, final_snoc, hfinal, hnext]
    · rw [readBack, cost_snoc hlen, hfinal, hcost, hmetric]
  least bs hlen hcost := by
    obtain ⟨bs, b, rfl⟩ : ∃ bs' b, bs = bs' ++ [b] := by
      refine ⟨bs.dropLast, bs.getLast ?_, (List.dropLast_append_getLast _).symm⟩
      rintro rfl
      rw [List.length_append] at hlen
      exact absurd hlen (Nat.succ_ne_zero _).symm
    have hlen' : bs.length = cs.length := by simpa using hlen
    rw [cost_snoc hlen'] at hcost ⊢
    rw [final_snoc]
    have hbefore := h.least bs hlen' (by omega)
    have hedge := hk.least (final next s₀ bs) b (by omega) (by omega)
    omega

/-- A run that starts with one state only keeps, for every state it reaches, a cheapest bit
sequence that leads there. -/
theorem Decodes.optimal {inf : Nat} {pm₀ : σ → Nat} {s₀ : σ} (hzero : pm₀ s₀ = 0)
    (hinf : ∀ s, s ≠ s₀ → pm₀ s = inf) {cs : List (σ → Bool → Nat)} {ks : List (Stage σ)}
    {pm : σ → Nat} (h : Decodes next inf pm₀ cs ks pm) : Optimal next inf s₀ cs ks pm := by
  induction h with
  | start =>
    refine ⟨fun s hs => ?_, fun bs hlen _ => ?_⟩
    · have hstart : s = s₀ := by
        by_contra hne
        rw [hinf s hne] at hs
        exact absurd hs (Nat.lt_irrefl _)
      rw [hstart]
      exact ⟨rfl, rfl, hzero.symm⟩
    · rw [List.eq_nil_of_length_eq_zero hlen]
      exact Nat.le_of_eq hzero
  | stage _ hk ih => exact ih.stage hk

end TetraBs.Relaxation
