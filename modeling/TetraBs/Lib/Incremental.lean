import Mathlib.Data.List.Induction

/-! Parsers of a stream that arrives in pieces. A parser looks at a buffer and either wants more
or yields a result and how much of the buffer it is done with. Nothing here is about TETRA. -/
namespace TetraBs.Incremental
variable {α ο ρ : Type*}

/-- What is yielded does not depend on what follows the buffer. -/
structure Stable (p : List α → Option (ο × Nat)) : Prop where
  le {b : List α} {o : ο} {n : Nat} : p b = some (o, n) → n ≤ b.length
  append {b : List α} {o : ο} {n : Nat} (c : List α) : p b = some (o, n) → p (b ++ c) = some (o, n)

/-- The first `k` results on a stream that is there as a whole, and what is left of it. -/
def parsed (p : List α → Option (ο × Nat)) (bs : List α) : Nat → List ο × List α
  | 0 => ([], bs)
  | k + 1 =>
    match p (parsed p bs k).2 with
    | none => parsed p bs k
    | some (o, n) => ((parsed p bs k).1 ++ [o], (parsed p bs k).2.drop n)

/-- The results `os` have been read off `stream`; `buf` is in the buffer, `rest` to come. -/
def Read (p : List α → Option (ο × Nat)) (stream : List α) (os : List ο) (buf rest : List α) :
    Prop :=
  ∃ k, parsed p stream k = (os, buf ++ rest)

variable {p : List α → Option (ο × Nat)} {stream buf buf' rest rest' : List α} {os os' : List ο}

theorem read_start (p : List α → Option (ο × Nat)) (stream : List α) : Read p stream [] [] stream :=
  ⟨0, rfl⟩

theorem parsed_mono {k k' : Nat} (h : k ≤ k') :
    (parsed p stream k).1 <+: (parsed p stream k').1 := by
  induction h with
  | refl => exact List.prefix_rfl
  | @step m _ ih =>
    refine ih.trans ?_
    simp only [parsed]
    split
    · exact List.prefix_rfl
    · exact List.prefix_append _ _

theorem parsed_stuck {k k' : Nat} (hk : p (parsed p stream k).2 = none) (h : k ≤ k') :
    parsed p stream k' = parsed p stream k := by
  induction h with
  | refl => rfl
  | @step m _ ih =>
    rw [parsed, ih, hk]

theorem Read.fill (h : Read p stream os buf rest) (n : Nat) :
    Read p stream os (buf ++ rest.take n) (rest.drop n) := by
  obtain ⟨k, hk⟩ := h
  refine ⟨k, ?_⟩
  rw [hk, List.append_assoc, List.take_append_drop]

theorem Read.yield (hp : Stable p) (h : Read p stream os buf rest) {o : ο} {n : Nat}
    (ho : p buf = some (o, n)) : Read p stream (os ++ [o]) (buf.drop n) rest := by
  obtain ⟨k, hk⟩ := h
  refine ⟨k + 1, ?_⟩
  simp only [parsed, hk, hp.append rest ho, List.drop_append_of_le_length (hp.le ho)]

/-- Two ways of cutting one stream differ only in how far they have come. -/
theorem Read.comparable (h : Read p stream os buf rest) (h' : Read p stream os' buf' rest') :
    os <+: os' ∨ os' <+: os := by
  obtain ⟨k, hk⟩ := h
  obtain ⟨k', hk'⟩ := h'
  have hos : (parsed p stream k).1 = os := congrArg Prod.fst hk
  have hos' : (parsed p stream k').1 = os' := congrArg Prod.fst hk'
  rw [← hos, ← hos']
  rcases Nat.le_total k k' with hle | hle
  · exact .inl (parsed_mono hle)
  · exact .inr (parsed_mono hle)

/-- The first result is the one at the head of the stream. -/
theorem Read.head (h : Read p stream os buf rest) {o : ο} (ho : os.head? = some o) :
    ∃ n, p stream = some (o, n) := by
  obtain ⟨k, hk⟩ := h
  have hos : (parsed p stream k).1 = os := congrArg Prod.fst hk
  cases hp : p stream with
  | none =>
    rw [← hos, parsed_stuck (k := 0) hp (Nat.zero_le k)] at ho
    cases ho
  | some r =>
    obtain ⟨o', n⟩ := r
    have hone : parsed p stream 1 = ([o'], stream.drop n) := by simp [parsed, hp]
    cases k with
    | zero =>
      rw [← hos] at ho
      cases ho
    | succ k =>
      obtain ⟨tail, htail⟩ : (parsed p stream 1).1 <+: (parsed p stream (k + 1)).1 :=
        parsed_mono (by omega)
      rw [← hos, ← htail, hone] at ho
      cases ho
      exact ⟨n, rfl⟩

/-- With the stream used up and nothing more to be read off the buffer, nothing is left open. -/
theorem Read.final (h : Read p stream os buf []) (hbuf : p buf = none)
    (h' : Read p stream os' buf' rest') : os' <+: os := by
  obtain ⟨k, hk⟩ := h
  obtain ⟨k', hk'⟩ := h'
  have hos : (parsed p stream k).1 = os := congrArg Prod.fst hk
  have hos' : (parsed p stream k').1 = os' := congrArg Prod.fst hk'
  rw [← hos, ← hos']
  rcases Nat.le_total k k' with hle | hle
  · have hstuck := parsed_stuck (by rw [hk, List.append_nil, hbuf]) hle
    exact hstuck.symm ▸ List.prefix_rfl
  · exact parsed_mono hle

theorem Read.final_eq (h : Read p stream os buf []) (hbuf : p buf = none)
    (h' : Read p stream os' buf' []) (hbuf' : p buf' = none) : os = os' :=
  (h'.final hbuf' h).eq_of_length
    (Nat.le_antisymm (h'.final hbuf' h).length_le (h.final hbuf h').length_le)

/-- A stream of encoded records, each of which the parser recognises, is read record by
record. -/
theorem read_records (enc : ρ → List α) (out : ρ → ο) (rs : List ρ)
    (h : ∀ r ∈ rs, ∀ c, p (enc r ++ c) = some (out r, (enc r).length)) (tail : List α) :
    parsed p (rs.flatMap enc ++ tail) rs.length = (rs.map out, tail) := by
  induction rs using List.reverseRecOn generalizing tail with
  | nil => rfl
  | append_singleton rs r ih =>
    have hr := h r (by simp)
    have hrs := ih (fun r' hr' => h r' (by simp [hr'])) (enc r ++ tail)
    rw [List.flatMap_append, List.flatMap_cons, List.flatMap_nil, List.append_nil,
      List.append_assoc, List.length_append, List.length_cons, List.length_nil, parsed, hrs]
    simp only [hr tail, List.drop_left, List.map_append, List.map_cons, List.map_nil]

/-! Everything a stream holds so far. -/

theorem parsed_none {bs : List α} (h : p bs = none) (k : Nat) : parsed p bs k = ([], bs) :=
  parsed_stuck (k := 0) h (Nat.zero_le k)

theorem parsed_cons {bs : List α} {o : ο} {n : Nat} (h : p bs = some (o, n)) (k : Nat) :
    parsed p bs (k + 1) = (o :: (parsed p (bs.drop n) k).1, (parsed p (bs.drop n) k).2) := by
  induction k with
  | zero => simp [parsed, h]
  | succ k ih =>
    rw [parsed, ih]
    cases hnext : p (parsed p (bs.drop n) k).2 with
    | none => simp [parsed, hnext]
    | some r => simp [parsed, hnext]

/-- Every result takes something off the buffer. -/
def Progress (p : List α → Option (ο × Nat)) : Prop :=
  ∀ b o n, p b = some (o, n) → 0 < n

theorem parsed_exhausted (hp : Stable p) (hpos : Progress p) {bs : List α} {k : Nat}
    (h : bs.length ≤ k) : p (parsed p bs k).2 = none := by
  induction k generalizing bs with
  | zero =>
    cases hb : p bs with
    | none => exact hb
    | some r =>
      have hle := hp.le hb
      have hpos := hpos bs r.1 r.2 hb
      omega
  | succ k ih =>
    cases hb : p bs with
    | none =>
      rw [parsed_none hb]
      exact hb
    | some r =>
      rw [parsed_cons hb]
      refine ih ?_
      have hpos := hpos bs r.1 r.2 hb
      rw [List.length_drop]
      omega

/-- All results on a buffer. -/
def results (p : List α → Option (ο × Nat)) (bs : List α) : List ο := (parsed p bs bs.length).1

theorem results_none {bs : List α} (h : p bs = none) : results p bs = [] := by
  rw [results, parsed_none h]

theorem results_some (hp : Stable p) (hpos : Progress p) {bs : List α} {o : ο} {n : Nat}
    (h : p bs = some (o, n)) : results p bs = o :: results p (bs.drop n) := by
  have hn := hpos bs o n h
  have hle := hp.le h
  obtain ⟨m, hm⟩ : ∃ m, bs.length = m + 1 := ⟨bs.length - 1, by omega⟩
  have hlen : (bs.drop n).length ≤ m := by
    rw [List.length_drop]
    omega
  have hstuck := parsed_stuck (parsed_exhausted hp hpos (Nat.le_refl (bs.drop n).length)) hlen
  rw [results, hm, parsed_cons h, hstuck, results]

end TetraBs.Incremental
