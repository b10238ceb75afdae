import TetraBs.Lmac.SchHuUnit

/-! Runs of the SCH/HU decoder: every block of soft values comes out, and leaves the decoder as it
found it. -/
namespace TetraBs.Lmac.HuUnit
open TetraBs.Serial

variable {raw : Nat → BitVec 8} {seed : BitVec 32} {u : HuUnit} {m n : Nat}

/-! From the last pair to the block. -/

theorem out_quiet (h : u.dec.infoValid = false) (c : HuCycle) : reader.out u c = [] := by
  simp only [reader, h, if_neg Bool.false_ne_true]

theorem silent_step {P Q : HuUnit → Prop} (hp : ∀ u, P u → u.dec.infoValid = false)
    (h : ∀ u c, P u → Q (u.step c)) : reader.Silent P 1 Q :=
  Reader.silent_one fun u c hu => ⟨out_quiet (hp u hu) c, h u c hu⟩

theorem silent_descrambling (raw : Nat → BitVec 8) (seed : BitVec 32) :
    reader.Silent (Descrambling raw seed 0) 168 (Deinterleaving raw seed 0) := by
  have hrounds : reader.Silent (Descrambling raw seed 0) (167 * 1) (Descrambling raw seed 167) :=
    Reader.Silent.rounds (P := Descrambling raw seed) fun k hk =>
      silent_step (fun _ hu => hu.infoValid) fun _ c hu => hu.step (Nat.succ_lt_succ hk) c
  exact hrounds.trans (silent_step (fun _ hu => hu.infoValid) fun _ c hu => hu.last c)

theorem silent_deinterleaving (raw : Nat → BitVec 8) (seed : BitVec 32) :
    reader.Silent (Deinterleaving raw seed 0) 168 (Feeding raw seed 0 0) := by
  have hrounds : reader.Silent (Deinterleaving raw seed 0) (167 * 1)
      (Deinterleaving raw seed 167) :=
    Reader.Silent.rounds (P := Deinterleaving raw seed) fun k hk =>
      silent_step (fun _ hu => hu.infoValid) fun _ c hu => hu.step (Nat.succ_lt_succ hk) c
  exact hrounds.trans (silent_step (fun _ hu => hu.infoValid) fun _ c hu => hu.last c)

/-- Three of the four cycles of a stage. -/
theorem silent_bits (raw : Nat → BitVec 8) (seed : BitVec 32) {t : Nat}
    (ht : t < UlViterbi.NUM_STAGES) :
    reader.Silent (Feeding raw seed t 0) 3 (Feeding raw seed t 3) :=
  Reader.Silent.rounds (P := Feeding raw seed t) fun _ hg =>
    silent_step (fun _ hu => hu.infoValid) fun _ c hu => hu.bit ht hg c

theorem silent_feeding (raw : Nat → BitVec 8) (seed : BitVec 32) :
    reader.Silent (Feeding raw seed 0 0) 448 (Fed raw seed) := by
  have hrounds : reader.Silent (Feeding raw seed 0 0) (111 * 4) (Feeding raw seed 111 0) :=
    Reader.Silent.rounds (P := fun t => Feeding raw seed t 0) fun t ht =>
      (silent_bits raw seed (Nat.lt_succ_of_lt ht)).trans
        (silent_step (fun _ hu => hu.infoValid) fun _ c hu => hu.stage (Nat.succ_lt_succ ht) c)
  exact hrounds.trans ((silent_bits raw seed (by decide)).trans
    (silent_step (fun _ hu => hu.infoValid) fun _ c hu => hu.last c))

/-- The trace back puts nothing out. -/
theorem silent_tracing (raw : Nat → BitVec 8) (seed : BitVec 32) :
    reader.Silent (Fed raw seed) 114
      (Draining raw seed (UlViterbi.Sending (mother raw seed) 0) 0) := by
  have hfull : reader.Silent (Fed raw seed) 1
      (Draining raw seed (UlViterbi.Full (mother raw seed)) 0) :=
    silent_step (fun _ hu => hu.infoValid) fun _ c hu => hu.step c
  have hinit : reader.Silent (Draining raw seed (UlViterbi.Full (mother raw seed)) 0) 1
      (Draining raw seed (UlViterbi.Tracing (mother raw seed) 0) 0) :=
    silent_step (fun _ hu => hu.infoValid) fun _ c hu =>
      hu.wait (by decide) hu.vit.decodedValid hu.vit.blockDone (fun x => hu.vit.step x false) c
  have hrounds : reader.Silent (Draining raw seed (UlViterbi.Tracing (mother raw seed) 0) 0)
      (111 * 1) (Draining raw seed (UlViterbi.Tracing (mother raw seed) 111) 0) :=
    Reader.Silent.rounds (P := fun k => Draining raw seed (UlViterbi.Tracing (mother raw seed) k) 0)
      fun k hk => silent_step (fun _ hu => hu.infoValid) fun _ c hu =>
        hu.wait (by decide) hu.vit.decodedValid hu.vit.blockDone
          (fun x => hu.vit.step (Nat.succ_lt_succ hk) x false) c
  have hlast : reader.Silent (Draining raw seed (UlViterbi.Tracing (mother raw seed) 111) 0) 1
      (Draining raw seed (UlViterbi.Sending (mother raw seed) 0) 0) :=
    silent_step (fun _ hu => hu.infoValid) fun _ c hu =>
      hu.wait (by decide) hu.vit.decodedValid hu.vit.blockDone (fun x => hu.vit.last x false) c
  exact hfull.trans (hinit.trans (hrounds.trans hlast))

/-- A bit that the Viterbi decoder shows is stored while it puts out the next one. -/
theorem Draining.sending {k : Nat}
    (h : Draining raw seed (UlViterbi.Sending (mother raw seed) k) (k - 1) u)
    {Q : UlViterbi → Prop} (hk : k < HuDecoder.CRC_LEN) (hq : ∀ x, Q (u.vit.step x false))
    (c : HuCycle) : Draining raw seed Q k (u.step c) := by
  have hvalid := h.vit.decodedValid
  cases k with
  | zero => exact h.wait (by decide) hvalid h.vit.blockDone hq c
  | succ k =>
    exact h.bit (Nat.lt_of_succ_lt hk) (hvalid.trans (decide_eq_true (Nat.succ_pos k)))
      (h.vit.decodedBit (Nat.succ_pos k)) h.vit.blockDone hq c

theorem silent_sending (raw : Nat → BitVec 8) (seed : BitVec 32) :
    reader.Silent (Draining raw seed (UlViterbi.Sending (mother raw seed) 0) 0) 109
      (Checking raw seed 0) := by
  have hrounds : reader.Silent (Draining raw seed (UlViterbi.Sending (mother raw seed) 0) (0 - 1))
      (107 * 1) (Draining raw seed (UlViterbi.Sending (mother raw seed) 107) (107 - 1)) :=
    Reader.Silent.rounds
      (P := fun k => Draining raw seed (UlViterbi.Sending (mother raw seed) k) (k - 1))
      fun k hk => silent_step (fun _ hu => hu.infoValid) fun _ c hu =>
        hu.sending (Nat.lt_succ_of_lt hk)
          (fun x => hu.vit.step (Nat.succ_lt_succ hk) x false) c
  have hlast : reader.Silent
      (Draining raw seed (UlViterbi.Sending (mother raw seed) 107) (107 - 1)) 1
      (Draining raw seed (UlViterbi.Finished (mother raw seed)) 107) :=
    silent_step (fun _ hu => hu.infoValid) fun _ c hu =>
      hu.sending (by decide) (fun x => hu.vit.last x false) c
  have hend : reader.Silent (Draining raw seed (UlViterbi.Finished (mother raw seed)) 107) 1
      (Checking raw seed 0) :=
    silent_step (fun _ hu => hu.infoValid) fun _ c hu => hu.last c
  exact hrounds.trans (hlast.trans hend)

theorem silent_checking (raw : Nat → BitVec 8) (seed : BitVec 32) :
    reader.Silent (Checking raw seed 0) 110 (Shown raw seed) := by
  have hrounds : reader.Silent (Checking raw seed 0) (108 * 1) (Checking raw seed 108) :=
    Reader.Silent.rounds (P := Checking raw seed) fun k hk =>
      silent_step (fun _ hu => hu.infoValid) fun _ c hu => hu.step hk c
  have hlast : reader.Silent (Checking raw seed 108) 1 (Checked raw seed) :=
    silent_step (fun _ hu => hu.infoValid) fun _ c hu => hu.last c
  exact hrounds.trans (hlast.trans
    (silent_step (fun _ hu => hu.infoValid) fun _ c hu => hu.step c))

/-- The number of edges from the last pair of a block to its `info_valid_sys`. -/
def LATENCY : Nat := 1117

theorem silent_block (raw : Nat → BitVec 8) (seed : BitVec 32) :
    reader.Silent (Descrambling raw seed 0) LATENCY (Shown raw seed) :=
  (silent_descrambling raw seed).trans ((silent_deinterleaving raw seed).trans
    ((silent_feeding raw seed).trans ((silent_tracing raw seed).trans
      ((silent_sending raw seed).trans (silent_checking raw seed)))))

/-! Whole blocks. -/

/-! Whole blocks. -/

/-- `n` pairs of a block, from pair `m` on. -/
def pairs (raw : Nat → BitVec 8) (m n : Nat) : List (BitVec 8 × BitVec 8) :=
  (List.range' m n).map fun k => (raw (2 * k), raw (2 * k + 1))

/-- The cycles bring the pairs of one block, with any gaps, to a decoder set to its seed. -/
structure Carries (raw : Nat → BitVec 8) (seed : BitVec 32) (cycles : List HuCycle) : Prop where
  pairs : cycles.filterMap HuCycle.pair = pairs raw 0 84
  seed : ∀ c ∈ cycles, c.softValid = true → c.seed = seed

/-- `m` pairs of a block have come. -/
def Held (raw : Nat → BitVec 8) (seed : BitVec 32) (m : Nat) (u : HuUnit) : Prop :=
  if m = 0 then Ready u else Collecting raw seed m u

theorem held_zero (h : Ready u) : Held raw seed 0 u := h

theorem Held.infoValid (h : Held raw seed m u) : u.dec.infoValid = false := by
  rw [Held] at h
  split at h
  · exact h.infoValid
  · exact h.infoValid

theorem Held.wait (h : Held raw seed m u) {c : HuCycle} (hc : c.softValid = false) :
    Held raw seed m (u.step c) := by
  rw [Held] at h ⊢
  by_cases hm : m = 0
  · rw [if_pos hm] at h ⊢
    exact h.wait hc
  · rw [if_neg hm] at h ⊢
    exact h.wait hc

theorem Held.pair (h : Held raw seed m u) (hm : m + 1 < 84) {c : HuCycle}
    (hc : c.softValid = true) (h0 : c.softBit1 = raw (2 * m))
    (h1 : c.softBit0 = raw (2 * m + 1)) (hseed : c.seed = seed) :
    Held raw seed (m + 1) (u.step c) := by
  rw [Held, if_neg (Nat.succ_ne_zero m)]
  rw [Held] at h
  by_cases hz : m = 0
  · rw [if_pos hz] at h
    subst hz
    rw [← hseed]
    exact h.first hc h0 h1
  · rw [if_neg hz] at h
    exact h.pair hm hc h0 h1

theorem pair_eq_none {c : HuCycle} (h : c.pair = none) : c.softValid = false := by
  cases hv : c.softValid with
  | false => rfl
  | true => simp [HuCycle.pair, hv] at h

theorem pair_eq_some {c : HuCycle} {p : BitVec 8 × BitVec 8} (h : c.pair = some p) :
    c.softValid = true ∧ c.softBit1 = p.1 ∧ c.softBit0 = p.2 := by
  cases hv : c.softValid with
  | false => simp [HuCycle.pair, hv] at h
  | true =>
    simp only [HuCycle.pair, hv, if_true, Option.some.injEq] at h
    rw [← h]
    exact ⟨rfl, rfl, rfl⟩

/-- The pairs are stored as they come. -/
theorem held_run {cycles : List HuCycle} (h : Held raw seed m u) (hn : m + n < 84)
    (hpairs : cycles.filterMap HuCycle.pair = pairs raw m n)
    (hseed : ∀ c ∈ cycles, c.softValid = true → c.seed = seed) :
    reader.outputs u cycles = [] ∧ Held raw seed (m + n) (reader.after u cycles) := by
  induction cycles generalizing u m n with
  | nil =>
    have hzero : n = 0 := by
      have hlen := congrArg List.length hpairs
      simpa [pairs] using hlen.symm
    subst hzero
    exact ⟨rfl, h⟩
  | cons c cycles ih =>
    rw [Reader.outputs, Reader.after, out_quiet h.infoValid]
    have hrest : ∀ d ∈ cycles, d.softValid = true → d.seed = seed :=
      fun d hd => hseed d (List.mem_cons_of_mem c hd)
    cases hp : c.pair with
    | none =>
      rw [List.filterMap_cons_none hp] at hpairs
      exact ih (h.wait (pair_eq_none hp)) hn hpairs hrest
    | some p =>
      obtain ⟨hv, h0, h1⟩ := pair_eq_some hp
      rw [List.filterMap_cons_some hp] at hpairs
      cases n with
      | zero => simp [pairs] at hpairs
      | succ n =>
        rw [pairs, List.range'_succ, List.map_cons, List.cons.injEq] at hpairs
        obtain ⟨hfirst, hpairs⟩ := hpairs
        rw [hfirst] at h0 h1
        have hnext := h.pair (by omega) hv h0 h1 (hseed c List.mem_cons_self hv)
        have hend := ih hnext (by omega) hpairs hrest
        rwa [Nat.add_right_comm, Nat.add_assoc] at hend

/-- The cycles before the last pair, and those after it. -/
theorem Carries.split {cycles : List HuCycle} (h : Carries raw seed cycles) :
    ∃ us c qs, cycles = us ++ c :: qs ∧ us.filterMap HuCycle.pair = HuUnit.pairs raw 0 83 ∧
      c.softValid = true ∧ c.softBit1 = raw 166 ∧ c.softBit0 = raw 167 ∧
        ∀ q ∈ qs, q.softValid = false := by
  have hlast : HuUnit.pairs raw 0 84 = HuUnit.pairs raw 0 83 ++ [(raw 166, raw 167)] := by
    rw [HuUnit.pairs, List.range'_concat, List.map_append]
    rfl
  have hpairs := h.pairs
  rw [hlast, List.filterMap_eq_append_iff] at hpairs
  obtain ⟨us, vs, hcycles, hus, hvs⟩ := hpairs
  rw [List.filterMap_eq_cons_iff] at hvs
  obtain ⟨ws, c, qs, hsplit, hws, hc, hqs⟩ := hvs
  obtain ⟨hv, h0, h1⟩ := pair_eq_some hc
  refine ⟨us ++ ws, c, qs, ?_, ?_, hv, h0, h1, fun q hq => ?_⟩
  · rw [hcycles, hsplit, List.append_assoc]
  · rw [List.filterMap_append, hus, List.filterMap_eq_nil_iff.2 hws, List.append_nil]
  · exact pair_eq_none (List.filterMap_eq_nil_iff.1 hqs q hq)

/-- With the last pair the work on the block begins. -/
theorem Carries.begun {cycles : List HuCycle} (h : Carries raw seed cycles) (hu : Ready u) :
    ∃ v qs, Descrambling raw seed 0 v ∧ (∀ q ∈ qs, q.softValid = false) ∧
      ∀ idle, reader.outputs u (cycles ++ idle) = reader.outputs v (qs ++ idle) ∧
        reader.after u (cycles ++ idle) = reader.after v (qs ++ idle) := by
  obtain ⟨us, c, qs, hcycles, hus, hv, h0, h1, hqs⟩ := h.split
  have hseed : ∀ d ∈ us, d.softValid = true → d.seed = seed := by
    intro d hd
    rw [hcycles] at h
    exact h.seed d (List.mem_append_left _ hd)
  obtain ⟨hout, hheld⟩ := held_run (held_zero hu) (by decide) hus hseed
  have hcollect : Collecting raw seed 83 (reader.after u us) := hheld
  refine ⟨(reader.after u us).step c, qs, hcollect.last hv h0 h1, hqs, fun idle => ?_⟩
  rw [hcycles, List.append_assoc, List.cons_append, Reader.outputs_append, Reader.after_append,
    hout, Reader.outputs, Reader.after, out_quiet hcollect.infoValid]
  exact ⟨rfl, rfl⟩

theorem Ready.silent (h : Ready u) {qs : List HuCycle} (hqs : ∀ q ∈ qs, q.softValid = false) :
    reader.outputs u qs = [] ∧ Ready (reader.after u qs) :=
  Reader.silent_forever (fun _ c hv hc => ⟨out_quiet hv.infoValid c, hv.wait hc⟩) h hqs

/-- Once there was time enough the block is out and the decoder is ready again. -/
theorem Descrambling.finish (h : Descrambling raw seed 0 u) {qs : List HuCycle}
    (hqs : ∀ q ∈ qs, q.softValid = false) (hlen : LATENCY < qs.length) :
    reader.outputs u qs = [(info raw seed, infoOk raw seed)] ∧ Ready (reader.after u qs) := by
  have htake : (qs.take LATENCY).length = LATENCY := by
    rw [List.length_take]
    omega
  obtain ⟨hout, hshown⟩ := silent_block raw seed u h _ htake
  have hsplit : qs = qs.take LATENCY ++ qs[LATENCY] :: qs.drop (LATENCY + 1) := by simp
  have hdrop : ∀ q ∈ qs.drop (LATENCY + 1), q.softValid = false :=
    fun q hq => hqs q (List.mem_of_mem_drop hq)
  obtain ⟨hrest, hready⟩ := (hshown.step qs[LATENCY]).silent hdrop
  have hshow : reader.out (reader.after u (qs.take LATENCY)) qs[LATENCY] =
      [(info raw seed, infoOk raw seed)] := by
    simp only [reader] at hshown ⊢
    rw [hshown.infoValid, hshown.infoBits, hshown.crcOk]
    rfl
  rw [hsplit, Reader.outputs_append, Reader.after_append, hout, Reader.outputs, Reader.after, hshow]
  refine ⟨?_, hready⟩
  rw [List.nil_append]
  change _ ++ reader.outputs ((reader.after u (qs.take LATENCY)).step qs[LATENCY])
    (qs.drop (LATENCY + 1)) = _
  rw [hrest]
  rfl

/-- The decoder shows the block only when it is ready for the next one. -/
theorem Carries.ready {cycles : List HuCycle} (h : Carries raw seed cycles) (hu : Ready u)
    (hout : reader.outputs u cycles ≠ []) :
    reader.outputs u cycles = [(info raw seed, infoOk raw seed)] ∧
      Ready (reader.after u cycles) := by
  obtain ⟨v, qs, hv, hqs, hrun⟩ := h.begun hu
  obtain ⟨hsame, hafter⟩ := hrun []
  rw [List.append_nil, List.append_nil] at hsame hafter
  rw [hsame] at hout ⊢
  rw [hafter]
  refine hv.finish hqs (Nat.lt_of_not_le fun hle => hout ?_)
  exact (silent_block raw seed).short hv hle

theorem Carries.complete {cycles idle : List HuCycle} (h : Carries raw seed cycles) (hu : Ready u)
    (hidle : ∀ q ∈ idle, q.softValid = false) (hlen : LATENCY < idle.length) :
    reader.outputs u (cycles ++ idle) = [(info raw seed, infoOk raw seed)] := by
  obtain ⟨v, qs, hv, hqs, hrun⟩ := h.begun hu
  rw [(hrun idle).1]
  refine (hv.finish (fun q hq => ?_) ?_).1
  · rcases List.mem_append.1 hq with hq | hq
    · exact hqs q hq
    · exact hidle q hq
  · rw [List.length_append]
    omega

/-! Sequences of blocks. -/

/-- A block of soft values and the cycles that bring it. -/
structure SoftFeed where
  raw : Nat → BitVec 8
  seed : BitVec 32
  cycles : List HuCycle
  carries : Carries raw seed cycles

/-- What the decoder makes of the block. -/
def SoftFeed.result (f : SoftFeed) : BitVec 92 × Bool := (info f.raw f.seed, infoOk f.raw f.seed)

/-- Each block but the first starts after `info_valid_sys` of the one before it. -/
def Spaced (u : HuUnit) : List (List HuCycle) → Prop
  | [] => True
  | [_] => True
  | cs :: ds :: rest => reader.outputs u cs ≠ [] ∧ Spaced (reader.after u cs) (ds :: rest)

theorem run_feeds {feeds : List SoftFeed} {idle : List HuCycle} (hu : Ready u)
    (hspaced : Spaced u (feeds.map SoftFeed.cycles)) (hidle : ∀ q ∈ idle, q.softValid = false)
    (hlen : LATENCY < idle.length) :
    reader.outputs u ((feeds.map SoftFeed.cycles).flatten ++ idle) = feeds.map SoftFeed.result := by
  induction feeds generalizing u with
  | nil => exact (hu.silent hidle).1
  | cons f feeds ih =>
    cases feeds with
    | nil =>
      rw [List.map_singleton, List.flatten_singleton]
      exact f.carries.complete hu hidle hlen
    | cons g feeds =>
      obtain ⟨hout, hrest⟩ := hspaced
      obtain ⟨hblock, hready⟩ := f.carries.ready hu hout
      have htail := ih hready hrest
      rw [List.map_cons, List.flatten_cons, List.append_assoc, Reader.outputs_append, hblock,
        htail]
      rfl

end TetraBs.Lmac.HuUnit
