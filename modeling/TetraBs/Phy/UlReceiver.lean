import TetraBs.Lmac.SchHuLoss
import TetraBs.Lmac.SchHuRuns
import TetraBs.Phy.UlConstellation

/-! `tetra_ul_pi4dqpsk_demod` and `tetra_ul_sch_hu_decoder` one after the other, on bursts without
noise: from what amplitude on they give the block back. -/
namespace TetraBs.Phy
open TetraBs.Lmac TetraBs.Lmac.SchHu TetraBs.Run TetraBs.Serial

structure UlCycle where
  scrambInit : BitVec 32
  input : DemodInput
deriving DecidableEq

structure UlReceiver where
  demod : UlDemod
  decoder : HuUnit

namespace UlReceiver

def reset : UlReceiver := ⟨UlDemod.reset, HuUnit.reset⟩

/-- The ports of the decoder in a cycle. -/
def port (s : UlDemod) (c : UlCycle) : HuCycle :=
  ⟨c.scrambInit, s.softBit0, s.softBit1, s.softValid⟩

def step (r : UlReceiver) (c : UlCycle) : UlReceiver where
  demod := r.demod.step c.input
  decoder := r.decoder.step (port r.demod c)

def reader : Reader UlReceiver UlCycle (BitVec 92 × Bool) where
  next := step
  out r c := HuUnit.reader.out r.decoder (port r.demod c)

/-- What the decoder gets in a run. -/
def ports : UlDemod → List UlCycle → List HuCycle
  | _, [] => []
  | s, c :: cycles => port s c :: ports (s.step c.input) cycles

theorem outputs_eq (r : UlReceiver) (cycles : List UlCycle) :
    reader.outputs r cycles = HuUnit.reader.outputs r.decoder (ports r.demod cycles) := by
  induction cycles generalizing r with
  | nil => rfl
  | cons c cycles ih =>
    rw [Reader.outputs, ports, Reader.outputs, ih]
    rfl

variable {s : UlDemod} {cycles idle : List UlCycle}

theorem ports_append (s : UlDemod) (cycles idle : List UlCycle) : ports s (cycles ++ idle) =
    ports s cycles ++ ports (exec UlDemod.step s (cycles.map UlCycle.input)) idle := by
  induction cycles generalizing s with
  | nil => rfl
  | cons c cycles ih =>
    rw [List.cons_append, ports, ih, ports]
    rfl

theorem ports_pairs (s : UlDemod) (cycles : List UlCycle) :
    (ports s cycles).filterMap HuCycle.pair = UlDemod.outputs s (cycles.map UlCycle.input) := by
  induction cycles generalizing s with
  | nil => rfl
  | cons c cycles ih =>
    rw [ports, List.map_cons, UlDemod.outputs, ← ih]
    cases hv : s.softValid with
    | false =>
      have hpair : (port s c).pair = none := by simp [HuCycle.pair, port, hv]
      rw [List.filterMap_cons_none hpair, UlDemod.shown, hv]
      rfl
    | true =>
      have hpair : (port s c).pair = some (s.softBit1, s.softBit0) := by
        simp [HuCycle.pair, port, hv]
      rw [List.filterMap_cons_some hpair, UlDemod.shown, hv]
      rfl

theorem ports_scrambInit {seed : BitVec 32} (h : ∀ c ∈ cycles, c.scrambInit = seed) :
    ∀ c ∈ ports s cycles, c.scrambInit = seed := by
  induction cycles generalizing s with
  | nil => exact fun c hc => absurd hc List.not_mem_nil
  | cons c cycles ih =>
    intro d hd
    rcases List.mem_cons.1 hd with rfl | hd
    · exact h c List.mem_cons_self
    · exact ih (fun e he => h e (List.mem_cons_of_mem c he)) d hd

/-- Behind an empty pipeline the decoder sees idle cycles. -/
theorem ports_idle (hs : UlDemod.Drained s) (h : ∀ c ∈ idle, c.input.valid = false) :
    (ports s idle).length = idle.length ∧ ∀ c ∈ ports s idle, c.softValid = false := by
  induction idle generalizing s with
  | nil => exact ⟨rfl, fun c hc => absurd hc List.not_mem_nil⟩
  | cons c idle ih =>
    obtain ⟨hlen, hall⟩ := ih (hs.step (h c List.mem_cons_self))
      fun d hd => h d (List.mem_cons_of_mem c hd)
    refine ⟨congrArg (· + 1) hlen, fun d hd => ?_⟩
    rcases List.mem_cons.1 hd with rfl | hd
    · exact hs.softValid
    · exact hall d hd

/-! Bursts. -/

/-- The cycles bring the burst of a block, with any gaps, to a receiver set to its seed. -/
structure Sent (A : Nat) (info : BitVec 92) (seed : BitVec 32) (p q : BitVec 3)
    (cycles : List UlCycle) : Prop where
  samples : cycles.filterMap (fun c => UlDemod.sample c.input) = burst A p q (reference info seed)
  scrambInit : ∀ c ∈ cycles, c.scrambInit = seed

/-- Enough cycles without a sample for the block to come out. -/
structure Idle (seed : BitVec 32) (cycles : List UlCycle) : Prop where
  valid : ∀ c ∈ cycles, c.input.valid = false
  scrambInit : ∀ c ∈ cycles, c.scrambInit = seed
  length : HuUnit.LATENCY + 3 < cycles.length

/-- The soft values of a burst without noise. -/
def raw (A : Nat) (info : BitVec 92) (seed : BitVec 32) : Nat → BitVec 8 :=
  SchHu.received (softOf A) (reference info seed)

theorem pairs_raw (A : Nat) (info : BitVec 92) (seed : BitVec 32) (p q : BitVec 3) :
    UlDemod.pairs none (burst A p q (reference info seed)) =
      HuUnit.pairs (raw A info seed) 0 84 := by
  rw [pairs_burst, dibits, List.map_map, HuUnit.pairs]
  exact List.map_congr_left fun k _ => by simp only [Function.comp, raw, SchHu.received]

variable {A : Nat} {info : BitVec 92} {seed : BitVec 32} {p q : BitVec 3}

/-- The burst and the three cycles that empty the pipeline. -/
theorem Sent.carries (h : Sent A info seed p q cycles) (hseed : seed ≠ 0) {i₁ i₂ i₃ : UlCycle}
    (hidle : ∀ c ∈ [i₁, i₂, i₃], c.input.valid = false ∧ c.scrambInit = seed) :
    HuUnit.Carries (raw A info seed) seed (ports UlDemod.reset (cycles ++ [i₁, i₂, i₃])) ∧
      UlDemod.Drained
        (exec UlDemod.step UlDemod.reset ((cycles ++ [i₁, i₂, i₃]).map UlCycle.input)) := by
  have h₁ := hidle i₁ (by simp)
  have h₂ := hidle i₂ (by simp)
  have h₃ := hidle i₃ (by simp)
  have hdrained : UlDemod.Drained
      (exec UlDemod.step UlDemod.reset ((cycles ++ [i₁, i₂, i₃]).map UlCycle.input)) := by
    rw [List.map_append, exec_append]
    exact UlDemod.drained_three _ h₁.1 h₂.1 h₃.1
  refine ⟨⟨?_, fun c hc _ => ?_⟩, hdrained⟩
  · have hrun := UlDemod.outputs_queue UlDemod.reset
      ((cycles ++ [i₁, i₂, i₃]).map UlCycle.input)
    have hnone : ∀ i : DemodInput, i.valid = false → UlDemod.sample i = none :=
      fun i hi => by rw [UlDemod.sample, hi, if_neg Bool.false_ne_true]
    have hsamples : ((cycles ++ [i₁, i₂, i₃]).map UlCycle.input).filterMap UlDemod.sample =
        burst A p q (reference info seed) := by
      rw [List.map_append, List.filterMap_append, List.filterMap_map]
      have htail : ([i₁, i₂, i₃].map UlCycle.input).filterMap UlDemod.sample = [] := by
        simp [hnone _ h₁.1, hnone _ h₂.1, hnone _ h₃.1]
      rw [htail, List.append_nil]
      exact h.samples
    rw [hdrained.queue, UlDemod.drained_reset.queue, List.append_nil, List.nil_append, hsamples]
      at hrun
    rw [ports_pairs, hrun]
    exact pairs_raw A info seed p q
  · have hall : ∀ d ∈ cycles ++ [i₁, i₂, i₃], d.scrambInit = seed := by
      intro d hd
      rcases List.mem_append.1 hd with hd | hd
      · exact h.scrambInit d hd
      · exact (hidle d hd).2
    rw [HuCycle.seed, ports_scrambInit hall c hc, if_neg hseed]

/-- One block comes out: what the decoder makes of the soft values. -/
theorem Sent.run (h : Sent A info seed p q cycles) (hseed : seed ≠ 0) (hidle : Idle seed idle) :
    reader.outputs reset (cycles ++ idle) =
      [(HuUnit.info (raw A info seed) seed, HuUnit.infoOk (raw A info seed) seed)] := by
  have hlen := hidle.length
  obtain ⟨i₁, i₂, i₃, rest, rfl⟩ : ∃ i₁ i₂ i₃ rest, idle = [i₁, i₂, i₃] ++ rest := by
    match idle, hlen with
    | i₁ :: i₂ :: i₃ :: rest, _ => exact ⟨i₁, i₂, i₃, rest, rfl⟩
  have hthree : ∀ c ∈ [i₁, i₂, i₃], c.input.valid = false ∧ c.scrambInit = seed :=
    fun c hc => ⟨hidle.valid c (List.mem_append_left _ hc),
      hidle.scrambInit c (List.mem_append_left _ hc)⟩
  obtain ⟨hcarries, hdrained⟩ := h.carries hseed hthree
  obtain ⟨hrestlen, hrest⟩ := ports_idle hdrained fun c hc =>
    hidle.valid c (List.mem_append_right _ hc)
  rw [outputs_eq, ← List.append_assoc, ports_append]
  refine hcarries.complete HuUnit.ready_reset hrest (Nat.lt_of_lt_of_eq ?_ hrestlen.symm)
  simp only [List.length_append, List.length_cons, List.length_nil] at hlen
  omega

/-! The amplitude. -/

/-- Whatever block is sent, it comes back with its check passed. -/
def Recovers (A : Nat) : Prop :=
  ∀ (info : BitVec 92) (seed : BitVec 32), seed ≠ 0 → ∀ (p q : BitVec 3)
    (cycles idle : List UlCycle), Sent A info seed p q cycles → Idle seed idle →
      reader.outputs reset (cycles ++ idle) = [(info, true)]

theorem levels_good : ∀ m ≤ 23, 5 ≤ m →
    (HuDecoder.toVitSoft (BitVec.ofNat 8 m)).toNat ≤ 11 ∧
      20 ≤ (HuDecoder.toVitSoft (-BitVec.ofNat 8 m)).toNat := by
  decide

theorem levels_faint : ∀ m < 5, 12 ≤ (HuDecoder.toVitSoft (BitVec.ofNat 8 m)).toNat := by
  decide

theorem good_raw (hlo : 5 ≤ level A) (hhi : A ≤ 32767) (info : BitVec 92) (seed : BitVec 32) :
    Good (raw A info seed) seed info := by
  have hle := level_le hhi
  obtain ⟨hplus, hminus⟩ := levels_good (level A) (by omega) hlo
  obtain ⟨hplus', hminus'⟩ := levels_good (level A + 1) (by omega) (by omega)
  refine good_received ?_ ?_ ?_ ?_ info seed
  · rwa [softOf_false]
  · rcases softOf_true A with h | h <;> rwa [h, BitVec.neg_neg]
  · rcases softOf_true A with h | h <;> rwa [h]
  · rwa [softOf_false]

/-- The burst on 86 cycles, marked as `tetra_ul_burst_capture` does it. -/
def burstCycles (A : Nat) (info : BitVec 92) (seed : BitVec 32) (p q : BitVec 3) : List UlCycle :=
  (burst A p q (reference info seed)).zipIdx.map fun x =>
    ⟨seed, x.1.1, true, x.1.2, decide (x.2 = 85), decide (43 ≤ x.2)⟩

def idleCycles (seed : BitVec 32) : List UlCycle :=
  List.replicate (HuUnit.LATENCY + 4) ⟨seed, ⟨0, 0⟩, false, false, false, false⟩

theorem sent_burstCycles (A : Nat) (info : BitVec 92) (seed : BitVec 32) (p q : BitVec 3) :
    Sent A info seed p q (burstCycles A info seed p q) where
  samples := by
    have hfst : (burst A p q (reference info seed)).zipIdx.filterMap
        (fun x => some (x.1.1, x.1.2)) = burst A p q (reference info seed) := by
      rw [List.filterMap_eq_map']
      exact List.zipIdx_map_fst 0 _
    rw [burstCycles, List.filterMap_map]
    exact hfst
  scrambInit c hc := by
    obtain ⟨x, -, rfl⟩ := List.mem_map.1 hc
    rfl

theorem idle_idleCycles (seed : BitVec 32) : Idle seed (idleCycles seed) where
  valid c hc := (List.eq_of_mem_replicate hc).symm ▸ rfl
  scrambInit c hc := (List.eq_of_mem_replicate hc).symm ▸ rfl
  length := by
    rw [idleCycles, List.length_replicate]
    exact Nat.lt_succ_self _

/-- At a level of four steps or less there is a block that does not come back. -/
theorem lost_of_level (h : level A < 5) (p q : BitVec 3) :
    reader.outputs reset (burstCycles A 0 lostSeed p q ++ idleCycles lostSeed) ≠ [(0, true)] := by
  have hlost : HuUnit.info (raw A 0 lostSeed) lostSeed ≠ 0 :=
    block_lost (by rw [softOf_false]; exact levels_faint _ h)
  rw [(sent_burstCycles A 0 lostSeed p q).run (by decide) (idle_idleCycles lostSeed)]
  intro heq
  exact hlost (congrArg Prod.fst (List.cons.inj heq).1)

/-- All blocks come back exactly if five steps of the level are left, less than 6.6 dB below full
scale. -/
theorem recovers_iff (A : Nat) (hhi : A ≤ 32767) : Recovers A ↔ 15404 ≤ A := by
  constructor
  · intro h
    refine Nat.le_of_not_lt fun hlt => ?_
    have hlevel := (level_lt_five_iff A).2 hlt
    exact lost_of_level hlevel 0 1 (h 0 lostSeed (by decide) 0 1 _ _
      (sent_burstCycles A 0 lostSeed 0 1) (idle_idleCycles lostSeed))
  · intro h info seed hseed p q cycles idle hsent hidle
    have hlevel : 5 ≤ level A :=
      Nat.le_of_not_lt fun hlt => Nat.not_lt.2 h ((level_lt_five_iff A).1 hlt)
    have hgood := good_raw hlevel hhi info seed
    rw [hsent.run hseed hidle, hgood.info_eq, hgood.infoOk]

theorem recovers_at_level_five : Recovers 15404 :=
  (recovers_iff 15404 (by decide)).2 (by decide)

/-- The block of zeros at amplitude 64. -/
theorem weak_burst_lost :
    Sent 64 0 lostSeed 0 1 (burstCycles 64 0 lostSeed 0 1) ∧ Idle lostSeed (idleCycles lostSeed) ∧
      reader.outputs reset (burstCycles 64 0 lostSeed 0 1 ++ idleCycles lostSeed) ≠ [(0, true)] ∧
        ¬Recovers 64 := by
  have hsent := sent_burstCycles 64 0 lostSeed 0 1
  have hidle := idle_idleCycles lostSeed
  have hlost := lost_of_level ((level_lt_five_iff 64).2 (by decide)) 0 1
  exact ⟨hsent, hidle, hlost, fun h => hlost (h 0 lostSeed (by decide) 0 1 _ _ hsent hidle)⟩

end UlReceiver
end TetraBs.Phy
