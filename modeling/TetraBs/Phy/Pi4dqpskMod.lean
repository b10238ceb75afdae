import TetraBs.Phy.Pi4dqpskPhase

/-! `tetra_pi4dqpsk_mod`: dibits to constellation points. One step is one rising clock edge. -/
namespace TetraBs.Phy
open TetraBs.Pacing TetraBs.Run TetraBs.Serial

structure ModInput where
  dibitIn : BitVec 2
  dibitValid : Bool
deriving DecidableEq

structure Pi4dqpskMod where
  phaseIdx : BitVec 3 := 0
  iOut : BitVec 16 := 0
  qOut : BitVec 16 := 0
  sampleValidOut : Bool := false
deriving DecidableEq

namespace Pi4dqpskMod

def reset : Pi4dqpskMod := {}

def AMP_ONE : BitVec 16 := 32767
def AMP_SQ2 : BitVec 16 := 23170
def AMP_ZERO : BitVec 16 := 0

/-- In eighths of a turn. -/
def phaseInc (dibitIn : BitVec 2) : BitVec 3 :=
  match dibitIn.toNat with
  | 0 => 1
  | 1 => 3
  | 2 => 7
  | 3 => 5
  | _ => 1

/-- The point of a phase. -/
def point (phase : BitVec 3) : BitVec 16 × BitVec 16 :=
  match phase.toNat with
  | 0 => (AMP_ONE, AMP_ZERO)
  | 1 => (AMP_SQ2, AMP_SQ2)
  | 2 => (AMP_ZERO, AMP_ONE)
  | 3 => (-AMP_SQ2, AMP_SQ2)
  | 4 => (-AMP_ONE, AMP_ZERO)
  | 5 => (-AMP_SQ2, -AMP_SQ2)
  | 6 => (AMP_ZERO, -AMP_ONE)
  | 7 => (AMP_SQ2, -AMP_SQ2)
  | _ => (AMP_ONE, AMP_ZERO)

def phaseNew (s : Pi4dqpskMod) (i : ModInput) : BitVec 3 := s.phaseIdx + phaseInc i.dibitIn

def step (s : Pi4dqpskMod) (i : ModInput) : Pi4dqpskMod where
  phaseIdx := if i.dibitValid then s.phaseNew i else s.phaseIdx
  iOut := if i.dibitValid then (point (s.phaseNew i)).1 else s.iOut
  qOut := if i.dibitValid then (point (s.phaseNew i)).2 else s.qOut
  sampleValidOut := i.dibitValid

/-- What the outputs show before the edge. -/
def sample (s : Pi4dqpskMod) : Pi4Input := ⟨s.iOut, s.qOut, s.sampleValidOut⟩

/-- What a demodulator on the outputs reads, edge by edge. -/
def samples : Pi4dqpskMod → List ModInput → List Pi4Input
  | _, [] => []
  | s, i :: is => s.sample :: samples (s.step i) is

/-- The dibits of a stream. -/
def dibits (is : List ModInput) : List (BitVec 2) :=
  (is.filter (·.dibitValid)).map ModInput.dibitIn

/-! The points. -/

/-- The sample of a phase. -/
def pointSample (phase : BitVec 3) : Pi4Input := ⟨(point phase).1, (point phase).2, true⟩

/-- The samples of dibits, from a phase on. -/
def modulated : BitVec 3 → List (BitVec 2) → List Pi4Input
  | _, [] => []
  | p, d :: ds => pointSample (p + phaseInc d) :: modulated (p + phaseInc d) ds

/-- No two points that follow each other are near an axis of each other. -/
theorem point_clear (p : BitVec 3) (d : BitVec 2) :
    Pi4dqpskDemod.Clear (pointSample p).iq (pointSample (p + phaseInc d)).iq := by
  have hlong : ∀ p, 2 ^ 20 ≤ (pointSample p).iq.normSq := by decide
  refine ⟨hlong p, hlong _, ?_, ?_⟩
  · revert p d
    decide
  · revert p d
    decide

theorem point_quadrant (p : BitVec 3) (d : BitVec 2) :
    Pi4dqpskDemod.quadrant ((pointSample p).iq.dot (pointSample (p + phaseInc d)).iq)
      ((pointSample p).iq.cross (pointSample (p + phaseInc d)).iq) = d := by
  revert p d
  decide

/-- The demodulator's decisions undo the increments. -/
theorem decisions_eq (p : BitVec 3) (ds : List (BitVec 2)) :
    List.zipWith Pi4dqpskDemod.decision (pointSample p :: modulated p ds) (modulated p ds) =
      ds := by
  induction ds generalizing p with
  | nil => rfl
  | cons d ds ih =>
    have hdibit : Pi4dqpskDemod.decision (pointSample p) (pointSample (p + phaseInc d)) = d :=
      (Pi4dqpskDemod.decision_eq (point_clear p d)).trans (point_quadrant p d)
    exact congrArg₂ List.cons hdibit (ih (p + phaseInc d))

theorem decisions_tail (p : BitVec 3) (ds : List (BitVec 2)) :
    List.zipWith Pi4dqpskDemod.decision (modulated p ds) (modulated p ds).tail = ds.tail := by
  cases ds with
  | nil => rfl
  | cons d ds => exact decisions_eq (p + phaseInc d) ds

/-! The stream. -/

theorem samples_append (s : Pi4dqpskMod) (is js : List ModInput) :
    samples s (is ++ js) = samples s is ++ samples (exec step s is) js := by
  induction is generalizing s with
  | nil => rfl
  | cons i is ih => exact congrArg (List.cons s.sample) (ih (s.step i))

/-- A strobe comes out a cycle after it came in. -/
theorem samples_strobes (s : Pi4dqpskMod) (is : List ModInput) (i : ModInput) :
    (samples s (is ++ [i])).map Pi4Input.sampleValid =
      s.sampleValidOut :: is.map ModInput.dibitValid := by
  induction is generalizing s with
  | nil => rfl
  | cons j is ih => exact congrArg (List.cons s.sampleValidOut) (ih (s.step j))

theorem samples_quiet {s : Pi4dqpskMod} {is : List ModInput} (hs : s.sampleValidOut = false)
    (his : ∀ i ∈ is, i.dibitValid = false) : ∀ v ∈ samples s is, v.sampleValid = false := by
  induction is generalizing s with
  | nil =>
    intro v hv
    cases hv
  | cons i is ih =>
    intro v hv
    rcases List.mem_cons.1 hv with rfl | hv
    · exact hs
    · exact ih (his i List.mem_cons_self) (fun j hj => his j (List.mem_cons_of_mem i hj)) v hv

theorem samples_length (s : Pi4dqpskMod) (is : List ModInput) :
    (samples s is).length = is.length := by
  induction is generalizing s with
  | nil => rfl
  | cons i is ih => exact congrArg (· + 1) (ih (s.step i))

/-- The outputs stand until the next dibit. -/
theorem samples_held {s : Pi4dqpskMod} {is : List ModInput}
    (hs : s.sampleValidOut = true → ∀ i ∈ is.take 18, i.dibitValid = false)
    (his : Apart (fun i : ModInput => i.dibitValid) 18 is) :
    Pi4dqpskDemod.Held (samples s is) := by
  induction is generalizing s with
  | nil => trivial
  | cons i is ih =>
    have hrest : Pi4dqpskDemod.Held (samples (s.step i) is) := ih his.1 his.2
    cases is with
    | nil => trivial
    | cons j is =>
      refine ⟨fun hv => ?_, hrest⟩
      have hi : i.dibitValid = false := hs hv i List.mem_cons_self
      exact ⟨if_neg (Bool.eq_false_iff.1 hi), if_neg (Bool.eq_false_iff.1 hi)⟩

/-- The samples with a strobe are those of the dibits, and before them the one that is out. -/
theorem samples_filter (s : Pi4dqpskMod) (is : List ModInput) (i : ModInput) :
    (samples s (is ++ [i])).filter (·.sampleValid) =
      [s.sample].filter (·.sampleValid) ++ modulated s.phaseIdx (dibits is) := by
  induction is generalizing s with
  | nil =>
    rw [dibits, List.filter_nil, List.map_nil, modulated, List.append_nil]
    rfl
  | cons j is ih =>
    have hcons : samples s (j :: is ++ [i]) = [s.sample] ++ samples (s.step j) (is ++ [i]) := rfl
    rw [hcons, List.filter_append, ih]
    congr 1
    cases hj : j.dibitValid with
    | false =>
      have hout : (s.step j).sample.sampleValid = false := hj
      have hphase : (s.step j).phaseIdx = s.phaseIdx := if_neg (Bool.eq_false_iff.1 hj)
      have hskip : dibits (j :: is) = dibits is := by
        rw [dibits, List.filter_cons_of_neg (Bool.eq_false_iff.1 hj), dibits]
      rw [List.filter_singleton, hout, hphase, hskip]
      rfl
    | true =>
      have hphase : (s.step j).phaseIdx = s.phaseIdx + phaseInc j.dibitIn := if_pos hj
      have hout : (s.step j).sample = pointSample (s.phaseIdx + phaseInc j.dibitIn) := by
        simp only [sample, step, hj, if_true, phaseNew, pointSample]
      have htake : dibits (j :: is) = j.dibitIn :: dibits is := by
        rw [dibits, List.filter_cons_of_pos hj, dibits, List.map_cons]
      rw [hphase, hout, htake, modulated]
      rfl

/-- A demodulator on the modulator finds every dibit but the first. -/
theorem demodulated {is quiet : List ModInput}
    (his : Apart (fun i : ModInput => i.dibitValid) 18 is)
    (hquiet : ∀ i ∈ quiet, i.dibitValid = false) (hlen : 19 ≤ quiet.length) :
    Pi4dqpskDemod.presented.outputs Pi4dqpskDemod.reset (samples reset (is ++ quiet)) =
      (dibits is).tail := by
  obtain ⟨q, quiet, rfl⟩ : ∃ q quiet', quiet = q :: quiet' :=
    List.exists_cons_of_length_pos (by omega)
  rw [List.length_cons] at hlen
  have hq : q.dibitValid = false := hquiet q List.mem_cons_self
  have hsplit : samples reset (is ++ q :: quiet) =
      samples reset (is ++ [q]) ++ samples (exec step reset (is ++ [q])) quiet := by
    rw [← samples_append, List.append_assoc]
    rfl
  have hheld : Pi4dqpskDemod.Held (samples reset (is ++ q :: quiet)) :=
    samples_held (fun h => nomatch h) (his.append_quiet hquiet)
  have hapart : Apart (fun i : Pi4Input => i.sampleValid) 18 (samples reset (is ++ [q])) := by
    have hstrobes : Apart id 18 ((samples reset (is ++ [q])).map Pi4Input.sampleValid) := by
      rw [samples_strobes]
      exact ⟨(fun h => nomatch h), apart_map.2 his⟩
    have hread : Apart (fun i : Pi4Input => id i.sampleValid) 18 (samples reset (is ++ [q])) :=
      apart_map.1 hstrobes
    exact hread
  have hlast : (exec step reset (is ++ [q])).sampleValidOut = false := by
    rw [exec_snoc]
    exact hq
  have hvsQuiet : ∀ v ∈ samples (exec step reset (is ++ [q])) quiet, v.sampleValid = false :=
    samples_quiet hlast fun i hi => hquiet i (List.mem_cons_of_mem q hi)
  have hvsLen : 18 ≤ (samples (exec step reset (is ++ [q])) quiet).length := by
    rw [samples_length]
    omega
  rw [hsplit] at hheld
  rw [hsplit, Pi4dqpskDemod.outputs_eq hheld hapart hvsQuiet hvsLen, samples_filter]
  exact decisions_tail 0 (dibits is)

/-- In every run of the demodulator the registers of the micro-rotations are exact, and samples
that are far from the axes of each other give the quadrant of their products. Its dibits are those
that the modulator took, but for the first, which has nothing before it. -/
theorem demodulator_correct :
    (∀ (is : List Pi4Input) (i : Pi4Input) (s : Pi4dqpskDemod),
      s = exec Pi4dqpskDemod.step Pi4dqpskDemod.reset is →
        (s.state = .init → ((s.step i).cordicX.toInt, (s.step i).cordicY.toInt) =
          i.quarterTurned) ∧ (s.state = .iter → s.Exact)) ∧
    (∀ (is quiet ws : List Pi4Input) (ds : List (BitVec 2)), Pi4dqpskDemod.Held (is ++ quiet) →
      Apart Pi4Input.sampleValid 18 is → (∀ i ∈ quiet, i.sampleValid = false) →
      18 ≤ quiet.length → ws = is.filter Pi4Input.sampleValid →
      ds = Pi4dqpskDemod.presented.outputs Pi4dqpskDemod.reset (is ++ quiet) →
        ds.length = ws.length - 1 ∧ ∀ k v₁ v₂, ws[k]? = some v₁ → ws[k + 1]? = some v₂ →
          Pi4dqpskDemod.Clear v₁.iq v₂.iq →
            ds[k]? = some (Pi4dqpskDemod.quadrant (v₁.iq.dot v₂.iq) (v₁.iq.cross v₂.iq)) ∧
              Pi4dqpskDemod.quadrant (v₁.iq.dot v₂.iq) (v₁.iq.cross v₂.iq) =
                diffDibit v₂.iq v₁.iq) ∧
    ∀ is quiet : List ModInput, Apart ModInput.dibitValid 18 is →
      (∀ i ∈ quiet, i.dibitValid = false) → 19 ≤ quiet.length →
        Pi4dqpskDemod.presented.outputs Pi4dqpskDemod.reset (samples reset (is ++ quiet)) =
          (dibits is).tail := by
  refine ⟨?_, ?_, fun is quiet his hquiet hlen => demodulated his hquiet hlen⟩
  · rintro is i s rfl
    exact ⟨fun hs => Pi4dqpskDemod.init_exact hs i, Pi4dqpskDemod.exact_run is⟩
  · rintro is quiet ws ds hheld his hquiet hlen rfl rfl
    have hout := Pi4dqpskDemod.outputs_eq hheld his hquiet hlen
    rw [hout]
    refine ⟨?_, fun k v₁ v₂ h₁ h₂ hclear => ⟨?_, Pi4dqpskDemod.quadrant_eq hclear⟩⟩
    · rw [List.length_zipWith, List.length_tail]
      exact Nat.min_eq_right (Nat.sub_le _ _)
    · rw [← Pi4dqpskDemod.decision_eq hclear]
      exact Pi4dqpskDemod.decision_at h₁ h₂

/-- Two samples, an eighth of a turn apart, 19 cycles from each other. -/
def twoSamples : List Pi4Input :=
  ⟨20000, 0, true⟩ :: List.replicate 18 ⟨20000, 0, false⟩ ++ [⟨14000, 14000, true⟩]

def still : List Pi4Input := List.replicate 18 ⟨14000, 14000, false⟩

def twoDibits : List ModInput := ⟨2, true⟩ :: List.replicate 18 ⟨0, false⟩ ++ [⟨3, true⟩]

theorem demodulator_correct_twoSamples :
    ((Pi4dqpskDemod.presented.outputs Pi4dqpskDemod.reset (twoSamples ++ still))[0]? = some 0 ∧
      (exec Pi4dqpskDemod.step Pi4dqpskDemod.reset (twoSamples.take 3)).Exact) ∧
    Pi4dqpskDemod.presented.outputs Pi4dqpskDemod.reset
      (samples reset (twoDibits ++ List.replicate 19 ⟨0, false⟩)) = [3] := by
  obtain ⟨hexact, hdecides, hrecovers⟩ := demodulator_correct
  refine ⟨⟨?_, (hexact (twoSamples.take 3) ⟨0, 0, false⟩ _ rfl).2 (by decide)⟩, ?_⟩
  · obtain ⟨-, hquadrant⟩ := hdecides twoSamples still _ _ (by decide) (by decide) (by decide)
      (by decide) rfl rfl
    exact (hquadrant 0 ⟨20000, 0, true⟩ ⟨14000, 14000, true⟩ rfl rfl
      ⟨by decide, by decide, by decide, by decide⟩).1
  · exact hrecovers twoDibits (List.replicate 19 ⟨0, false⟩) (by decide) (by decide) (by decide)

def oneDibit : List ModInput := [⟨2, true⟩]

/-- The first dibit of a stream is lost. -/
theorem oneDibit_lost :
    Pi4dqpskDemod.presented.outputs Pi4dqpskDemod.reset
      (samples reset (oneDibit ++ List.replicate 19 ⟨0, false⟩)) ≠ dibits oneDibit := by
  decide

end Pi4dqpskMod
end TetraBs.Phy
