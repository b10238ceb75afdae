import TetraBs.Umac.DlSignal

/-! What becomes of the write requests of `tetra_dl_signal_queue`: stored or dropped, and how
`drop_cnt` counts the dropped ones. The queue stands alone here, with any pops. -/
namespace TetraBs.DlSignal
open TetraBs.Run

/-- The queue with what its producers asked for, what it stored and what it dropped since reset. -/
structure CountedQueue where
  cycle : Nat
  queue : Queue
  requests : Nat
  stored : Nat
  dropped : Nat

namespace CountedQueue

def reset : CountedQueue := ⟨0, DlSignal.reset.queue, 0, 0, 0⟩

/-- One clock edge with the write ports of the input, and `pop`. -/
def step (w : CountedQueue) (i : Input × Bool) : CountedQueue where
  cycle := w.cycle + 1
  queue := queueStep w.cycle w.queue i.2 i.1
  requests := w.requests + writeAttempts i.1
  stored := w.stored + (writeAccepted w.queue i.1).isSome.toNat
  dropped := w.dropped + dropThis w.queue i.1

def run (is : List (Input × Bool)) : CountedQueue := exec step reset is

/-! One cycle. -/

theorem writeAttempts_pos (i : Input) : 0 < writeAttempts i ↔ arbWriteValid i = true := by
  unfold writeAttempts arbWriteValid
  cases i.wrMle.valid <;> cases i.wrCmce.valid <;> cases i.wrSds.valid <;> decide

/-- With a free slot all requests but one are dropped, without one all of them. -/
theorem dropThis_cases (q : Queue) (i : Input) :
    (freeIdx q ≠ none ∧ dropThis q i = writeAttempts i - 1) ∨
      (freeIdx q = none ∧ dropThis q i = writeAttempts i) := by
  have hpos := writeAttempts_pos i
  have hlosers : (if 2 ≤ writeAttempts i then writeAttempts i - 1 else 0) =
      writeAttempts i - 1 := by
    split <;> omega
  unfold dropThis
  rw [hlosers]
  cases hfree : freeIdx q with
  | some k => exact .inl ⟨Option.some_ne_none k, by simp⟩
  | none =>
    refine .inr ⟨rfl, ?_⟩
    cases hv : arbWriteValid i with
    | true =>
      rw [hv] at hpos
      have := hpos.2 rfl
      simp only [and_self, if_true]
      omega
    | false =>
      rw [hv] at hpos
      simp only [Bool.false_eq_true, iff_false] at hpos
      simp only [Bool.false_eq_true, false_and, if_false]
      omega

theorem attempts_eq (q : Queue) (i : Input) :
    writeAttempts i = (writeAccepted q i).isSome.toNat + dropThis q i := by
  have hpos := writeAttempts_pos i
  unfold writeAccepted
  obtain ⟨hfree, hdrop⟩ | ⟨hfree, hdrop⟩ := dropThis_cases q i
  · obtain ⟨k, hk⟩ := Option.ne_none_iff_exists'.1 hfree
    rw [hdrop, hk]
    cases hv : arbWriteValid i with
    | true =>
      rw [hv] at hpos
      have := hpos.2 rfl
      simp only [if_true, Option.isSome_some, Bool.toNat_true]
      omega
    | false =>
      rw [hv] at hpos
      simp only [Bool.false_eq_true, if_false, Option.isSome_none, Bool.toNat_false]
      simp only [Bool.false_eq_true, iff_false] at hpos
      omega
  · rw [hdrop, hfree]
    cases arbWriteValid i <;> simp

/-- What a cycle does with its requests: without a free slot it drops them all; with one it stores
that of the first port, MLE before CMCE before SDS, and drops the others. -/
structure CycleLaw (w : CountedQueue) (i : Input × Bool) : Prop where
  full : freeIdx w.queue = none →
    writeAccepted w.queue i.1 = none ∧ dropThis w.queue i.1 = writeAttempts i.1
  room : ∀ k, freeIdx w.queue = some k → arbWriteValid i.1 = true →
    w.queue.valid k = false ∧ (w.step i).queue.valid k = true ∧
      (w.step i).queue.entry k = arbWrite w.cycle i.1 ∧
        dropThis w.queue i.1 + 1 = writeAttempts i.1

theorem cycleLaw (w : CountedQueue) (i : Input × Bool) : CycleLaw w i where
  full hfull := by
    obtain ⟨hfree, -⟩ | ⟨-, hdrop⟩ := dropThis_cases w.queue i.1
    · exact absurd hfull hfree
    · exact ⟨by simp [writeAccepted, hfull], hdrop⟩
  room k hk hv := by
    have hacc : writeAccepted w.queue i.1 = some k := by rw [writeAccepted, hv, if_pos rfl, hk]
    have hpos := (writeAttempts_pos i.1).2 hv
    refine ⟨freeIdx_invalid hk, by simp [step, queueStep, hacc], by simp [step, queueStep, hacc], ?_⟩
    obtain ⟨-, hdrop⟩ | ⟨hfull, -⟩ := dropThis_cases w.queue i.1
    · omega
    · rw [hk] at hfull
      cases hfull

/-! Runs. -/

/-- The cycle takes the number of dropped requests from below the end of `drop_cnt` to beyond it. -/
def StepsOver (w : CountedQueue) (i : Input × Bool) : Prop :=
  w.dropped < 0xFFFF ∧ 0xFFFF < w.dropped + dropThis w.queue i.1

/-- `drop_cnt` is the number of dropped requests, or at its end. -/
def Counts (w : CountedQueue) : Prop := w.queue.dropCnt.toNat = min w.dropped 0xFFFF

theorem counts_step {w : CountedQueue} (h : Counts w) (i : Input × Bool) :
    Counts (w.step i) ↔ ¬StepsOver w i := by
  unfold Counts at h ⊢
  unfold StepsOver
  have hdropped : (w.step i).dropped = w.dropped + dropThis w.queue i.1 := rfl
  have hcnt : (w.step i).queue.dropCnt =
      if dropThis w.queue i.1 ≠ 0 ∧ w.queue.dropCnt ≠ 0xFFFF then
        w.queue.dropCnt + BitVec.ofNat 16 (dropThis w.queue i.1)
      else w.queue.dropCnt := rfl
  have hsmall : dropThis w.queue i.1 ≤ 3 := by
    have hthree : writeAttempts i.1 ≤ 3 := by
      unfold writeAttempts
      cases i.1.wrMle.valid <;> cases i.1.wrCmce.valid <;> cases i.1.wrSds.valid <;> decide
    obtain ⟨-, hdrop⟩ | ⟨-, hdrop⟩ := dropThis_cases w.queue i.1 <;> omega
  generalize dropThis w.queue i.1 = k at hdropped hcnt hsmall
  rw [hdropped, hcnt]
  by_cases hend : w.queue.dropCnt = 0xFFFF
  · have hfull : w.queue.dropCnt.toNat = 0xFFFF := congrArg BitVec.toNat hend
    have hreached : 0xFFFF ≤ w.dropped := by omega
    rw [if_neg fun hno => hno.2 hend, hfull]
    exact iff_of_true (by omega) fun hno => by omega
  · have hlt : w.queue.dropCnt.toNat ≠ 0xFFFF := fun heq => hend (BitVec.eq_of_toNat_eq heq)
    by_cases hk : k = 0
    · rw [if_neg fun hno => hno.1 hk]
      omega
    · have hbelow : w.dropped < 0xFFFF := by omega
      have hsame : w.queue.dropCnt.toNat = w.dropped := by omega
      rw [if_pos ⟨hk, hend⟩, BitVec.toNat_add, BitVec.toNat_ofNat, hsame]
      by_cases hover : 0xFFFF < w.dropped + k
      · have hwrapped : (w.dropped + k % 2 ^ 16) % 2 ^ 16 < 0xFFFF := by omega
        refine iff_of_false (fun heq => ?_) (fun hno => hno ⟨hbelow, hover⟩)
        rw [heq] at hwrapped
        omega
      · refine iff_of_true ?_ fun hno => hover hno.2
        omega

/-- Every request is stored or dropped, by the law of its cycle, and `drop_cnt` counts the dropped
ones up to its end exactly in the runs in which no cycle steps over that end. -/
theorem requests_accounted (is : List (Input × Bool)) :
    (run is).requests = (run is).stored + (run is).dropped ∧
      Along step CycleLaw reset is ∧
      ((∀ pre, pre <+: is → Counts (run pre)) ↔
        Along step (fun w i => ¬StepsOver w i) reset is) := by
  refine ⟨?_, along_of_forall (fun i _ w => cycleLaw w i) reset, ?_⟩
  · refine exec_invariant (P := fun _ _ => True)
      (fun w : CountedQueue => w.requests = w.stored + w.dropped) (fun w i hw _ => ?_) rfl
      (along_true step reset is)
    have hatt := attempts_eq w.queue i.1
    simp only [step]
    omega
  · have hreset : Counts reset := rfl
    refine (forall_prefix_iff (P := Counts)).trans ?_
    rw [and_iff_right hreset]
    exact along_after_iff (P := Counts) (Q := fun w i => ¬StepsOver w i) (fun _ => True) (fun _ _ _ => trivial)
      (fun w i _ hw => counts_step hw i) trivial hreset

/-! All three ports ask in every cycle, for the last slot, and nothing is popped. -/

def allThree : Input × Bool :=
  let port : WritePort := ⟨true, 0#432, 0#2, Fin.last 3⟩
  (⟨port, false, false, port, port, Fin.last 3, false, 0#216, 0#216⟩, false)

theorem full_step {w : CountedQueue} (h : ∀ k, w.queue.valid k = true)
    (hend : w.queue.dropCnt ≠ 0xFFFF) :
    (∀ k, (w.step allThree).queue.valid k = true) ∧
      (w.step allThree).queue.dropCnt = w.queue.dropCnt + 3 := by
  have hfree : freeIdx w.queue = none := scanDown_eq_none.2 fun k => by rw [h k]; rfl
  have hdrop : dropThis w.queue allThree.1 = 3 := by
    rw [dropThis, hfree]
    decide
  refine ⟨fun k => ?_, ?_⟩
  · simp [step, queueStep, h k, allThree]
  · simp only [step, queueStep, hdrop, if_pos (⟨by decide, hend⟩ : 3 ≠ 0 ∧ _)]
    rfl

theorem full_run {w : CountedQueue} (h : ∀ k, w.queue.valid k = true) (m : Nat)
    (hend : w.queue.dropCnt.toNat + 3 * m ≤ 0xFFFE) :
    (∀ k, (exec step w (List.replicate m allThree)).queue.valid k = true) ∧
      (exec step w (List.replicate m allThree)).queue.dropCnt.toNat =
        w.queue.dropCnt.toNat + 3 * m := by
  induction m generalizing w with
  | zero => exact ⟨h, rfl⟩
  | succ m ih =>
    have hne : w.queue.dropCnt ≠ 0xFFFF := fun heq => by
      have hfull : (0xFFFF : BitVec 16).toNat = 0xFFFF := rfl
      rw [heq] at hend
      omega
    obtain ⟨hvalid, hcnt⟩ := full_step h hne
    have hnat : (w.step allThree).queue.dropCnt.toNat = w.queue.dropCnt.toNat + 3 := by
      have hthree : (3 : BitVec 16).toNat = 3 := rfl
      rw [hcnt, BitVec.toNat_add, hthree]
      omega
    obtain ⟨hvalid', hcnt'⟩ := ih hvalid (by omega)
    rw [List.replicate_succ, exec]
    exact ⟨hvalid', by omega⟩

/-- In the first cycle two of three requests are dropped with all slots free; and 21847 such cycles
take `drop_cnt` from `0xFFFE` to 1. -/
theorem dropped_with_room :
    freeIdx reset.queue = some 0 ∧ dropThis reset.queue allThree.1 = 2 ∧
      (run (List.replicate 21846 allThree)).queue.dropCnt = 0xFFFE ∧
      (run (List.replicate 21847 allThree)).queue.dropCnt = 1 := by
  have hfour : (∀ k, (exec step reset (List.replicate 4 allThree)).queue.valid k = true) ∧
      (exec step reset (List.replicate 4 allThree)).queue.dropCnt.toNat = 8 := by
    decide +kernel
  obtain ⟨hvalid, hcnt⟩ := full_run hfour.1 21842 (by rw [hfour.2])
  rw [hfour.2] at hcnt
  have hlong : run (List.replicate 21846 allThree) =
      exec step (exec step reset (List.replicate 4 allThree)) (List.replicate 21842 allThree) := by
    rw [run, ← exec_append, List.replicate_append_replicate]
  have hend : (run (List.replicate 21846 allThree)).queue.dropCnt = 0xFFFE := by
    rw [hlong]
    exact BitVec.eq_of_toNat_eq hcnt
  have hlast : run (List.replicate 21847 allThree) =
      step (run (List.replicate 21846 allThree)) allThree := by
    rw [run, run, List.replicate_succ', exec_snoc]
  refine ⟨rfl, by decide, hend, ?_⟩
  rw [hlong] at hend
  rw [hlast, hlong, (full_step hvalid (by rw [hend]; decide)).2, hend]
  decide

end CountedQueue
end TetraBs.DlSignal
