import TetraBs.Lib.Serializer
import TetraBs.Lib.ViterbiOptimal
import TetraBs.Lmac.UlViterbi

/-! What the two Viterbi decoders share: they take `num_stages` stages, trace back through the
survivors and put the bits out. They differ in the trellis and its metrics. One step is one rising
clock edge; `num_stages` stays as it is during a block. -/
namespace TetraBs.Lmac
open TetraBs.Run TetraBs.Serial TetraBs.Viterbi

/-- The parts of a decoder; `w` is `SOFT_WIDTH`. -/
structure ViterbiCode (w : Nat) where
  prevState : BitVec 4 → Bool → BitVec 4
  bm : (Nat → BitVec w) → BitVec 4 → Bool → Nat
  /-- The metrics that `pm_flat_sys` takes over after a stage. -/
  newPm : (BitVec 4 → Nat) → (Nat → BitVec w) → BitVec 4 → Nat
  tbStart : (BitVec 4 → Nat) → BitVec 4
  inputBit : BitVec 4 → Bool

/-- The registers of both. -/
abbrev ViterbiState := UlViterbi

namespace ViterbiCode
variable {w : Nat} (c : ViterbiCode w) (n : Nat)

def TAIL : Nat := 4

def acsDone (v : ViterbiState) (inputValid : Bool) : Bool :=
  v.state = .acs && inputValid && v.stageCnt = n - 1

def tbDone (v : ViterbiState) : Bool := v.state = .traceback && v.stageCnt = n - 1

def outDone (v : ViterbiState) : Bool := v.state = .output && v.stageCnt = n - TAIL - 1

def takes (v : ViterbiState) (inputValid : Bool) : Bool :=
  (v.state = .idle || v.state = .acs) && inputValid

def tbStage (v : ViterbiState) : Nat := (n - 1 + 512 - v.stageCnt) % 512

def step (v : ViterbiState) (soft : Nat → BitVec w) (inputValid : Bool) : ViterbiState where
  state :=
    match v.state with
    | .idle => if inputValid then .acs else .idle
    | .acs => if acsDone n v inputValid then .tbInit else .acs
    | .tbInit => .traceback
    | .traceback => if tbDone n v then .output else .traceback
    | .output => if outDone n v then .idle else .output
  stageCnt :=
    match v.state with
    | .idle => if inputValid then 1 else v.stageCnt
    | .acs =>
      if inputValid then if acsDone n v inputValid then 0 else (v.stageCnt + 1) % 512
      else v.stageCnt
    | .tbInit => 0
    | .traceback => if tbDone n v then 0 else (v.stageCnt + 1) % 512
    | .output => if outDone n v then 0 else (v.stageCnt + 1) % 512
  pm :=
    if outDone n v then UlViterbi.pmInit
    else if takes v inputValid then c.newPm v.pm soft
    else v.pm
  surv :=
    if takes v inputValid then
      HuDecoder.store v.surv v.stageCnt (survivor c.prevState v.pm (c.bm soft))
    else v.surv
  tbState :=
    match v.state with
    | .tbInit => c.tbStart v.pm
    | .traceback => c.prevState v.tbState (v.surv (tbStage n v) v.tbState)
    | _ => v.tbState
  outBuf :=
    if v.state = .traceback then HuDecoder.store v.outBuf (tbStage n v) (c.inputBit v.tbState)
    else v.outBuf
  decodedBit := if v.state = .output then v.outBuf v.stageCnt else v.decodedBit
  decodedValid := v.state = .output
  blockDone := outDone n v

/-- A cycle, with a stage or without. -/
def feed (v : ViterbiState) (x : Option (Nat → BitVec w)) : ViterbiState :=
  c.step n v (x.getD fun _ => 0) x.isSome

/-- The bits of a run. -/
def reader : Reader ViterbiState (Option (Nat → BitVec w)) Bool where
  next := c.feed n
  out v x := if (c.feed n v x).decodedValid then [(c.feed n v x).decodedBit] else []

/-! The block that a sequence of soft values decodes to. -/

/-- The metrics after `t` stages. -/
def pmOf (soft : Nat → Nat → BitVec w) : Nat → BitVec 4 → Nat
  | 0 => UlViterbi.pmInit
  | t + 1 => c.newPm (pmOf soft t) (soft t)

def costs (soft : Nat → Nat → BitVec w) (t : Nat) : BitVec 4 → Bool → Nat := c.bm (soft t)

def survOf (soft : Nat → Nat → BitVec w) (t : Nat) : BitVec 4 → Bool :=
  survivor c.prevState (c.pmOf soft t) (c.costs soft t)

/-- The state `k` stages before the end. -/
def traceOf (soft : Nat → Nat → BitVec w) : Nat → BitVec 4 :=
  trace c.prevState (c.survOf soft) n (c.tbStart (c.pmOf soft n))

def decoded (soft : Nat → Nat → BitVec w) (t : Nat) : Bool :=
  c.inputBit (c.traceOf n soft (n - 1 - t))

/-! The phases of a block. -/

/-- Between two blocks. -/
structure Ready (v : ViterbiState) : Prop where
  state : v.state = .idle
  stageCnt : v.stageCnt = 0
  pm : v.pm = UlViterbi.pmInit

variable (soft : Nat → Nat → BitVec w) (k : Nat)

/-- `k` stages have come. -/
structure Taking (v : ViterbiState) : Prop where
  state : v.state = if k = 0 then .idle else .acs
  stageCnt : v.stageCnt = k
  pm : v.pm = c.pmOf soft k
  surv : ∀ t < k, v.surv t = c.survOf soft t

/-- All stages have come. -/
structure Full (v : ViterbiState) : Prop where
  state : v.state = .tbInit
  pm : v.pm = c.pmOf soft n
  surv : ∀ t < n, v.surv t = c.survOf soft t

structure Tracing (v : ViterbiState) : Prop where
  state : v.state = .traceback
  stageCnt : v.stageCnt = k
  surv : ∀ t < n, v.surv t = c.survOf soft t
  tbState : v.tbState = c.traceOf n soft k
  outBuf : ∀ t, n - k ≤ t → t < n → v.outBuf t = c.decoded n soft t

/-- `k` bits are out. -/
structure Sending (v : ViterbiState) : Prop where
  state : v.state = .output
  stageCnt : v.stageCnt = k
  outBuf : ∀ t < n, v.outBuf t = c.decoded n soft t

variable {c n soft k} {v : ViterbiState}

theorem ready_reset : Ready UlViterbi.reset := ⟨rfl, rfl, rfl⟩

theorem Ready.taking (h : Ready v) (soft : Nat → Nat → BitVec w) : c.Taking soft 0 v :=
  ⟨h.state, h.stageCnt, h.pm, fun t ht => absurd ht (Nat.not_lt_zero t)⟩

theorem Taking.idle_or_acs (h : c.Taking soft k v) :
    v.state = .idle ∧ k = 0 ∨ v.state = .acs ∧ k ≠ 0 := by
  have hstate := h.state
  by_cases hk : k = 0
  · rw [if_pos hk] at hstate
    exact .inl ⟨hstate, hk⟩
  · rw [if_neg hk] at hstate
    exact .inr ⟨hstate, hk⟩

theorem Taking.not_outDone (h : c.Taking soft k v) : outDone n v = false := by
  rcases h.idle_or_acs with ⟨hstate, -⟩ | ⟨hstate, -⟩ <;> simp [outDone, hstate]

theorem Taking.takes (h : c.Taking soft k v) : takes v true = true := by
  rcases h.idle_or_acs with ⟨hstate, -⟩ | ⟨hstate, -⟩ <;> simp [ViterbiCode.takes, hstate]

theorem Taking.silent (h : c.Taking soft k v) (x : Option (Nat → BitVec w)) :
    (c.reader n).out v x = [] := by
  have hvalid : (c.feed n v x).decodedValid = false := by
    rcases h.idle_or_acs with ⟨hstate, -⟩ | ⟨hstate, -⟩ <;> simp [feed, step, hstate]
  exact if_neg (by rw [hvalid]; exact Bool.false_ne_true)

theorem Taking.wait (h : c.Taking soft k v) : c.Taking soft k (c.feed n v none) := by
  rcases h.idle_or_acs with ⟨hstate, hk⟩ | ⟨hstate, hk⟩
  · refine ⟨?_, ?_, ?_, fun t ht => absurd ht (by omega)⟩ <;>
      simp [feed, step, hstate, outDone, ViterbiCode.takes, h.stageCnt, h.pm, hk]
  · refine ⟨?_, ?_, ?_, ?_⟩ <;>
      simp [feed, step, hstate, acsDone, outDone, ViterbiCode.takes, h.stageCnt, h.pm, hk]
    exact h.surv

theorem Taking.stored (h : c.Taking soft k v) : ∀ t < k + 1,
    (c.feed n v (some (soft k))).surv t = c.survOf soft t := by
  intro t ht
  have hsurv : (c.feed n v (some (soft k))).surv =
      HuDecoder.store v.surv v.stageCnt (survivor c.prevState v.pm (c.bm (soft k))) :=
    if_pos h.takes
  rw [hsurv, HuDecoder.store, h.stageCnt]
  by_cases hlast : t = k
  · rw [if_pos hlast, hlast, h.pm]
    rfl
  · rw [if_neg hlast]
    exact h.surv t (by omega)

theorem Taking.next_pm (h : c.Taking soft k v) :
    (c.feed n v (some (soft k))).pm = c.pmOf soft (k + 1) := by
  have hpm : (c.feed n v (some (soft k))).pm = if outDone n v then UlViterbi.pmInit
      else if ViterbiCode.takes v true then c.newPm v.pm (soft k) else v.pm := rfl
  rw [hpm, h.not_outDone, h.takes, if_neg Bool.false_ne_true, if_pos rfl, h.pm]
  rfl

theorem Taking.feed (h : c.Taking soft k v) (hk : k + 1 < n) (hn : n ≤ 511) :
    c.Taking soft (k + 1) (c.feed n v (some (soft k))) := by
  have hcnt := h.stageCnt
  have hlast : acsDone n v true = false := by
    have hne : k ≠ n - 1 := by omega
    simp [acsDone, hcnt, hne]
  refine ⟨?_, ?_, h.next_pm, h.stored⟩
  · rcases h.idle_or_acs with ⟨hstate, -⟩ | ⟨hstate, -⟩ <;>
      simp [ViterbiCode.feed, step, hstate, hlast]
  · rcases h.idle_or_acs with ⟨hstate, hk⟩ | ⟨hstate, -⟩
    · simp [ViterbiCode.feed, step, hstate, hk]
    · simp [ViterbiCode.feed, step, hstate, hlast, hcnt]
      omega

theorem Taking.last (h : c.Taking soft k v) (hk : k + 1 = n) (h1 : 1 < n) :
    c.Full n soft (c.feed n v (some (soft k))) := by
  have hacs : v.state = .acs := by
    rcases h.idle_or_acs with ⟨-, hzero⟩ | ⟨hstate, -⟩
    · omega
    · exact hstate
  have hdone : acsDone n v true = true := by
    have heq : k = n - 1 := by omega
    simp [acsDone, hacs, h.stageCnt, heq]
  have hpm := h.next_pm (n := n)
  have hstored := h.stored (n := n)
  rw [hk] at hpm hstored
  refine ⟨?_, hpm, hstored⟩
  simp [ViterbiCode.feed, step, hacs, hdone]

/-- Stages in order, some cycles apart or not. -/
theorem Taking.run (h : c.Taking soft k v) (hn : n ≤ 511) {m : Nat} (hm : k + m < n)
    {cs : List (Option (Nat → BitVec w))}
    (hcs : cs.filterMap id = (List.range' k m).map soft) :
    (c.reader n).outputs v cs = [] ∧ c.Taking soft (k + m) ((c.reader n).after v cs) := by
  induction cs generalizing v k m with
  | nil =>
    have hzero : m = 0 := by
      have hlen := congrArg List.length hcs
      simpa using hlen.symm
    rw [hzero]
    exact ⟨rfl, h⟩
  | cons x cs ih =>
    rw [Reader.outputs, Reader.after, h.silent]
    cases x with
    | none => exact ih h.wait hm hcs
    | some x =>
      cases m with
      | zero => simp at hcs
      | succ m =>
        have hcons : (some x :: cs).filterMap id = x :: cs.filterMap id := rfl
        rw [List.range'_succ, List.map_cons, hcons] at hcs
        obtain ⟨rfl, hrest⟩ := List.cons.inj hcs
        have hnext := ih (h.feed (by omega) hn) (by omega) hrest
        rwa [Nat.add_assoc, Nat.add_comm 1 m] at hnext

theorem Full.step (h : c.Full n soft v) (x : Option (Nat → BitVec w)) :
    (c.reader n).out v x = [] ∧ c.Tracing n soft 0 (c.feed n v x) := by
  have hstate := h.state
  have htakes : ViterbiCode.takes v x.isSome = false := by simp [ViterbiCode.takes, hstate]
  refine ⟨?_, ?_, ?_, ?_, ?_, fun t ht hlt => absurd hlt (by omega)⟩
  · simp [reader, feed, ViterbiCode.step, hstate]
  · simp [feed, ViterbiCode.step, hstate]
  · simp [feed, ViterbiCode.step, hstate]
  · simpa [feed, ViterbiCode.step, htakes] using h.surv
  · simp [feed, ViterbiCode.step, hstate, traceOf, trace, h.pm]

theorem Tracing.tbStage (h : c.Tracing n soft k v) (hk : k < n) (hn : n ≤ 511) :
    tbStage n v = n - 1 - k := by
  rw [ViterbiCode.tbStage, h.stageCnt]
  omega

theorem Tracing.stored (h : c.Tracing n soft k v) (hk : k < n) (hn : n ≤ 511)
    (x : Option (Nat → BitVec w)) : ∀ t, n - (k + 1) ≤ t → t < n →
      (c.feed n v x).outBuf t = c.decoded n soft t := by
  intro t ht hlt
  have hout : (c.feed n v x).outBuf =
      HuDecoder.store v.outBuf (ViterbiCode.tbStage n v) (c.inputBit v.tbState) := if_pos h.state
  rw [hout, HuDecoder.store, h.tbStage hk hn]
  by_cases hnow : t = n - 1 - k
  · rw [if_pos hnow, h.tbState, decoded]
    congr 2
    omega
  · rw [if_neg hnow]
    exact h.outBuf t (by omega) hlt

theorem Tracing.out (h : c.Tracing n soft k v) (x : Option (Nat → BitVec w)) :
    (c.reader n).out v x = [] := by
  simp [reader, feed, step, h.state]

theorem Tracing.step (h : c.Tracing n soft k v) (hk : k + 1 < n) (hn : n ≤ 511)
    (x : Option (Nat → BitVec w)) : c.Tracing n soft (k + 1) (c.feed n v x) := by
  have hstate := h.state
  have hlast : tbDone n v = false := by
    have hne : k ≠ n - 1 := by omega
    simp [tbDone, h.stageCnt, hne]
  have htakes : ViterbiCode.takes v x.isSome = false := by simp [ViterbiCode.takes, hstate]
  refine ⟨?_, ?_, ?_, ?_, h.stored (by omega) hn x⟩
  · simp [feed, ViterbiCode.step, hstate, hlast]
  · simp [feed, ViterbiCode.step, hstate, hlast, h.stageCnt]
    omega
  · simpa [feed, ViterbiCode.step, htakes] using h.surv
  · have htb : (c.feed n v x).tbState =
        c.prevState v.tbState (v.surv (ViterbiCode.tbStage n v) v.tbState) := by
      simp only [feed, ViterbiCode.step, hstate]
    rw [htb, h.tbStage (by omega) hn, h.tbState, h.surv _ (by omega)]
    rfl

theorem Tracing.last (h : c.Tracing n soft k v) (hk : k + 1 = n) (hn : n ≤ 511)
    (x : Option (Nat → BitVec w)) : c.Sending n soft 0 (c.feed n v x) := by
  have hstate := h.state
  have hdone : tbDone n v = true := by
    have heq : k = n - 1 := by omega
    simp [tbDone, hstate, h.stageCnt, heq]
  refine ⟨?_, ?_, fun t ht => h.stored (by omega) hn x t (by omega) ht⟩
  · simp [feed, ViterbiCode.step, hstate, hdone]
  · simp [feed, ViterbiCode.step, hstate, hdone]

/-- The trace back, whatever comes in meanwhile. -/
theorem Tracing.run (h : c.Tracing n soft k v) (hk : k < n) (hn : n ≤ 511)
    {is : List (Option (Nat → BitVec w))} (his : is.length = n - k) :
    (c.reader n).outputs v is = [] ∧ c.Sending n soft 0 ((c.reader n).after v is) := by
  induction is generalizing v k with
  | nil =>
    rw [List.length_nil] at his
    omega
  | cons x is ih =>
    rw [List.length_cons] at his
    rw [Reader.outputs, Reader.after, h.out]
    by_cases hlast : k + 1 = n
    · have hnil : is = [] := List.eq_nil_of_length_eq_zero (by omega)
      rw [hnil]
      exact ⟨rfl, h.last hlast hn x⟩
    · exact ih (h.step (by omega) hn x) (by omega) (by omega)

theorem Sending.out (h : c.Sending n soft k v) (hk : k < n) (x : Option (Nat → BitVec w)) :
    (c.reader n).out v x = [c.decoded n soft k] := by
  simp [reader, feed, step, h.state, h.stageCnt, h.outBuf k hk]

theorem Sending.step (h : c.Sending n soft k v) (hk : k + 1 < n - TAIL) (hn : n ≤ 511)
    (x : Option (Nat → BitVec w)) : c.Sending n soft (k + 1) (c.feed n v x) := by
  have hstate := h.state
  have hlast : outDone n v = false := by
    have hne : k ≠ n - TAIL - 1 := by omega
    simp [outDone, h.stageCnt, hne]
  refine ⟨?_, ?_, ?_⟩
  · simp [feed, ViterbiCode.step, hstate, hlast]
  · simp [feed, ViterbiCode.step, hstate, hlast, h.stageCnt]
    omega
  · simpa [feed, ViterbiCode.step, hstate] using h.outBuf

theorem Sending.last (h : c.Sending n soft k v) (hk : k + 1 = n - TAIL)
    (x : Option (Nat → BitVec w)) :
    Ready (c.feed n v x) ∧ (c.feed n v x).blockDone = true := by
  have hstate := h.state
  have hdone : outDone n v = true := by
    have heq : k = n - TAIL - 1 := by omega
    simp [outDone, hstate, h.stageCnt, heq]
  refine ⟨⟨?_, ?_, ?_⟩, hdone⟩
  · simp [feed, ViterbiCode.step, hstate, hdone]
  · simp [feed, ViterbiCode.step, hstate, hdone]
  · simp [feed, ViterbiCode.step, hdone]

/-- The bits go out one a cycle, and with the last of them the decoder is ready again. -/
theorem Sending.run (h : c.Sending n soft k v) (hn : n ≤ 511) {m : Nat} (hm : k + m = n - TAIL)
    (hpos : 0 < m) {is : List (Option (Nat → BitVec w))} (his : is.length = m) :
    (c.reader n).outputs v is = (List.range' k m).map (c.decoded n soft) ∧
      Ready ((c.reader n).after v is) ∧ ((c.reader n).after v is).blockDone = true := by
  induction is generalizing v k m with
  | nil =>
    rw [List.length_nil] at his
    omega
  | cons x is ih =>
    rw [List.length_cons] at his
    rw [Reader.outputs, Reader.after, h.out (by omega) x, ← his, List.range'_succ, List.map_cons]
    by_cases hlast : k + 1 = n - TAIL
    · have hnil : is = [] := List.eq_nil_of_length_eq_zero (by omega)
      rw [hnil]
      exact ⟨rfl, h.last hlast x⟩
    · obtain ⟨hout, hend⟩ := ih (h.step (by omega) hn x) (by omega) (by omega) rfl
      refine ⟨?_, hend⟩
      exact congrArg (c.decoded n soft k :: ·) hout

/-! A whole block. -/

/-- The cycles in which the stages `soft 0`, ..., `soft (n - 1)` come in, up to the last of
them. -/
def Feeds (n : Nat) (soft : Nat → Nat → BitVec w) (cs : List (Option (Nat → BitVec w))) : Prop :=
  ∃ before, cs = before ++ [some (soft (n - 1))] ∧
    before.filterMap id = (List.range (n - 1)).map soft

/-- A block puts out its decoded bits, all but the tail, and leaves the decoder ready for the
next one. What comes in after the last stage does not matter. -/
theorem Ready.block (h : Ready v) (h5 : TAIL < n) (hn : n ≤ 511)
    {cs rest : List (Option (Nat → BitVec w))} (hcs : Feeds n soft cs)
    (hrest : rest.length = 1 + n + (n - TAIL)) :
    (c.reader n).outputs v (cs ++ rest) = (List.range (n - TAIL)).map (c.decoded n soft) ∧
      Ready ((c.reader n).after v (cs ++ rest)) ∧
      ((c.reader n).after v (cs ++ rest)).blockDone = true := by
  have h4 : 4 < n := h5
  obtain ⟨before, rfl, hbefore⟩ := hcs
  rw [List.range_eq_range'] at hbefore
  obtain ⟨hsilent, htaken⟩ := (h.taking (c := c) soft).run hn (m := n - 1) (by omega) hbefore
  rw [Nat.zero_add] at htaken
  have hfull := htaken.last (n := n) (by omega) (by omega)
  obtain ⟨x, rest, rfl⟩ : ∃ x xs, rest = x :: xs := by
    cases rest with
    | nil =>
      rw [List.length_nil] at hrest
      omega
    | cons x xs => exact ⟨x, xs, rfl⟩
  rw [List.length_cons] at hrest
  have htake : (rest.take n).length = n - 0 := by
    rw [List.length_take]
    omega
  have hdrop : (rest.drop n).length = n - TAIL := by
    rw [List.length_drop]
    omega
  have hsome : 0 < n - TAIL := Nat.sub_pos_of_lt h5
  obtain ⟨hinit, htracing⟩ := hfull.step x
  obtain ⟨hback, hsending⟩ := htracing.run (by omega) hn htake
  obtain ⟨hout, hend⟩ := hsending.run hn (Nat.zero_add _) hsome hdrop
  have hlast := htaken.silent (n := n) (some (soft (n - 1)))
  rw [List.append_assoc, Reader.outputs_append, Reader.after_append, hsilent, List.nil_append,
    List.singleton_append, Reader.outputs, Reader.after, hlast, List.nil_append, Reader.outputs,
    Reader.after]
  have hnext : (c.reader n).next = c.feed n := rfl
  rw [hnext, hinit, List.nil_append]
  rw [← List.take_append_drop n rest, Reader.outputs_append, Reader.after_append, hback, hout,
    List.nil_append, List.range_eq_range']
  exact ⟨rfl, hend⟩

/-- While the stages come in, the metric registers hold the metrics of those that have come. -/
theorem Ready.pm_of_prefix (h : Ready v) (h1 : 1 < n) (hn : n ≤ 511)
    {cs xs : List (Option (Nat → BitVec w))} (hcs : Feeds n soft cs) (hxs : xs <+: cs) :
    (xs.filterMap id).length ≤ n ∧
      ((c.reader n).after v xs).pm = c.pmOf soft (xs.filterMap id).length := by
  obtain ⟨before, rfl, hbefore⟩ := hcs
  rw [List.range_eq_range'] at hbefore
  rcases List.prefix_concat_iff.1 hxs with hall | hpart
  · rw [hall, List.filterMap_append, List.length_append, hbefore, List.length_map,
      List.length_range', Reader.after_append]
    have hlast : ([some (soft (n - 1))].filterMap id).length = 1 := rfl
    obtain ⟨-, htaken⟩ := (h.taking (c := c) soft).run hn (m := n - 1) (by omega) hbefore
    rw [Nat.zero_add] at htaken
    rw [hlast]
    exact ⟨by omega, htaken.next_pm⟩
  · obtain ⟨ys, rfl⟩ := hpart
    rw [List.filterMap_append] at hbefore
    have hlen := congrArg List.length hbefore
    rw [List.length_append, List.length_map, List.length_range'] at hlen
    have hsplit : List.range' 0 (n - 1) = List.range' 0 (xs.filterMap id).length ++
        List.range' (0 + (xs.filterMap id).length) (n - 1 - (xs.filterMap id).length) := by
      rw [List.range'_append_1, Nat.add_sub_cancel' (by omega)]
    rw [hsplit, List.map_append] at hbefore
    obtain ⟨hcut, -⟩ := List.append_inj hbefore (by rw [List.length_map, List.length_range'])
    obtain ⟨-, htaken⟩ := (h.taking (c := c) soft).run hn
      (m := (xs.filterMap id).length) (by omega) hcut
    rw [Nat.zero_add] at htaken
    exact ⟨by omega, htaken.pm⟩

/-! Blocks one after another. -/

/-- What the registers can hold between two blocks: any number of blocks, of any lengths, and of
idle cycles have gone by since the reset. -/
inductive Between (c : ViterbiCode w) : ViterbiState → Prop
  | reset : Between c UlViterbi.reset
  | idle (v : ViterbiState) (n : Nat) : Between c v → Between c (c.feed n v none)
  | block (v : ViterbiState) (n : Nat) (soft : Nat → Nat → BitVec w)
      (cs rest : List (Option (Nat → BitVec w))) : Between c v → TAIL < n → n ≤ 511 →
      Feeds n soft cs → rest.length = 1 + n + (n - TAIL) →
      Between c ((c.reader n).after v (cs ++ rest))

theorem Ready.wait (h : Ready v) (n : Nat) : Ready (c.feed n v none) := by
  have hstate := h.state
  refine ⟨?_, ?_, ?_⟩
  · simp [ViterbiCode.feed, step, hstate]
  · simp [ViterbiCode.feed, step, hstate, h.stageCnt]
  · simp [ViterbiCode.feed, step, outDone, ViterbiCode.takes, hstate, h.pm]

theorem Between.ready (h : Between c v) : Ready v := by
  induction h with
  | reset => exact ready_reset
  | idle v n _ ih => exact ih.wait n
  | block v n soft cs rest _ h5 hn hcs hrest ih => exact (ih.block h5 hn hcs hrest).2.1

end ViterbiCode
end TetraBs.Lmac
