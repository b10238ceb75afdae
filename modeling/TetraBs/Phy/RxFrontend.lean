import TetraBs.Phy.RxCic

/-! `tetra_rx_frontend` behind its FIFO: the decimator feeds the matched filter, which takes one
multiplication a cycle and is done before the next value comes. -/
namespace TetraBs.Phy
open TetraBs.DelayLine TetraBs.Fir TetraBs.Pacing TetraBs.Requests TetraBs.Run TetraBs.Serial
  TetraBs.Signed

structure RxRrc where
  i : RrcChannel 528 := {}
  q : RrcChannel 528 := {}
  macState : MacState := .idle
  macCnt : BitVec 6 := 0
  macDone : Bool := false
  iOut : BitVec 16 := 0
  qOut : BitVec 16 := 0
  outValid : Bool := false
deriving DecidableEq

namespace RxRrc

def reset : RxRrc := {}

/-- `RRC_TAPS - 1`. -/
def LAST_TAP : BitVec 6 := 32

/-- The coefficient mux. -/
def coeff (macCnt : BitVec 6) : BitVec 16 := rrcH.getD macCnt.toNat 0

def macNext (s : RxRrc) (i : RrcInput) : MacState :=
  match s.macState with
  | .idle => if i.sampleValidIn then .mac else .idle
  | .mac => if s.macCnt = LAST_TAP then .idle else .mac

def channelStep (s : RxRrc) (c : RrcChannel 528) (valid : Bool) (x : BitVec 16) :
    RrcChannel 528 where
  shift := if valid then push c.shift x else c.shift
  acc := if s.macState = .mac then c.accNext s.macCnt.toNat (coeff s.macCnt) else c.acc

def step (s : RxRrc) (i : RrcInput) : RxRrc where
  i := s.channelStep s.i i.sampleValidIn i.iIn
  q := s.channelStep s.q i.sampleValidIn i.qIn
  macState := s.macNext i
  macCnt := if s.macState = .mac then s.macCnt + 1 else 0
  macDone := s.macState = .mac && s.macCnt = LAST_TAP
  iOut := if s.macDone then RrcChannel.sat s.i.acc else s.iOut
  qOut := if s.macDone then RrcChannel.sat s.q.acc else s.qOut
  outValid := s.macDone

/-- What `out_valid_sys` presents after the edge. -/
def presented : Reader RxRrc RrcInput (BitVec 16 × BitVec 16) :=
  ⟨step, fun s i => if (step s i).outValid then [((step s i).iOut, (step s i).qOut)] else []⟩

/-! A value of the decimator. -/

/-- The sum of the taps over the values, newest first. -/
def tapSum (ds : List (BitVec 16)) : ℤ :=
  ∑ k ∈ Finset.range 33, RrcFilter.hTap k * (ds.getD k 0).toInt

def tapOut (hist : List RrcInput) : BitVec 16 × BitVec 16 :=
  (RrcFilter.shaped (tapSum (hist.map RrcInput.iIn)),
    RrcFilter.shaped (tapSum (hist.map RrcInput.qIn)))

/-- The filter seen from its values. -/
def filtered : Reader (List RrcInput) RrcInput (BitVec 16 × BitVec 16) :=
  recalling fun hist => [tapOut hist]

structure Shifted (s : RxRrc) (hist : List RrcInput) : Prop where
  i : Shows s.i.shift (hist.map RrcInput.iIn) 33
  q : Shows s.q.shift (hist.map RrcInput.qIn) 33

structure Idle (hist : List RrcInput) (s : RxRrc) : Prop extends Shifted s hist where
  state : s.macState = .idle
  done : s.macDone = false

def tapAt (k : ℕ) : BitVec 16 := rrcH.getD k 0

structure Summed (hist : List RrcInput) (t : ℕ) (s : RxRrc) : Prop extends Shifted s hist where
  iSum : s.i.Sums tapAt (hist.map RrcInput.iIn) t
  qSum : s.q.Sums tapAt (hist.map RrcInput.qIn) t

/-- The next tap is tap `t`. -/
structure Busy (hist : List RrcInput) (t : ℕ) (s : RxRrc) : Prop extends Summed hist t s where
  state : s.macState = .mac
  cnt : s.macCnt.toNat = t
  done : s.macDone = false

/-- The sum waits to be put out. -/
structure Finished (hist : List RrcInput) (s : RxRrc) : Prop extends Summed hist 33 s where
  state : s.macState = .idle
  done : s.macDone = true

theorem Shifted.keep {s : RxRrc} {hist : List RrcInput} (h : Shifted s hist) {i : RrcInput}
    (hi : i.sampleValidIn = false) : Shifted (s.step i) hist := by
  have hkeep : ∀ c x, (s.channelStep c i.sampleValidIn x).shift = c.shift := by
    intro c x
    rw [channelStep, hi, if_neg Bool.false_ne_true]
  refine ⟨?_, ?_⟩
  · show Shows (s.channelStep s.i i.sampleValidIn i.iIn).shift _ 33
    rw [hkeep]
    exact h.i
  · show Shows (s.channelStep s.q i.sampleValidIn i.qIn).shift _ 33
    rw [hkeep]
    exact h.q

theorem Shifted.take {s : RxRrc} {hist : List RrcInput} (h : Shifted s hist) {i : RrcInput}
    (hi : i.sampleValidIn = true) : Shifted (s.step i) (i :: hist) := by
  have htake : ∀ c x, (s.channelStep c i.sampleValidIn x).shift = push c.shift x := by
    intro c x
    rw [channelStep, if_pos hi]
  refine ⟨?_, ?_⟩
  · show Shows (s.channelStep s.i i.sampleValidIn i.iIn).shift _ 33
    rw [htake]
    exact h.i.push (by decide) i.iIn
  · show Shows (s.channelStep s.q i.sampleValidIn i.qIn).shift _ 33
    rw [htake]
    exact h.q.push (by decide) i.qIn

theorem silent {s : RxRrc} (h : s.macDone = false) (i : RrcInput) : presented.out s i = [] :=
  if_neg (Bool.eq_false_iff.1 h)

theorem done_idle {s : RxRrc} (h : s.macState = .idle) (i : RrcInput) :
    (s.step i).macDone = false := by
  show (decide (s.macState = .mac) && decide (s.macCnt = LAST_TAP)) = false
  rw [h]
  rfl

theorem Idle.wait {hist : List RrcInput} {s : RxRrc} (h : Idle hist s) {i : RrcInput}
    (hi : i.sampleValidIn = false) : Idle hist (s.step i) := by
  refine ⟨h.keep hi, ?_, done_idle h.state i⟩
  show s.macNext i = .idle
  rw [macNext, h.state, hi]
  rfl

theorem Idle.start {hist : List RrcInput} {s : RxRrc} (h : Idle hist s) {i : RrcInput}
    (hi : i.sampleValidIn = true) : Busy (i :: hist) 0 (s.step i) := by
  have hidle : ¬s.macState = .mac := by
    rw [h.state]
    exact MacState.noConfusion
  refine ⟨⟨h.take hi, fun h0 => absurd h0 (Nat.lt_irrefl 0),
    fun h0 => absurd h0 (Nat.lt_irrefl 0)⟩, ?_, ?_, done_idle h.state i⟩
  · show s.macNext i = .mac
    rw [macNext, h.state, hi]
    rfl
  · show (if s.macState = .mac then _ else (0 : BitVec 6)).toNat = 0
    rw [if_neg hidle]
    rfl

/-- The sum grows by a tap. -/
theorem Busy.summed {hist : List RrcInput} {t : ℕ} {s : RxRrc} (h : Busy hist t s) (ht : t < 33)
    {i : RrcInput} (hi : i.sampleValidIn = false) : Summed hist (t + 1) (s.step i) := by
  have hacc : ∀ c x, (s.channelStep c i.sampleValidIn x).acc = c.accNext t (tapAt t) := by
    intro c x
    rw [channelStep, if_pos h.state, coeff, h.cnt]
    rfl
  refine ⟨h.keep hi, fun _ => ?_, fun _ => ?_⟩
  · show (s.channelStep s.i i.sampleValidIn i.iIn).acc.toInt = _
    rw [hacc]
    exact h.iSum.next h.i ht (by decide)
  · show (s.channelStep s.q i.sampleValidIn i.qIn).acc.toInt = _
    rw [hacc]
    exact h.qSum.next h.q ht (by decide)

theorem Busy.next {hist : List RrcInput} {t : ℕ} {s : RxRrc} (h : Busy hist t s) (ht : t < 32)
    {i : RrcInput} (hi : i.sampleValidIn = false) : Busy hist (t + 1) (s.step i) := by
  have hlast : ¬s.macCnt = LAST_TAP := by
    intro heq
    have hcnt := h.cnt
    rw [heq] at hcnt
    exact absurd hcnt (by rw [LAST_TAP]; exact Nat.ne_of_gt ht)
  refine ⟨h.summed (by omega) hi, ?_, ?_, ?_⟩
  · show s.macNext i = .mac
    rw [macNext, h.state]
    exact if_neg hlast
  · show (if s.macState = .mac then s.macCnt + 1 else 0).toNat = t + 1
    rw [if_pos h.state, BitVec.toNat_add, h.cnt]
    exact Nat.mod_eq_of_lt (by show t + 1 < 64; omega)
  · show (decide (s.macState = .mac) && decide (s.macCnt = LAST_TAP)) = false
    rw [decide_eq_false hlast, Bool.and_false]

theorem Busy.last {hist : List RrcInput} {s : RxRrc} (h : Busy hist 32 s) {i : RrcInput}
    (hi : i.sampleValidIn = false) : Finished hist (s.step i) := by
  have hlast : s.macCnt = LAST_TAP := BitVec.eq_of_toNat_eq h.cnt
  refine ⟨h.summed (by decide) hi, ?_, ?_⟩
  · show s.macNext i = .idle
    rw [macNext, h.state]
    exact if_pos hlast
  · show (decide (s.macState = .mac) && decide (s.macCnt = LAST_TAP)) = true
    rw [decide_eq_true h.state, decide_eq_true hlast]
    rfl

theorem Finished.out {hist : List RrcInput} {s : RxRrc} (h : Finished hist s) (i : RrcInput) :
    presented.out s i = [tapOut hist] := by
  have hi : (step s i).iOut = RrcChannel.sat s.i.acc := if_pos h.done
  have hq : (step s i).qOut = RrcChannel.sat s.q.acc := if_pos h.done
  have hout : presented.out s i = [((step s i).iOut, (step s i).qOut)] := if_pos h.done
  rw [hout, hi, hq, RrcChannel.sat_eq, RrcChannel.sat_eq, h.iSum (by decide),
    h.qSum (by decide)]
  rfl

theorem Finished.idle {hist : List RrcInput} {s : RxRrc} (h : Finished hist s) {i : RrcInput}
    (hi : i.sampleValidIn = false) : Idle hist (s.step i) := by
  refine ⟨h.keep hi, ?_, done_idle h.state i⟩
  show s.macNext i = .idle
  rw [macNext, h.state, hi]
  rfl

/-- The taps from `t` on and the output behind them. -/
theorem Busy.pass {hist : List RrcInput} {t : ℕ} {s : RxRrc} (h : Busy hist t s)
    {is : List RrcInput} (hlen : t + is.length = 34) (ht : t ≤ 32)
    (his : ∀ i ∈ is, i.sampleValidIn = false) :
    presented.outputs s is = [tapOut hist] ∧ Idle hist (presented.after s is) := by
  induction is generalizing s t with
  | nil =>
    rw [List.length_nil] at hlen
    omega
  | cons i is ih =>
    rw [List.length_cons] at hlen
    rw [List.forall_mem_cons] at his
    rw [Reader.outputs, Reader.after, silent h.done, List.nil_append]
    by_cases hlast : t = 32
    · rw [hlast] at h
      obtain ⟨j, rfl⟩ : ∃ j, is = [j] := List.length_eq_one_iff.1 (by omega)
      have hend := h.last his.1
      rw [Reader.outputs, Reader.after, show presented.next s i = s.step i from rfl, hend.out]
      exact ⟨rfl, hend.idle (his.2 j List.mem_cons_self)⟩
    · exact ih (h.next (by omega) his.1) (by omega) (by omega) his.2

/-- A value keeps the filter busy for 34 cycles, in which it takes no other one. -/
theorem serves :
    Serves presented (fun i : RrcInput => i.sampleValidIn) 34 filtered Idle where
  idle h hi := ⟨silent h.done _, h.wait hi⟩
  busy {hist s i is} h hi hlen his := by
    obtain ⟨hout, hend⟩ := (h.start hi).pass (by omega) (by decide) his
    rw [Reader.outputs, silent h.done]
    exact ⟨hout, hend⟩

theorem tapSum_reverse {zs : List (BitVec 16)} {z : ℕ → ℤ} {n N : ℕ} (hn : n < N)
    (hz : zs = (List.range N).map fun m => BitVec.ofInt 16 (z m))
    (hfits : ∀ m, Signed.Fits 16 (z m)) :
    tapSum (zs.take (n + 1)).reverse = conv RrcFilter.hTap 33 z n := by
  have hlen : n < (zs.map BitVec.toInt).length := by
    rw [hz, List.length_map, List.length_map, List.length_range]
    exact hn
  have hvalues : ∀ j ≤ n, z j = (zs.map BitVec.toInt).getD j 0 := by
    intro j hj
    rw [hz, List.map_map, List.getD_eq_getElem _ _ (by simp; omega), List.getElem_map,
      List.getElem_range]
    exact (toInt_ofInt (hfits j)).symm
  rw [conv_congr hvalues, conv_reverse _ _ _ hlen, tapSum]
  refine Finset.sum_congr rfl fun k _ => ?_
  have hzero : (0 : ℤ) = (0 : BitVec 16).toInt := rfl
  rw [← List.map_take, ← List.map_reverse, hzero, List.getD_map]

end RxRrc

structure RxFrontend where
  cic : RxCic := {}
  rrc : RxRrc := {}

namespace RxFrontend
variable {loopbackEn : Bool}

def reset : RxFrontend := {}

def step (loopbackEn : Bool) (s : RxFrontend) (i : RxInput) : RxFrontend where
  cic := s.cic.step loopbackEn i
  rrc := s.rrc.step s.cic.shown

def presented (loopbackEn : Bool) : Reader RxFrontend RxInput (BitVec 16 × BitVec 16) :=
  ⟨step loopbackEn, fun s _ => RxRrc.presented.out s.rrc s.cic.shown⟩

theorem outputs_eq (s : RxFrontend) (is : List RxInput) :
    (presented loopbackEn).outputs s is =
      RxRrc.presented.outputs s.rrc (RxCic.stream loopbackEn s.cic is) := by
  induction is generalizing s with
  | nil => rfl
  | cons i is ih =>
    exact congrArg (RxRrc.presented.out s.rrc s.cic.shown ++ ·) (ih (s.step loopbackEn i))

/-! The distances. -/

/-- The filter neither runs nor has a sum to put out. -/
def Free (s : RxFrontend) : Prop := s.rrc.macState = .idle ∧ s.rrc.macDone = false

/-- The counter of the decimator shows how far the filter is. -/
structure Clear (s : RxFrontend) : Prop where
  counts : s.cic.Counts
  strobe : s.cic.cicStrobe = true → Free s
  valid : s.cic.cicValid = true → Free s
  busy : s.rrc.macState = .mac →
    s.rrc.macCnt.toNat ≤ 32 ∧ s.cic.decCnt.toNat ≤ s.rrc.macCnt.toNat + 2
  done : s.rrc.macDone = true → s.cic.decCnt.toNat ≤ 35

theorem clear_reset : Clear reset :=
  ⟨⟨(fun h => nomatch h), (fun h => nomatch h)⟩, (fun h => nomatch h), (fun h => nomatch h),
    (fun h => nomatch h), (fun h => nomatch h)⟩

theorem Free.step {s : RxFrontend} (h : Free s) (hs : s.cic.cicValid = false) (i : RxInput) :
    Free (s.step loopbackEn i) := by
  refine ⟨?_, RxRrc.done_idle h.1 _⟩
  show s.rrc.macNext s.cic.shown = .idle
  rw [RxRrc.macNext, h.1]
  exact if_neg (Bool.eq_false_iff.1 hs)

theorem step_decCnt_le (loopbackEn : Bool) (s : RxFrontend) (i : RxInput) :
    (s.step loopbackEn i).cic.decCnt.toNat ≤ s.cic.decCnt.toNat + 1 := by
  have hcount := RxCic.step_count loopbackEn s.cic i
  have hvalid := Bool.toNat_le i.inValid
  show (s.cic.step loopbackEn i).decCnt.toNat ≤ _
  omega

/-- The filter is long done when the counter comes to its end. -/
theorem Clear.free {s : RxFrontend} (h : Clear s) (hlate : 36 ≤ s.cic.decCnt.toNat) : Free s := by
  constructor
  · cases hm : s.rrc.macState with
    | idle => rfl
    | mac =>
      have := h.busy hm
      omega
  · cases hd : s.rrc.macDone with
    | false => rfl
    | true =>
      have := h.done hd
      omega

theorem Clear.step_strobe {s : RxFrontend} (h : Clear s) (i : RxInput)
    (hs : (s.step loopbackEn i).cic.cicStrobe = true) : Free (s.step loopbackEn i) := by
  have hlast : s.cic.decCnt.toNat = 63 := by
    have hand : (i.inValid && decide (s.cic.decCnt = 63)) = true := hs
    exact congrArg BitVec.toNat (of_decide_eq_true (Bool.and_eq_true_iff.1 hand).2)
  apply (h.free (by omega)).step
  cases hv : s.cic.cicValid with
  | false => rfl
  | true =>
    have := (h.counts.valid hv).2
    omega

theorem Clear.step_valid {s : RxFrontend} (h : Clear s) (i : RxInput)
    (hstrobe : s.cic.cicStrobe = true) : Free (s.step loopbackEn i) := by
  apply (h.strobe hstrobe).step
  cases hv : s.cic.cicValid with
  | false => rfl
  | true =>
    have := (h.counts.valid hv).1
    rw [hstrobe] at this
    cases this

/-- The counter is never more than two cycles ahead of the taps. -/
theorem Clear.step_busy {s : RxFrontend} (h : Clear s) (i : RxInput)
    (hm : (s.step loopbackEn i).rrc.macState = .mac) :
    (s.step loopbackEn i).rrc.macCnt.toNat ≤ 32 ∧
      (s.step loopbackEn i).cic.decCnt.toNat ≤ (s.step loopbackEn i).rrc.macCnt.toNat + 2 := by
  have hle := step_decCnt_le loopbackEn s i
  have hnext : s.rrc.macNext s.cic.shown = .mac := hm
  show (if s.rrc.macState = .mac then s.rrc.macCnt + 1 else 0).toNat ≤ 32 ∧
    (s.step loopbackEn i).cic.decCnt.toNat ≤
      (if s.rrc.macState = .mac then s.rrc.macCnt + 1 else 0).toNat + 2
  cases hs : s.rrc.macState with
  | idle =>
    rw [RxRrc.macNext, hs] at hnext
    have hv : s.cic.cicValid = true := by
      by_contra hno
      exact MacState.noConfusion ((if_neg hno).symm.trans hnext)
    have hone := (h.counts.valid hv).2
    rw [if_neg MacState.noConfusion]
    exact ⟨Nat.zero_le _, hle.trans (Nat.succ_le_succ hone)⟩
  | mac =>
    rw [RxRrc.macNext, hs] at hnext
    obtain ⟨hcnt, hdec⟩ := h.busy hs
    have hlast : s.rrc.macCnt.toNat ≠ 32 := by
      intro heq
      have hcnt32 : s.rrc.macCnt = RxRrc.LAST_TAP := BitVec.eq_of_toNat_eq heq
      exact MacState.noConfusion ((if_pos hcnt32).symm.trans hnext)
    have hadd : (s.rrc.macCnt + 1).toNat = s.rrc.macCnt.toNat + 1 := by
      rw [BitVec.toNat_add]
      exact Nat.mod_eq_of_lt (by show s.rrc.macCnt.toNat + 1 < 64; omega)
    rw [if_pos rfl, hadd]
    exact ⟨by omega, by omega⟩

theorem Clear.step_done {s : RxFrontend} (h : Clear s) (i : RxInput)
    (hd : (s.step loopbackEn i).rrc.macDone = true) :
    (s.step loopbackEn i).cic.decCnt.toNat ≤ 35 := by
  have hle := step_decCnt_le loopbackEn s i
  have hand : (decide (s.rrc.macState = .mac) && decide (s.rrc.macCnt = RxRrc.LAST_TAP)) =
      true := hd
  obtain ⟨-, hdec⟩ := h.busy (of_decide_eq_true (Bool.and_eq_true_iff.1 hand).1)
  have hcnt : s.rrc.macCnt.toNat = 32 :=
    congrArg BitVec.toNat (of_decide_eq_true (Bool.and_eq_true_iff.1 hand).2)
  omega

theorem Clear.step {s : RxFrontend} (h : Clear s) (i : RxInput) : Clear (s.step loopbackEn i) where
  counts := h.counts.step i
  strobe := h.step_strobe i
  valid := h.step_valid i
  busy := h.step_busy i
  done := h.step_done i

theorem clear_run (is : List RxInput) : Clear ((presented loopbackEn).after reset is) := by
  rw [Reader.after_eq_exec]
  exact exec_invariant Clear (fun s i h _ => h.step i) clear_reset (along_true _ reset is)

/-! The outputs. -/

/-- The filter on the values of the decimator. -/
noncomputable def reference (loopbackEn : Bool) (xs : List (BitVec 16)) (n : ℕ) : BitVec 16 :=
  RrcFilter.shaped (conv RrcFilter.hTap 33 (RxCic.result loopbackEn xs) n)

/-- One output for every 64 samples. -/
noncomputable def references (loopbackEn : Bool) (is : List RxInput) :
    List (BitVec 16 × BitVec 16) :=
  let ws := is.filter (·.inValid)
  (List.range (ws.length / 64)).map fun n =>
    (reference loopbackEn (ws.map RxInput.iFifo) n, reference loopbackEn (ws.map RxInput.qFifo) n)

theorem filtered_eq {ws : List RxInput} {sent : List RrcInput} {N : ℕ}
    (h : sent = (List.range N).map (RxCic.resultInput loopbackEn ws)) :
    RxRrc.filtered.outputs [] sent = (List.range N).map fun n =>
      (reference loopbackEn (ws.map RxInput.iFifo) n,
        reference loopbackEn (ws.map RxInput.qFifo) n) := by
  have hi : sent.map RrcInput.iIn = (List.range N).map fun m =>
      BitVec.ofInt 16 (RxCic.result loopbackEn (ws.map RxInput.iFifo) m) := by
    rw [h, List.map_map]
    rfl
  have hq : sent.map RrcInput.qIn = (List.range N).map fun m =>
      BitVec.ofInt 16 (RxCic.result loopbackEn (ws.map RxInput.qFifo) m) := by
    rw [h, List.map_map]
    rfl
  have hlen : sent.length = N := by rw [h, List.length_map, List.length_range]
  rw [RxRrc.filtered, recalling_outputs, hlen, ← List.map_eq_flatMap]
  refine List.map_congr_left fun n hn => ?_
  have hn' := List.mem_range.1 hn
  rw [RxRrc.tapOut, List.map_reverse, List.map_take, List.map_reverse, List.map_take,
    RxRrc.tapSum_reverse hn' hi fun m => RxCic.result_fits _ m,
    RxRrc.tapSum_reverse hn' hq fun m => RxCic.result_fits _ m]
  rfl

theorem outputs_quiet (loopbackEn : Bool) (is : List RxInput) {quiet : List RxInput}
    (hquiet : ∀ i ∈ quiet, i.inValid = false) (hlen : 36 ≤ quiet.length) :
    (presented loopbackEn).outputs reset (is ++ quiet) = references loopbackEn is := by
  rcases quiet with _ | ⟨a, _ | ⟨b, rest⟩⟩
  · exact absurd hlen (by decide)
  · exact absurd hlen (by rw [List.length_singleton]; decide)
  rw [List.forall_mem_cons, List.forall_mem_cons] at hquiet
  obtain ⟨ha, hb, hrest⟩ := hquiet
  have hsplit : is ++ a :: b :: rest = (is ++ [a] ++ [b]) ++ rest := by
    rw [List.append_assoc, List.append_assoc]
    rfl
  obtain ⟨hstrobe, hvalid⟩ := RxCic.settled loopbackEn is ha hb
  have hready : RxRrc.Idle [] RxRrc.reset := ⟨⟨shows_nil 33, shows_nil 33⟩, rfl, rfl⟩
  have hapart := RxCic.stream_apart loopbackEn clear_reset.counts (is ++ [a] ++ [b])
  have hrestLen : 34 ≤ (RxCic.stream loopbackEn
      ((RxCic.presented loopbackEn).after RxCic.reset (is ++ [a] ++ [b])) rest).length := by
    rw [List.length_cons, List.length_cons] at hlen
    rw [RxCic.stream_length]
    omega
  obtain ⟨hout, -⟩ := RxRrc.serves.outputs hready (hapart.mono (by decide))
    (RxCic.stream_idle hstrobe hvalid hrest) hrestLen
  rw [hsplit, outputs_eq, RxCic.stream_append]
  refine hout.trans ?_
  rw [RxCic.stream_filter]
  exact filtered_eq (RxCic.outputs_settled loopbackEn is ha hb)

/-- Whatever the distances of the samples, the outputs are those of the filter on the decimated
sums, and no sum is cut short by the next value. -/
theorem outputs_eq_references (loopbackEn : Bool) (is : List RxInput) :
    (presented loopbackEn).outputs reset is <+: references loopbackEn is ∧
      (∀ quiet : List RxInput, (∀ i ∈ quiet, i.inValid = false) → 36 ≤ quiet.length →
        (presented loopbackEn).outputs reset (is ++ quiet) = references loopbackEn is) ∧
      ∀ pre, pre <+: is → ((presented loopbackEn).after reset pre).cic.cicValid = true →
        Free ((presented loopbackEn).after reset pre) := by
  have hquiet : ∀ i ∈ List.replicate 36 (⟨0, 0, false⟩ : RxInput), i.inValid = false :=
    fun i hi => by rw [List.eq_of_mem_replicate hi]
  refine ⟨?_, fun quiet hq hlen => outputs_quiet loopbackEn is hq hlen,
    fun pre _ => (clear_run pre).valid⟩
  rw [← outputs_quiet loopbackEn is hquiet (by rw [List.length_replicate])]
  exact (presented loopbackEn).outputs_mono reset (List.prefix_append is _)

/-- The loudest block, without a pause. -/
def loudBlock : List RxInput := List.replicate 64 ⟨32767, -32768, true⟩

theorem outputs_eq_references_loudBlock :
    (presented false).outputs reset (loudBlock ++ List.replicate 36 ⟨0, 0, false⟩) =
      references false loudBlock :=
  (outputs_eq_references false loudBlock).2.1 _
    (fun i hi => by rw [List.eq_of_mem_replicate hi]) (by rw [List.length_replicate])

end RxFrontend
end TetraBs.Phy
