import Mathlib.Order.Bounds.Defs
import TetraBs.Lib.Run
import TetraBs.Phy.UlTiming

/-! `tetra_ul_burst_capture` on its own: an accepted pulse brings out the 86 samples around its
anchor, whatever the samples, the gaps between them and the other pulses. -/
namespace TetraBs.Phy
open TetraBs.History TetraBs.Run

structure CaptureInput where
  iq : IqSample
  valid : Bool
  syncFound : Bool
  bestPhase : BitVec 2

/-- A sample on the output, with its marks. -/
structure BurstSample where
  iq : IqSample
  first : Bool
  last : Bool
  half : Bool

def CaptureInput.sample (i : CaptureInput) : Option IqSample := if i.valid then some i.iq else none

namespace UlBurstCapture

/-- The state before cycle `t`. -/
def run (ring : BitVec 9 → IqSample) (inp : Nat → CaptureInput) (t : Nat) : UlBurstCapture :=
  clocked (fun _ s i => step s i.iq i.valid i.syncFound i.bestPhase) (reset ring) inp t

/-- The samples before cycle `t`. -/
def written (inp : Nat → CaptureInput) (t : Nat) : List IqSample := taken CaptureInput.sample inp t

/-- The pulse of cycle `c` starts a burst. -/
def Accepts (ring : BitVec 9 → IqSample) (inp : Nat → CaptureInput) (c : Nat) : Prop :=
  (inp c).syncFound = true ∧ (run ring inp c).state = .idle

def shown (s : UlBurstCapture) : Option BurstSample :=
  if s.iqValid then some ⟨s.iqOut, s.iqFirst, s.iqLast, s.iqHalf⟩ else none

/-- What the first `m` cycles of the burst of cycle `c` bring out. The output of cycle `c + 1` was
read before the pulse. -/
def burst (ring : BitVec 9 → IqSample) (inp : Nat → CaptureInput) (c m : Nat) : List BurstSample :=
  taken shown (fun v => run ring inp (c + 2 + v)) m

/-- The number of the `k`-th sample of a burst with the anchor `a`. -/
def place (a k : Nat) : Nat :=
  if k < HALF_SYMS then a - CB1_PRE_SMP + SPS * k else a + SPS * (k - HALF_SYMS)

/-- The `k`-th sample of the burst, as it is to come out. -/
def marked (xs : List IqSample) (a k : Nat) : Option BurstSample :=
  xs[place a k]?.map fun x =>
    ⟨x, k = 0 ∨ k = HALF_SYMS, k = 2 * HALF_SYMS - 1, HALF_SYMS ≤ k⟩

/-- The first `k` samples of the burst. -/
def window (xs : List IqSample) (a k : Nat) : List (Option BurstSample) :=
  (List.range k).map (marked xs a)

section
variable (xs : List IqSample) (a : Nat)

theorem window_succ (k : Nat) : window xs a (k + 1) = window xs a k ++ [marked xs a k] := by
  rw [window, List.range_succ, List.map_append]
  rfl

theorem window_length (k : Nat) : (window xs a k).length = k := by
  rw [window, List.length_map, List.length_range]

theorem window_grows {j k : Nat} (h : j ≤ k) : window xs a j <+: window xs a k := by
  induction k, h using Nat.le_induction with
  | base => exact List.prefix_rfl
  | succ k _ ih =>
    rw [window_succ]
    exact ih.trans (List.prefix_append _ _)

end

theorem place_offset {a : Nat} (ha : CB1_PRE_SMP ≤ a) (k : Nat) :
    (a : Int) + offset k = (place a k : Nat) := by
  have hpre : CB1_PRE_SMP = 228 := rfl
  have hsps : SPS = 4 := rfl
  rw [hpre] at ha
  rw [offset, place, hpre, hsps]
  by_cases hk : k < HALF_SYMS
  · rw [if_pos hk, if_pos hk]
    omega
  · rw [if_neg hk, if_neg hk]
    omega

section
variable (ring : BitVec 9 → IqSample) (inp : Nat → CaptureInput)

theorem run_recording (t : Nat) : Recording (written inp t) (run ring inp t) := by
  induction t with
  | zero => exact recording_reset ring
  | succ t ih =>
    have hstep := ih.step (inp t).iq (inp t).valid (inp t).syncFound (inp t).bestPhase
    have hnext : written inp (t + 1) =
        if (inp t).valid then written inp t ++ [(inp t).iq] else written inp t := by
      rw [written, taken_succ, CaptureInput.sample]
      cases (inp t).valid with
      | true => rfl
      | false => exact List.append_nil _
    rw [hnext]
    exact hstep

theorem written_length_succ (t : Nat) : (written inp (t + 1)).length =
    if (inp t).valid then (written inp t).length + 1 else (written inp t).length := by
  rw [written, taken_succ, CaptureInput.sample, List.length_append]
  cases (inp t).valid with
  | true => rfl
  | false => rfl

end

/-! What a step does to the state, and what it does not touch. -/

section
variable {s : UlBurstCapture} (iq : IqSample) (valid syncFound : Bool) (bestPhase : BitVec 2)

theorem idle_step (h : s.state = .idle) : (step s iq valid syncFound bestPhase).rdEn = false ∧
    (syncFound = false → (step s iq valid syncFound bestPhase).state = .idle) := by
  rw [step, h]
  cases syncFound with
  | false => exact ⟨rfl, fun _ => h⟩
  | true => exact ⟨rfl, fun hno => Bool.noConfusion hno⟩

theorem waitPost_step (h : s.state = .waitPost) :
    (step s iq valid syncFound bestPhase).rdEn = false ∧
      ((step s iq valid syncFound bestPhase).state = .waitPost ∨
        (step s iq valid syncFound bestPhase).state = .streamCb1) := by
  rw [step, h]
  dsimp only
  cases valid with
  | false => exact ⟨rfl, .inl h⟩
  | true =>
    by_cases hlast : s.postCnt ≤ 1
    · rw [if_pos rfl, if_pos hlast]
      exact ⟨rfl, .inr rfl⟩
    · rw [if_pos rfl, if_neg hlast]
      exact ⟨rfl, .inl h⟩

theorem Streaming.last {a : BitVec 9} (h : Streaming a (2 * HALF_SYMS - 1) s) :
    (UlBurstCapture.step s iq valid syncFound bestPhase).state = .idle := by
  have hstate : s.state = .streamCb2 := h.state
  have hidx : s.streamIdx = HALF_SYMS - 1 := h.streamIdx
  rw [UlBurstCapture.step, hstate]
  exact if_pos hidx

end

/-- Of the addresses of a burst, `k` have been issued, the last of them a cycle ago. -/
def Behind (a : BitVec 9) : Nat → UlBurstCapture → Prop
  | 0, s => s.rdEn = false
  | k + 1, s => Issued a k s

/-- The anchor is one of the last four samples before the pulse, and the burst begins after the
start of the recording. -/
structure Anchor (inp : Nat → CaptureInput) (c a : Nat) : Prop where
  lt : a < (written inp c).length
  near : (written inp c).length ≤ a + SPS
  full : CB1_PRE_SMP + SPS ≤ (written inp c).length

section
variable (ring : BitVec 9 → IqSample) (inp : Nat → CaptureInput) (c a : Nat) (xs : List IqSample)

/-- `m` cycles after the pulse the capture waits, with `n` samples since. -/
structure Waits (m n : Nat) : Prop where
  waiting : Waiting (BitVec.ofNat 9 a) n (run ring inp (c + 1 + m))
  rdEn : (run ring inp (c + 1 + m)).rdEn = false
  count : (written inp (c + 1 + m)).length = (written inp (c + 1)).length + n
  out : burst ring inp c m = []

/-- `m` cycles after the pulse `k` addresses are out. -/
structure Issues (m k : Nat) : Prop where
  behind : Behind (BitVec.ofNat 9 a) k (run ring inp (c + 1 + m))
  low : (written inp (c + 1)).length + POST_WAIT_SMP ≤ (written inp (c + 1 + m)).length
  high : (written inp (c + 1 + m)).length ≤ (written inp (c + 1)).length + POST_WAIT_SMP + k
  out : (burst ring inp c m).map some = window xs a (k - 1)

/-- How far the burst is `m` cycles after the pulse, from the end of the wait on. -/
inductive Progress (m : Nat) : Nat → Prop
  | streaming {k : Nat} : k < 2 * HALF_SYMS →
      Streaming (BitVec.ofNat 9 a) k (run ring inp (c + 1 + m)) →
      Issues ring inp c a xs m k → Progress m k
  | issued : (run ring inp (c + 1 + m)).state = .idle →
      Issues ring inp c a xs m (2 * HALF_SYMS) → Progress m (2 * HALF_SYMS)
  | done : window xs a (2 * HALF_SYMS) <+: (burst ring inp c m).map some →
      ((∀ v, c < v → v < c + 1 + m → ¬ Accepts ring inp v) →
        (run ring inp (c + 1 + m)).state = .idle ∧ (run ring inp (c + 1 + m)).rdEn = false ∧
          (burst ring inp c m).length = 2 * HALF_SYMS) → Progress m (2 * HALF_SYMS + 1)

end

section
variable {ring : BitVec 9 → IqSample} {inp : Nat → CaptureInput} {c a m n k : Nat}
  {xs : List IqSample}

theorem burst_succ (m : Nat) : burst ring inp c (m + 1) =
    burst ring inp c m ++ (shown (run ring inp (c + 1 + m + 1))).toList := by
  rw [burst, taken_succ, ← burst, (by omega : c + 2 + m = c + 1 + m + 1)]

theorem shown_of_rdEn {t : Nat} (h : (run ring inp t).rdEn = false) :
    shown (run ring inp (t + 1)) = none := by
  have hvalid : (run ring inp (t + 1)).iqValid = false :=
    (step_tick (run ring inp t) _ _ _ _).2.2.2.2.1.trans h
  rw [shown, hvalid]
  exact if_neg Bool.false_ne_true

/-- A sample of the window is in the ring from the end of the wait until it is read. -/
theorem Anchor.span (ha : Anchor inp c a) (hk : k < 2 * HALF_SYMS)
    (hlow : (written inp (c + 1)).length + POST_WAIT_SMP ≤ n)
    (hhigh : n ≤ (written inp (c + 1)).length + POST_WAIT_SMP + (k + 1)) :
    place a k < n ∧ n ≤ place a k + 2 ^ 9 := by
  obtain ⟨hlt, hnear, hfull⟩ := ha
  have hsucc := written_length_succ inp c
  simp only [POST_WAIT_SMP, SPS, CB1_PRE_SMP, HALF_SYMS] at *
  have hone : (written inp c).length ≤ (written inp (c + 1)).length ∧
      (written inp (c + 1)).length ≤ (written inp c).length + 1 := by
    rw [hsucc]
    split <;> omega
  have hplace : place a k = if k < 43 then a - 228 + 4 * k else a + 4 * (k - 43) := rfl
  rw [hplace]
  by_cases hhalf : k < 43
  · rw [if_pos hhalf]
    omega
  · rw [if_neg hhalf]
    omega

theorem Presents.shown {s : UlBurstCapture} {x : IqSample} (h : Presents x k s) :
    UlBurstCapture.shown s = some ⟨x, decide (k = 0 ∨ k = HALF_SYMS),
      decide (k = 2 * HALF_SYMS - 1), decide (HALF_SYMS ≤ k)⟩ := by
  rw [UlBurstCapture.shown, if_pos h.iqValid, h.iqOut, h.iqFirst, h.iqLast, h.iqHalf]

/-- What was issued comes out. -/
theorem Issues.shown_step (h : Issues ring inp c a xs m k) (ha : Anchor inp c a)
    (hk : k ≤ 2 * HALF_SYMS) (hxs : written inp (c + 1 + m) <+: xs) :
    (burst ring inp c (m + 1)).map some = window xs a k := by
  have hout := h.out
  rw [burst_succ, List.map_append]
  cases k with
  | zero =>
    rw [shown_of_rdEn h.behind, hout]
    rfl
  | succ k =>
    obtain ⟨hlt, hspan⟩ := ha.span (by omega) h.low h.high
    have hissued : Issued (BitVec.ofNat 9 a) k (run ring inp (c + 1 + m)) := h.behind
    have hread := hissued.step (inp (c + 1 + m)).iq (inp (c + 1 + m)).valid
      (inp (c + 1 + m)).syncFound (inp (c + 1 + m)).bestPhase
    have hpre : CB1_PRE_SMP ≤ a := by
      have hnear := ha.near
      have hfull := ha.full
      omega
    have haddr : BitVec.ofNat 9 a + BitVec.ofInt 9 (offset k) = BitVec.ofNat 9 (place a k) := by
      rw [← BitVec.ofInt_natCast, ← BitVec.ofInt_natCast, ← BitVec.ofInt_add, place_offset hpre]
    have hring := (run_recording ring inp (c + 1 + m)).ring (place a k) hlt hspan
    have hsame : xs[place a k]? = some (written inp (c + 1 + m))[place a k] := by
      rw [hxs.getElem hlt]
      exact List.getElem?_eq_getElem _
    have hshown : shown (run ring inp (c + 1 + m + 1)) = marked xs a k := by
      rw [marked, hsame, ← hring, ← haddr]
      exact hread.shown
    have hsome : ∃ x, marked xs a k = some x := by
      rw [marked, hsame]
      exact ⟨_, rfl⟩
    obtain ⟨x, hx⟩ := hsome
    rw [hshown, hout, window_succ, hx]
    rfl

theorem written_mono (t k : Nat) : (written inp t).length ≤ (written inp (t + k)).length :=
  (taken_grows CaptureInput.sample inp (Nat.le_add_right t k)).length_le

/-- The wait goes on, or the first streaming state begins with the last sample of the wait. -/
theorem Waits.step (h : Waits ring inp c a m n) :
    (∃ n', Waits ring inp c a (m + 1) n') ∨ Progress ring inp c a xs (m + 1) 0 := by
  obtain ⟨hstay, hgo⟩ := h.waiting.step (inp (c + 1 + m)).iq (inp (c + 1 + m)).valid
    (inp (c + 1 + m)).syncFound (inp (c + 1 + m)).bestPhase
  obtain ⟨hrd, hnext⟩ := waitPost_step (inp (c + 1 + m)).iq (inp (c + 1 + m)).valid
    (inp (c + 1 + m)).syncFound (inp (c + 1 + m)).bestPhase h.waiting.state
  have hcount : (written inp (c + 1 + (m + 1))).length = (written inp (c + 1)).length +
      if (inp (c + 1 + m)).valid then n + 1 else n := by
    rw [← Nat.add_assoc, written_length_succ, h.count]
    cases (inp (c + 1 + m)).valid with
    | true => rfl
    | false => rfl
  have hout : burst ring inp c (m + 1) = [] := by
    rw [burst_succ, shown_of_rdEn h.rdEn, h.out]
    rfl
  rcases hnext with hwait | hstream
  · exact .inl ⟨_, hstay hwait, hrd, hcount, hout⟩
  · obtain ⟨hfirst, hlast⟩ := hgo hstream
    rw [hlast] at hcount
    exact .inr (.streaming (by decide) hfirst
      ⟨hrd, Nat.le_of_eq hcount.symm, Nat.le_of_eq hcount, by rw [hout]; rfl⟩)

theorem syncFound_eq_false {t : Nat} (hidle : (run ring inp t).state = .idle)
    (hno : ¬ Accepts ring inp t) : (inp t).syncFound = false :=
  Bool.eq_false_iff.2 fun hfound => hno ⟨hfound, hidle⟩

/-- One stage on, or the last one still. -/
theorem Progress.step (h : Progress ring inp c a xs m k) (ha : Anchor inp c a)
    (hxs : written inp (c + 1 + m) <+: xs) : ∃ k', Progress ring inp c a xs (m + 1) k' ∧
      min (k + 1) (2 * HALF_SYMS + 1) ≤ k' := by
  cases h with
  | streaming hk hstream hissues =>
    have hout := hissues.shown_step ha (Nat.le_of_lt hk) hxs
    obtain ⟨hissued, hnext⟩ := hstream.step (inp (c + 1 + m)).iq (inp (c + 1 + m)).valid
      (inp (c + 1 + m)).syncFound (inp (c + 1 + m)).bestPhase hk
    have hnew : Issues ring inp c a xs (m + 1) (k + 1) := by
      refine ⟨hissued, hissues.low.trans (written_mono _ 1), ?_, hout⟩
      have hone := taken_length_succ CaptureInput.sample inp (c + 1 + m)
      exact hone.trans (Nat.succ_le_succ hissues.high)
    by_cases hlast : k + 1 < 2 * HALF_SYMS
    · exact ⟨k + 1, .streaming hlast (hnext hlast) hnew, Nat.min_le_left _ _⟩
    · have hkeq : k = 2 * HALF_SYMS - 1 := by omega
      subst hkeq
      exact ⟨_, .issued (hstream.last _ _ _ _) hnew, Nat.min_le_left _ _⟩
  | issued hidle hissues =>
    have hout := hissues.shown_step ha (Nat.le_refl _) hxs
    obtain ⟨hrd, hstay⟩ := idle_step (inp (c + 1 + m)).iq (inp (c + 1 + m)).valid
      (inp (c + 1 + m)).syncFound (inp (c + 1 + m)).bestPhase hidle
    refine ⟨_, .done ⟨[], by rw [hout, List.append_nil]⟩ fun hno => ⟨hstay ?_, hrd, ?_⟩,
      Nat.min_le_right _ _⟩
    · exact syncFound_eq_false hidle (hno (c + 1 + m) (by omega) (by omega))
    · rw [← List.length_map some, hout, window_length]
  | done hout hquiet =>
    refine ⟨_, .done ?_ fun hno => ?_, Nat.min_le_right _ _⟩
    · rw [burst_succ, List.map_append]
      exact hout.trans (List.prefix_append _ _)
    · obtain ⟨hidle, hrd, hlen⟩ := hquiet fun v hv hvm => hno v hv (by omega)
      obtain ⟨hrd', hstay⟩ := idle_step (inp (c + 1 + m)).iq (inp (c + 1 + m)).valid
        (inp (c + 1 + m)).syncFound (inp (c + 1 + m)).bestPhase hidle
      refine ⟨hstay ?_, hrd', ?_⟩
      · exact syncFound_eq_false hidle (hno (c + 1 + m) (by omega) (by omega))
      · rw [burst_succ, shown_of_rdEn hrd, Option.toList_none, List.append_nil]
        exact hlen

/-- The anchor is the newest sample of the winning phase. -/
theorem anchor_of_isGreatest (hfull : CB1_PRE_SMP + SPS ≤ (written inp c).length)
    (ha : IsGreatest {b | b < (written inp c).length ∧ b % SPS = (inp c).bestPhase.toNat} a) :
    Anchor inp c a := by
  obtain ⟨⟨hlt, hphase⟩, hmax⟩ := ha
  refine ⟨hlt, ?_, hfull⟩
  by_contra hfar
  have hnext : a + SPS ≤ a := hmax ⟨by omega, by rw [Nat.add_mod_right, hphase]⟩
  simp only [SPS] at hnext
  omega

theorem anchorCalc_eq {s : UlBurstCapture} (hs : Recording (written inp c) s)
    (ha : Anchor inp c a) (hphase : a % SPS = (inp c).bestPhase.toNat) :
    anchorCalc s (inp c).bestPhase = BitVec.ofNat 9 a := by
  have hlt := ha.lt
  have hnear := ha.near
  have hfull := ha.full
  simp only [SPS] at hphase hnear
  obtain ⟨n, hn⟩ : ∃ n, (written inp c).length = n + 1 := ⟨(written inp c).length - 1, by omega⟩
  rw [hn] at hlt hnear
  have hvalue : (n - (n - (inp c).bestPhase.toNat : Int) % 4) = (a : Int) := by omega
  rw [anchorCalc, delta, hs.wp, hs.phaseCnt, hn, anchor_value, hvalue, BitVec.ofInt_natCast]

theorem Accepts.waits (h : Accepts ring inp c) (ha : Anchor inp c a)
    (hphase : a % SPS = (inp c).bestPhase.toNat) : Waits ring inp c a 0 0 := by
  obtain ⟨hfound, hidle⟩ := h
  have hstart := waiting_accept (inp c).iq (inp c).valid (inp c).bestPhase hidle
  rw [anchorCalc_eq (run_recording ring inp c) ha hphase, ← hfound] at hstart
  exact ⟨hstart, (idle_step (inp c).iq (inp c).valid (inp c).syncFound (inp c).bestPhase hidle).1,
    rfl, rfl⟩

/-- The wait, or a later stage, after any number of cycles. -/
theorem progress_run (h : Waits ring inp c a 0 0) (ha : Anchor inp c a)
    (hxs : written inp (c + 1 + m) <+: xs) :
    (∃ n, Waits ring inp c a m n) ∨ ∃ k, Progress ring inp c a xs m k := by
  induction m with
  | zero => exact .inl ⟨0, h⟩
  | succ m ih =>
    have hxs' : written inp (c + 1 + m) <+: xs :=
      (taken_grows CaptureInput.sample inp (Nat.le_succ (c + 1 + m))).trans hxs
    rcases ih hxs' with ⟨n, hwait⟩ | ⟨k, hprog⟩
    · exact hwait.step.imp id fun hfirst => ⟨0, hfirst⟩
    · obtain ⟨k', hnext, -⟩ := hprog.step ha hxs'
      exact .inr ⟨k', hnext⟩

/-- After the wait every cycle counts. -/
theorem Progress.run (h : Progress ring inp c a xs m k) (ha : Anchor inp c a) {j : Nat}
    (hxs : written inp (c + 1 + (m + j)) <+: xs) :
    ∃ k', Progress ring inp c a xs (m + j) k' ∧ min (k + j) (2 * HALF_SYMS + 1) ≤ k' := by
  induction j with
  | zero => exact ⟨k, h, Nat.min_le_left _ _⟩
  | succ j ih =>
    have hxs' : written inp (c + 1 + (m + j)) <+: xs :=
      (taken_grows CaptureInput.sample inp (Nat.le_succ (c + 1 + (m + j)))).trans hxs
    obtain ⟨k', hprog, hle⟩ := ih hxs'
    obtain ⟨k'', hnext, hle'⟩ := hprog.step ha hxs'
    exact ⟨k'', hnext, by omega⟩

theorem Waits.lt (h : Waits ring inp c a m n) : n < POST_WAIT_SMP := by
  have hcnt := h.waiting.postCnt
  have hpos := h.waiting.pos
  omega

/-- The rest of the burst takes 87 cycles from the end of the wait. -/
theorem complete_of_waited (h : Waits ring inp c a 0 0) (ha : Anchor inp c a) {u : Nat}
    (hu : (written inp (c + 1)).length + POST_WAIT_SMP ≤ (written inp (c + 1 + u)).length)
    (hm : u + (2 * HALF_SYMS + 1) ≤ m) (hxs : written inp (c + 1 + m) <+: xs) :
    window xs a (2 * HALF_SYMS) <+: (burst ring inp c m).map some := by
  obtain ⟨j, rfl⟩ := Nat.exists_eq_add_of_le (Nat.le_trans (Nat.le_add_right _ _) hm)
  have hxs' : written inp (c + 1 + u) <+: xs :=
    (taken_grows CaptureInput.sample inp (by omega)).trans hxs
  rcases progress_run h ha hxs' with ⟨n, hwait⟩ | ⟨k, hprog⟩
  · have hlt := hwait.lt
    have hcount := hwait.count
    omega
  · obtain ⟨k', hlast, hle⟩ := hprog.run ha hxs
    cases hlast with
    | streaming hk _ _ => omega
    | issued _ _ => omega
    | done hout _ => exact hout

theorem take_map_window {l : List BurstSample}
    (h : l.map some <+: window xs a (2 * HALF_SYMS) ∨ window xs a (2 * HALF_SYMS) <+: l.map some) :
    (l.take (2 * HALF_SYMS)).map some <+: window xs a (2 * HALF_SYMS) := by
  rw [List.map_take]
  rcases h with hshort | hlong
  · exact (List.take_prefix _ _).trans hshort
  · have htake := List.prefix_iff_eq_take.1 hlong
    rw [window_length] at htake
    exact ⟨[], by rw [← htake, List.append_nil]⟩

/-- What has come out agrees with the window as far as both go. -/
theorem Progress.out (h : Progress ring inp c a xs m k) :
    (burst ring inp c m).map some <+: window xs a (2 * HALF_SYMS) ∨
      window xs a (2 * HALF_SYMS) <+: (burst ring inp c m).map some := by
  cases h with
  | streaming hk _ hissues =>
    rw [hissues.out]
    exact .inl (window_grows xs a (by omega))
  | issued _ hissues =>
    rw [hissues.out]
    exact .inl (window_grows xs a (by omega))
  | done hout _ => exact .inr hout

/-- No more than the window comes out until a cycle after the next pulse that is accepted. -/
theorem Progress.length_le (h : Progress ring inp c a xs m k) (ha : Anchor inp c a)
    (hxs : written inp (c + 1 + m) <+: xs)
    (hno : ∀ v, c < v → v < c + 1 + m → ¬ Accepts ring inp v) :
    (burst ring inp c (m + 1)).length ≤ 2 * HALF_SYMS := by
  cases h with
  | streaming hk _ hissues =>
    rw [← List.length_map some, hissues.shown_step ha (Nat.le_of_lt hk) hxs, window_length]
    exact Nat.le_of_lt hk
  | issued _ hissues =>
    rw [← List.length_map some, hissues.shown_step ha (Nat.le_refl _) hxs, window_length]
  | done _ hquiet =>
    obtain ⟨-, hrd, hlen⟩ := hquiet hno
    rw [burst_succ, shown_of_rdEn hrd, Option.toList_none, List.append_nil, hlen]

end

section
variable (ring : BitVec 9 → IqSample) (inp : Nat → CaptureInput) {c a : Nat}

/-- A pulse that is accepted after 232 samples or more brings out the 86 samples around the newest
sample before it that has the winning phase, in order and with their marks: all of them when the
samples of the wait have come and 87 cycles have passed, and nothing else before a cycle has passed
after the next pulse that is accepted. -/
theorem burst_is_window (h : Accepts ring inp c) (hfull : 232 ≤ (written inp c).length)
    (ha : IsGreatest {b | b < (written inp c).length ∧ b % 4 = (inp c).bestPhase.toNat} a) :
    (∀ m, ((burst ring inp c m).take 86).map some <+: window (written inp (c + 1 + m)) a 86) ∧
      (∀ u m, (written inp (c + 1)).length + 172 ≤ (written inp (c + 1 + u)).length → u + 87 ≤ m →
        ((burst ring inp c m).take 86).map some = window (written inp (c + 1 + m)) a 86) ∧
      ∀ m, (∀ v, c < v → v < c + m → ¬ Accepts ring inp v) →
        (burst ring inp c m).length ≤ 86 := by
  have hanchor := anchor_of_isGreatest hfull ha
  have hwaits := h.waits hanchor ha.1.2
  refine ⟨fun m => ?_, fun u m hu hm => ?_, fun m hno => ?_⟩
  · rcases progress_run (m := m) hwaits hanchor List.prefix_rfl with ⟨n, hwait⟩ | ⟨k, hprog⟩
    · rw [hwait.out]
      exact List.nil_prefix
    · exact take_map_window hprog.out
  · have hall := complete_of_waited (m := m) hwaits hanchor hu hm List.prefix_rfl
    have htake := List.prefix_iff_eq_take.1 hall
    rw [window_length] at htake
    rw [List.map_take]
    exact htake.symm
  · cases m with
    | zero => exact Nat.zero_le _
    | succ m =>
      rcases progress_run (m := m) hwaits hanchor List.prefix_rfl with ⟨n, hwait⟩ | ⟨k, hprog⟩
      · rw [burst_succ, shown_of_rdEn hwait.rdEn, hwait.out]
        exact Nat.zero_le _
      · exact hprog.length_le hanchor List.prefix_rfl fun v hv hvm => hno v hv (by omega)

variable {ring inp} in
theorem idle_of_quiet {t : Nat} (hquiet : ∀ v < t, (inp v).syncFound = false) :
    (run ring inp t).state = .idle := by
  induction t with
  | zero => rfl
  | succ t ih =>
    have hidle := ih fun v hv => hquiet v (Nat.lt_succ_of_lt hv)
    exact (idle_step _ _ _ _ hidle).2 (hquiet t (Nat.lt_succ_self t))

end

/-- A sample in every cycle, and one pulse after the ring has wrapped around. -/
def everyCycle (t : Nat) : CaptureInput := ⟨⟨(t % 1024 : Nat), 0⟩, true, t = 1000, 2⟩

theorem written_everyCycle (t : Nat) : (written everyCycle t).length = t := by
  induction t with
  | zero => rfl
  | succ t ih => rw [written_length_succ, ih, everyCycle, if_pos rfl]

theorem burst_is_window_everyCycle :
    ((burst (fun _ => ⟨0, 0⟩) everyCycle 1000 259).take 86).map some =
      window (written everyCycle 1260) 998 86 := by
  have haccepts : Accepts (fun _ => ⟨0, 0⟩) everyCycle 1000 :=
    ⟨rfl, idle_of_quiet fun v hv => decide_eq_false (Nat.ne_of_lt hv)⟩
  have hgreatest : IsGreatest {b | b < (written everyCycle 1000).length ∧
      b % 4 = (everyCycle 1000).bestPhase.toNat} 998 := by
    rw [written_everyCycle]
    refine ⟨⟨by decide, rfl⟩, fun b hb => ?_⟩
    have hlt : b < 1000 := hb.1
    have hphase : b % 4 = 2 := hb.2
    omega
  have hlen := written_everyCycle
  refine (burst_is_window (fun _ => ⟨0, 0⟩) everyCycle haccepts ?_ hgreatest).2.1 172 259 ?_ ?_
  · rw [hlen]
    decide
  · rw [hlen, hlen]
  · decide

end UlBurstCapture
end TetraBs.Phy
