import TetraBs.Lib.Run
import TetraBs.Lib.Spacing
import TetraBs.Phy.BurstDemux

/-! The lock of `tetra_sync_detect` as a rule about the spacings of the detections, and the rule
that its counter keeps to instead. -/
namespace TetraBs.Phy
open TetraBs.Run TetraBs.Spacing TetraBs.SymbolShift

namespace SyncDetect

/-- Within the tolerance of one, two or three frames. -/
def near (n : Nat) : Bool :=
  [1, 2, 3].any fun k => SLOT_SYMS * 4 * k - LOCK_TOL ≤ n && n ≤ SLOT_SYMS * 4 * k + LOCK_TOL

/-- The rule, with the spacings in symbols. -/
def stated : Rule := ⟨near, LOCK_COUNT - 1, LOCK_TIMEOUT⟩

/-- What the counter makes of it. It counts the symbols between two detections, one fewer than the
spacing, and the timeout cuts a spacing off before it is judged. -/
def counted : Rule :=
  ⟨fun n => near (n - 1) && n - 1 ≤ LOCK_TIMEOUT + 1, LOCK_COUNT - 1, LOCK_TIMEOUT + 1⟩

section
variable {s : SyncDetect} {i : DibitInput} {h : Record} {b : Bool}

/-- The counters after the symbols of `h`. -/
structure Counts (h : Record) (s : SyncDetect) : Prop where
  slotPosition : s.slotPosition = h.since % SLOT_SYMS
  spacingCnt : s.spacingCnt = min h.since 4095
  holdoffCnt : s.holdoffCnt = if h.seen then HOLDOFF - h.since else 0

/-- The lock of the counter's rule is `b`; the state follows one cycle after it has been taken. -/
inductive Stage (h : Record) (b : Bool) (s : SyncDetect) : Prop
  | hunt : s.lockState = .hunt → b = false → (h.seen = true → LOCK_TIMEOUT + 2 ≤ h.since) →
      (h.seen = false → h.gaps = []) → Stage h b s
  | acqr : s.lockState = .acqr → b = false → s.consecCnt = counted.recent h.gaps + 1 →
      s.consecCnt < LOCK_COUNT → h.since ≤ LOCK_TIMEOUT + 1 → h.seen = true → Stage h b s
  | taken : s.lockState = .acqr → b = true → s.consecCnt = LOCK_COUNT → h.since = 0 →
      h.seen = true → Stage h b s
  | lock : s.lockState = .lock → b = true → h.since ≤ LOCK_TIMEOUT + 1 → h.seen = true →
      Stage h b s

theorem Counts.spacingOk_eq (hc : Counts h s) (hle : h.since ≤ LOCK_TIMEOUT + 1) :
    spacingOk s = near h.since := by
  have hcnt : s.spacingCnt = h.since :=
    hc.spacingCnt.trans (Nat.min_eq_left (hle.trans (by decide)))
  rw [← hcnt]
  rfl

theorem Counts.spacingTimeout_iff (hc : Counts h s) :
    spacingTimeout s = true ↔ LOCK_TIMEOUT + 1 ≤ h.since := by
  rw [spacingTimeout, decide_eq_true_iff, hc.spacingCnt, LOCK_TIMEOUT]
  omega

/-- No detection falls into the holdoff of the one before. -/
theorem Counts.ready (hc : Counts h s) (hfire : syncFire s i = true) :
    i.dibitValid = true ∧ (h.seen = true → HOLDOFF ≤ h.since) := by
  simp only [syncFire, Bool.and_eq_true, decide_eq_true_eq] at hfire
  refine ⟨hfire.2, fun hseen => ?_⟩
  have hcnt := hc.holdoffCnt
  rw [hfire.1.2, if_pos hseen] at hcnt
  exact Nat.sub_eq_zero_iff_le.1 hcnt.symm

theorem syncFire_of_idle (hv : i.dibitValid = false) : syncFire s i = false := by
  rw [syncFire, hv, Bool.and_false]

theorem Counts.idle (hc : Counts h s) (hv : i.dibitValid = false) : Counts h (step s i) := by
  have hfire : syncFire s i = false := syncFire_of_idle hv
  refine ⟨?_, ?_, ?_⟩
  · simp only [step, hv, Bool.false_eq_true, if_false]
    exact hc.slotPosition
  · simp only [step, hv, Bool.false_eq_true, if_false]
    exact hc.spacingCnt
  · simp only [step, hfire, hv, Bool.false_and, Bool.false_eq_true, if_false]
    exact hc.holdoffCnt

theorem Counts.miss (hc : Counts h s) (hv : i.dibitValid = true) (hfire : syncFire s i = false) :
    Counts (h.next false) (step s i) := by
  have hslot := hc.slotPosition
  have hspacing := hc.spacingCnt
  have hholdoff := hc.holdoffCnt
  have hsince : (h.next false).since = h.since + 1 := rfl
  have hseen : (h.next false).seen = h.seen := rfl
  refine ⟨?_, ?_, ?_⟩
  · simp only [step, hv, hfire, Bool.false_eq_true, if_false, if_true, hsince, hslot, SLOT_SYMS]
    split <;> omega
  · simp only [step, hv, hfire, Bool.false_eq_true, if_false, if_true, hsince, hspacing]
    split <;> omega
  · simp only [step, hv, hfire, Bool.false_eq_true, if_false, Bool.true_and, decide_eq_true_eq,
      hsince, hseen]
    cases hon : h.seen with
    | true =>
      rw [hon, if_pos rfl] at hholdoff
      rw [if_pos rfl]
      by_cases hzero : s.holdoffCnt = 0
      · rw [if_neg (not_not.2 hzero)]
        omega
      · rw [if_pos hzero]
        omega
    | false =>
      rw [hon, if_neg Bool.false_ne_true] at hholdoff
      rw [if_neg (not_not.2 hholdoff), if_neg Bool.false_ne_true, hholdoff]

theorem Counts.hit (hfire : syncFire s i = true) (hv : i.dibitValid = true) :
    Counts (h.next true) (step s i) := by
  refine ⟨?_, ?_, ?_⟩
  · simp only [step, hv, hfire, if_true]
    rfl
  · simp only [step, hv, hfire, if_true]
    rfl
  · simp only [step, hfire, if_true]
    rfl

/-- A cycle without a symbol. -/
theorem Stage.idle (hs : Stage h b s) (hv : i.dibitValid = false) : Stage h b (step s i) := by
  have hfire : syncFire s i = false := syncFire_of_idle hv
  have hstate : (step s i).lockState = nextLockState s i := rfl
  have hconsec : (step s i).consecCnt = nextConsec s i := rfl
  cases hs with
  | hunt hphase hb hlate hgaps =>
    refine .hunt ?_ hb hlate hgaps
    rw [hstate, nextLockState, hphase, hfire]
    rfl
  | acqr hphase hb hcnt hlt hsince hseen =>
    have hkeep : (step s i).consecCnt = s.consecCnt := by
      rw [hconsec, nextConsec, hphase, hfire, hv]
      rfl
    refine .acqr ?_ hb (hkeep.trans hcnt) (hkeep.trans_lt hlt) hsince hseen
    rw [hstate, nextLockState, hphase, hfire, hv]
    exact if_neg (Nat.not_le.2 hlt)
  | taken hphase hb hcnt hsince hseen =>
    refine .lock ?_ hb (hsince.trans_le (Nat.zero_le _)) hseen
    rw [hstate, nextLockState, hphase]
    exact if_pos hcnt.ge
  | lock hphase hb hsince hseen =>
    refine .lock ?_ hb hsince hseen
    rw [hstate, nextLockState, hphase, hv]
    rfl

/-- A symbol without a detection. -/
theorem Stage.miss (hs : Stage h b s) (hc : Counts h s) (hv : i.dibitValid = true)
    (hfire : syncFire s i = false) :
    Stage (h.next false) (counted.next h b false) (step s i) := by
  have hstate : (step s i).lockState = nextLockState s i := rfl
  have hconsec : (step s i).consecCnt = nextConsec s i := rfl
  have hlimit : counted.limit = LOCK_TIMEOUT + 1 := rfl
  have hsince' : (h.next false).since = h.since + 1 := rfl
  have htime := hc.spacingTimeout_iff
  have hlock : counted.next h b false = (b && h.since + 1 ≤ LOCK_TIMEOUT + 1) := rfl
  cases hs with
  | hunt hphase hb hlate hgaps =>
    refine .hunt ?_ ?_ (fun hseen => (hlate hseen).trans (Nat.le_succ _)) hgaps
    · rw [hstate, nextLockState, hphase, hfire]
      rfl
    · rw [hlock, hb, Bool.false_and]
  | acqr hphase hb hcnt hlt hsince hseen =>
    have hout : counted.next h b false = false := by rw [hlock, hb, Bool.false_and]
    by_cases hlate : LOCK_TIMEOUT + 1 ≤ h.since
    · refine .hunt ?_ hout (fun _ => by rw [hsince']; omega) fun hno => ?_
      · rw [hstate, nextLockState, hphase, hfire, hv, htime.2 hlate]
        exact if_neg (Nat.not_le.2 hlt)
      · exact Bool.noConfusion (hseen.symm.trans hno)
    · have hnot : spacingTimeout s = false := Bool.eq_false_iff.2 fun hno => hlate (htime.1 hno)
      have hkeep : (step s i).consecCnt = s.consecCnt := by
        rw [hconsec, nextConsec, hphase, hfire, hv, hnot]
        rfl
      refine .acqr ?_ hout (hkeep.trans hcnt) (hkeep.trans_lt hlt) (by rw [hsince']; omega) hseen
      rw [hstate, nextLockState, hphase, hfire, hv, hnot]
      exact if_neg (Nat.not_le.2 hlt)
  | taken hphase hb hcnt hsince hseen =>
    refine .lock ?_ ?_ ?_ hseen
    · rw [hstate, nextLockState, hphase]
      exact if_pos hcnt.ge
    · rw [hlock, hb, hsince]
      rfl
    · rw [hsince', hsince]
      decide
  | lock hphase hb hsince hseen =>
    by_cases hlate : LOCK_TIMEOUT + 1 ≤ h.since
    · refine .hunt ?_ ?_ (fun _ => by rw [hsince']; omega) fun hno => ?_
      · rw [hstate, nextLockState, hphase, hfire, hv, htime.2 hlate]
        rfl
      · rw [hlock, hb, Bool.true_and]
        exact decide_eq_false (by omega)
      · exact Bool.noConfusion (hseen.symm.trans hno)
    · have hnot : spacingTimeout s = false := Bool.eq_false_iff.2 fun hno => hlate (htime.1 hno)
      refine .lock ?_ ?_ (by rw [hsince']; omega) hseen
      · rw [hstate, nextLockState, hphase, hfire, hv, hnot]
        rfl
      · rw [hlock, hb, Bool.true_and]
        exact decide_eq_true (by omega)

/-- The new spacing is good for the counter if it was not cut off and is near by one fewer. -/
theorem counted_good (n : Nat) :
    counted.good (n + 1) = (near n && decide (n ≤ LOCK_TIMEOUT + 1)) := rfl

theorem gaps_next (hseen : h.seen = true) : (h.next true).gaps = (h.since + 1) :: h.gaps := by
  rw [Record.next, if_pos rfl]
  exact if_pos hseen

theorem recent_good {n : Nat} (hgood : counted.good n = true) (gaps : List Nat) :
    counted.recent (n :: gaps) = counted.recent gaps + 1 := by
  rw [Rule.recent, List.takeWhile_cons_of_pos hgood]
  rfl

theorem recent_bad {n : Nat} (hbad : counted.good n = false) (gaps : List Nat) :
    counted.recent (n :: gaps) = 0 := by
  rw [Rule.recent, List.takeWhile_cons_of_neg (Bool.eq_false_iff.1 hbad)]
  rfl

/-- A detection. -/
theorem Stage.hit (hs : Stage h b s) (hc : Counts h s) (hfire : syncFire s i = true) :
    Stage (h.next true) (counted.next h b true) (step s i) := by
  obtain ⟨hv, hready⟩ := hc.ready hfire
  have hstate : (step s i).lockState = nextLockState s i := rfl
  have hconsec : (step s i).consecCnt = nextConsec s i := rfl
  have hlock : counted.next h b true =
      (b || decide (LOCK_COUNT - 1 ≤ counted.recent (h.next true).gaps)) := rfl
  have hzero : (h.next true).since ≤ LOCK_TIMEOUT + 1 := Nat.zero_le _
  cases hs with
  | hunt hphase hb hlate hgaps =>
    have hrecent : counted.recent (h.next true).gaps = 0 := by
      cases hseen : h.seen with
      | false =>
        have hnil : (h.next true).gaps = h.gaps := by
          rw [Record.next, if_pos rfl, hseen]
          rfl
        rw [hnil, hgaps hseen]
        rfl
      | true =>
        have hfar := hlate hseen
        rw [gaps_next hseen]
        refine recent_bad ?_ h.gaps
        rw [counted_good, decide_eq_false (by omega), Bool.and_false]
    have hone : (step s i).consecCnt = 1 := by
      rw [hconsec, nextConsec, hphase, hfire]
      rfl
    refine .acqr ?_ ?_ (by rw [hone, hrecent]) (by rw [hone]; decide) hzero rfl
    · rw [hstate, nextLockState, hphase, hfire]
      rfl
    · rw [hlock, hb, hrecent]
      rfl
  | acqr hphase hb hcnt hlt hsince hseen =>
    have hphase' : (step s i).lockState = .acqr := by
      rw [hstate, nextLockState, hphase, hfire, Bool.not_true, Bool.and_false]
      exact if_neg (Nat.not_le.2 hlt)
    have hnear := hc.spacingOk_eq hsince
    have hgood : counted.good (h.since + 1) = near h.since := by
      rw [counted_good, decide_eq_true hsince, Bool.and_true]
    have hgaps := gaps_next hseen
    cases hok : near h.since with
    | false =>
      have hrecent : counted.recent (h.next true).gaps = 0 := by
        rw [hgaps, recent_bad (hgood.trans hok)]
      have hone : (step s i).consecCnt = 1 := by
        rw [hconsec, nextConsec, hphase, hfire, hnear, hok]
        rfl
      refine .acqr hphase' ?_ (by rw [hone, hrecent]) (by rw [hone]; decide) hzero rfl
      rw [hlock, hb, hrecent]
      rfl
    | true =>
      have hrecent : counted.recent (h.next true).gaps = counted.recent h.gaps + 1 := by
        rw [hgaps, recent_good (hgood.trans hok)]
      have hmore : (step s i).consecCnt = (s.consecCnt + 1) % 8 := by
        rw [hconsec, nextConsec, hphase, hfire, hnear, hok]
        rfl
      have hfour : LOCK_COUNT = 4 := rfl
      by_cases hlast : s.consecCnt + 1 = LOCK_COUNT
      · refine .taken hphase' ?_ (by omega) rfl rfl
        rw [hlock, hb, Bool.false_or, hrecent]
        exact decide_eq_true (by omega)
      · refine .acqr hphase' ?_ (by omega) (by omega) hzero rfl
        rw [hlock, hb, Bool.false_or, hrecent]
        exact decide_eq_false (by omega)
  | taken hphase hb hcnt hsince hseen =>
    -- the holdoff has just begun
    have hno := hready hseen
    rw [hsince] at hno
    exact absurd hno (by decide)
  | lock hphase hb hsince hseen =>
    refine .lock ?_ (by rw [hlock, hb, Bool.true_or]) hzero rfl
    rw [hstate, nextLockState, hphase, hfire, Bool.not_true, Bool.and_false]
    rfl

theorem Stage.locked (hs : Stage h b s) (hlock : s.lockState = .lock) : b = true := by
  cases hs with
  | hunt hphase _ _ _ => cases hphase.symm.trans hlock
  | acqr hphase _ _ _ _ _ => cases hphase.symm.trans hlock
  | taken _ hb _ _ _ => exact hb
  | lock _ hb _ _ => exact hb

theorem Stage.not_hunt (hs : Stage h b s) (hb : b = true) : s.lockState ≠ .hunt := by
  intro hno
  cases hs with
  | hunt _ hout _ _ => cases hout.symm.trans hb
  | acqr hphase _ _ _ _ _ => cases hphase.symm.trans hno
  | taken hphase _ _ _ _ => cases hphase.symm.trans hno
  | lock hphase _ _ _ => cases hphase.symm.trans hno

theorem Stage.locked_of_next (hs : Stage h b s) (hlock : nextLockState s i = .lock) :
    b = true := by
  rw [nextLockState] at hlock
  cases hs with
  | hunt hphase _ _ _ =>
    rw [hphase] at hlock
    dsimp only at hlock
    split at hlock <;> cases hlock
  | acqr hphase _ _ hlt _ _ =>
    rw [hphase] at hlock
    dsimp only at hlock
    rw [if_neg (Nat.not_le.2 hlt)] at hlock
    split at hlock <;> cases hlock
  | taken _ hb _ _ _ => exact hb
  | lock _ hb _ _ => exact hb

theorem Stage.next_of_locked (hs : Stage h b s) (hb : b = true) :
    nextLockState s i = .hunt ∨ nextLockState s i = .lock := by
  rw [nextLockState]
  cases hs with
  | hunt _ hout _ _ => cases hout.symm.trans hb
  | acqr _ hout _ _ _ _ => cases hout.symm.trans hb
  | taken hphase _ hcnt _ _ =>
    rw [hphase]
    exact .inr (if_pos hcnt.ge)
  | lock hphase _ _ _ =>
    rw [hphase]
    dsimp only
    split
    · exact .inl rfl
    · exact .inr rfl

end

section
variable (inp : Nat → DibitInput)

/-- The state before cycle `t`. -/
def run (t : Nat) : SyncDetect := clocked (fun _ => step) reset inp t

/-- The symbol of cycle `t`: whether it brings a detection. -/
def event (t : Nat) : Option Bool :=
  if (inp t).dibitValid then some (syncFire (run inp t) (inp t)) else none

/-- `sync_locked` follows the rule, two cycles after the lock is taken and one after it is given up
(cycle 0 stands in for those before it), and `slot_position` counts the symbols since the last
detection. -/
def Meets : Prop :=
  ∀ t, (run inp t).syncLocked =
      (stated.locked (event inp) (t - 2) && stated.locked (event inp) (t - 1)) ∧
    (run inp t).slotPosition = (record (event inp) t).since % 255

theorem tracks (t : Nat) : Counts (record (event inp) t) (run inp t) ∧
    Stage (record (event inp) t) (counted.locked (event inp) t) (run inp t) := by
  induction t with
  | zero =>
    exact ⟨⟨rfl, rfl, rfl⟩, .hunt rfl rfl (fun hno => Bool.noConfusion hno) fun _ => rfl⟩
  | succ t ih =>
    obtain ⟨hc, hs⟩ := ih
    have hrun : run inp (t + 1) = step (run inp t) (inp t) := rfl
    rw [hrun]
    cases hv : (inp t).dibitValid with
    | false =>
      have hev : event inp t = none := by rw [event, hv, if_neg Bool.false_ne_true]
      rw [record_none hev, Rule.locked_none hev]
      exact ⟨hc.idle hv, hs.idle hv⟩
    | true =>
      cases hfire : syncFire (run inp t) (inp t) with
      | false =>
        have hev : event inp t = some false := by rw [event, hv, if_pos rfl, hfire]
        rw [record_some hev, Rule.locked_some hev]
        exact ⟨hc.miss hv hfire, hs.miss hc hv hfire⟩
      | true =>
        have hev : event inp t = some true := by rw [event, hv, if_pos rfl, hfire]
        rw [record_some hev, Rule.locked_some hev]
        exact ⟨Counts.hit hfire hv, hs.hit hc hfire⟩

variable {inp} {t : Nat}

theorem syncFire_of_event (hev : event inp t = some true) :
    syncFire (run inp t) (inp t) = true := by
  rw [event] at hev
  split at hev
  · exact Option.some.inj hev
  · cases hev

/-- Detections never come in two cycles that follow each other. -/
theorem event_apart (t : Nat) (hev : event inp t = some true) : event inp (t + 1) ≠ some true := by
  intro hev'
  obtain ⟨-, hready⟩ := (tracks inp (t + 1)).1.ready (syncFire_of_event hev')
  rw [record_some hev] at hready
  have hno : HOLDOFF ≤ 0 := hready rfl
  exact absurd hno (by decide)

/-- The state is two cycles of lock under the counter's rule. -/
theorem lockState_iff : (run inp (t + 1)).lockState = .lock ↔
    (counted.locked (event inp) t && counted.locked (event inp) (t + 1)) = true := by
  have hnext : (run inp (t + 1)).lockState = nextLockState (run inp t) (inp t) := rfl
  have hnow := (tracks inp t).2
  have hthen := (tracks inp (t + 1)).2
  rw [Bool.and_eq_true]
  constructor
  · intro hlock
    exact ⟨hnow.locked_of_next (hnext.symm.trans hlock), hthen.locked hlock⟩
  · rintro ⟨hin, hin'⟩
    rcases hnow.next_of_locked (i := inp t) hin with hhunt | hlock
    · exact absurd (hnext.trans hhunt) (hthen.not_hunt hin')
    · exact hnext.trans hlock

/-- The output is the lock of the counter's rule. -/
theorem syncLocked_eq : (run inp (t + 2)).syncLocked =
    (counted.locked (event inp) t && counted.locked (event inp) (t + 1)) := by
  have hout : (run inp (t + 2)).syncLocked = decide ((run inp (t + 1)).lockState = .lock) := rfl
  rw [hout, Bool.eq_iff_iff, decide_eq_true_iff, lockState_iff]

variable (inp) in
theorem meets_iff_locked : Meets inp ↔
    ∀ t, stated.locked (event inp) t = counted.locked (event inp) t := by
  have hpairs : (∀ t, stated.locked (event inp) t = counted.locked (event inp) t) ↔ _ :=
    Rule.locked_eq_iff_pairs event_apart (by decide) (by decide)
  rw [hpairs]
  constructor
  · intro hmeets t
    have hout : (run inp (t + 2)).syncLocked =
        (stated.locked (event inp) t && stated.locked (event inp) (t + 1)) := (hmeets (t + 2)).1
    rw [← hout, syncLocked_eq]
  · intro heq t
    refine ⟨?_, (tracks inp t).1.slotPosition⟩
    cases t with
    | zero => rfl
    | succ t =>
      cases t with
      | zero => rfl
      | succ t =>
        rw [syncLocked_eq]
        exact (heq t).symm

end

/-! Where the two rules differ. -/

theorem near_iff (n : Nat) : near n = true ↔
    990 ≤ n ∧ n ≤ 1050 ∨ 2010 ≤ n ∧ n ≤ 2070 ∨ 3030 ≤ n ∧ n ≤ 3090 := by
  simp only [near, List.any_cons, List.any_nil, Bool.or_false, Bool.or_eq_true, Bool.and_eq_true,
    decide_eq_true_eq]
  exact Iff.rfl

theorem counted_good_iff (n : Nat) : counted.good n = true ↔
    991 ≤ n ∧ n ≤ 1051 ∨ 2011 ≤ n ∧ n ≤ 2071 ∨ 3031 ≤ n ∧ n ≤ 3062 := by
  have hgood : counted.good n = (near (n - 1) && decide (n - 1 ≤ LOCK_TIMEOUT + 1)) := rfl
  rw [hgood, Bool.and_eq_true, near_iff, decide_eq_true_iff, LOCK_TIMEOUT]
  omega

/-- The newest three spacings when a detection comes now. -/
def judged (h : Record) : List Nat := (h.next true).gaps.take 3

/-- A symbol that the counter and the rule judge alike. A detection while the lock is out must not
complete three spacings within the tolerance one of which is 990, 2010, 3030 or more than 3062, nor
three spacings from 991 to 1051, 2011 to 2071 or 3031 to 3062 one of which is 1051 or 2071; and
while the lock stands, 3061 symbols must not pass without a detection. -/
def Fair (h : Record) (b hit : Bool) : Prop :=
  if hit then b = false → (judged h).length = 3 →
    ((∀ g ∈ judged h, near g = true) →
      ∀ g ∈ judged h, g ≠ 990 ∧ g ≠ 2010 ∧ g ≠ 3030 ∧ g ≤ 3062) ∧
    ((∀ g ∈ judged h, 991 ≤ g ∧ g ≤ 1051 ∨ 2011 ≤ g ∧ g ≤ 2071 ∨ 3031 ≤ g ∧ g ≤ 3062) →
      ∀ g ∈ judged h, g ≠ 1051 ∧ g ≠ 2071)
  else b = true → h.since + 1 ≤ 3060

theorem judged_iff (r : Rule) (h : Record) : 3 ≤ r.recent (h.next true).gaps ↔
    (judged h).length = 3 ∧ ∀ g ∈ judged h, r.good g = true := by
  rw [Rule.le_recent_iff, judged, List.length_take]
  exact and_congr_left fun _ => by omega

theorem agrees_iff_fair {h : Record} {b hit : Bool} (hb : b = true → h.since ≤ 3060) :
    stated.Agrees counted h b hit ↔ Fair h b hit := by
  cases hit with
  | true =>
    rw [Rule.Agrees, Fair, if_pos rfl, if_pos rfl]
    have hstated : stated.count = 3 := rfl
    have hcounted : counted.count = 3 := rfl
    have hnear : ∀ g, stated.good g = near g := fun _ => rfl
    simp only [hstated, hcounted, judged_iff, hnear, counted_good_iff]
    have hearly (hn : ∀ g ∈ judged h, near g = true) :
        (∀ g ∈ judged h, 991 ≤ g ∧ g ≤ 1051 ∨ 2011 ≤ g ∧ g ≤ 2071 ∨ 3031 ≤ g ∧ g ≤ 3062) ↔
          ∀ g ∈ judged h, g ≠ 990 ∧ g ≠ 2010 ∧ g ≠ 3030 ∧ g ≤ 3062 := by
      refine forall₂_congr fun g hg => ?_
      have hg' := (near_iff g).1 (hn g hg)
      omega
    have hlate
        (hc : ∀ g ∈ judged h, 991 ≤ g ∧ g ≤ 1051 ∨ 2011 ≤ g ∧ g ≤ 2071 ∨ 3031 ≤ g ∧ g ≤ 3062) :
        (∀ g ∈ judged h, near g = true) ↔ ∀ g ∈ judged h, g ≠ 1051 ∧ g ≠ 2071 := by
      refine forall₂_congr fun g hg => ?_
      have hg' := hc g hg
      rw [near_iff]
      omega
    refine imp_congr_right fun _ =>
      ⟨fun heq hlen => ⟨fun hn => ?_, fun hc => ?_⟩, fun hfair => ?_⟩
    · exact (hearly hn).1 (heq.1 ⟨hlen, hn⟩).2
    · exact (hlate hc).1 (heq.2 ⟨hlen, hc⟩).2
    · exact ⟨fun hn => ⟨hn.1, (hearly hn.2).2 ((hfair hn.1).1 hn.2)⟩,
        fun hc => ⟨hc.1, (hlate hc.2).2 ((hfair hc.1).2 hc.2)⟩⟩
  | false =>
    rw [Rule.Agrees, Fair, if_neg Bool.false_ne_true, if_neg Bool.false_ne_true]
    have hstated : stated.limit = 3060 := rfl
    have hcounted : counted.limit = 3061 := rfl
    rw [hstated, hcounted]
    refine imp_congr_right fun hin => ?_
    have hle := hb hin
    omega

/-- Over every run: the lock and the slot position are right exactly if the counter judges every
symbol as the rule does. -/
theorem meets_iff_fair (inp : Nat → DibitInput) : Meets inp ↔
    ∀ t hit, event inp t = some hit →
      Fair (record (event inp) t) (stated.locked (event inp) t) hit := by
  rw [meets_iff_locked, Rule.locked_eq_iff]
  exact forall_congr' fun t => forall_congr' fun hit => imp_congr_right fun _ =>
    agrees_iff_fair fun hin => Rule.since_le hin

/-! A training sequence every 990 symbols, thirty before a frame is over. -/

/-- The normal training sequence at the start of each period, zeros after it. -/
def early (n : Nat) : BitVec 2 := if n % 990 < 11 then symbol NTS_REF (10 - n % 990) else 0#2

def earlyFrames (t : Nat) : DibitInput := ⟨early t, true, 11#6, 0#2⟩

theorem early_mod {m n : Nat} (h : m % 990 = n % 990) : early m = early n := by
  rw [early, early, h]

theorem earlyFrames_window (t : Nat) :
    ∀ j < 11, symbol (run earlyFrames t).sreg j = early (t + 989 - j) := by
  induction t with
  | zero =>
    intro j hj
    have hzero : symbol (run earlyFrames 0).sreg j = 0#2 := DelayLine.word_zero 2 j
    rw [hzero, early, if_neg (by omega)]
  | succ t ih =>
    intro j hj
    have hnext : (run earlyFrames (t + 1)).sreg = push (run earlyFrames t).sreg (early t) := rfl
    rw [hnext]
    cases j with
    | zero =>
      rw [symbol_push_zero]
      exact early_mod (by omega)
    | succ j =>
      rw [symbol_push_succ _ _ (by omega), ih j (by omega)]
      exact early_mod (by omega)

/-- A place of the window agrees with the reference if its symbols do. -/
theorem corr_eq (x : BitVec 76) : corr x NTS_REF =
    (List.range 11).countP fun k => symbol x k = symbol NTS_REF k := by
  refine List.countP_congr fun k hk => ?_
  have hk' : k < 11 := List.mem_range.1 hk
  have hlow : symbol (x.setWidth 22) k = symbol x k :=
    BitVec.extractLsb'_setWidth_of_le (by omega)
  have hxor : symbol (x.setWidth 22 ^^^ NTS_REF) k = symbol x k ^^^ symbol NTS_REF k := by
    rw [← hlow]
    exact BitVec.extractLsb'_xor
  rw [hxor, decide_eq_true_iff, decide_eq_true_iff]
  exact BitVec.xor_eq_zero_iff

def matched (t : Nat) : Nat :=
  (List.range 11).countP fun k => early (t + 990 - k) = symbol NTS_REF k

theorem matched_mod (t : Nat) : matched t = matched (t % 990) := by
  refine List.countP_congr fun k hk => ?_
  have hk' : k < 11 := List.mem_range.1 hk
  rw [early_mod (by omega : (t + 990 - k) % 990 = (t % 990 + 990 - k) % 990)]

theorem matched_period : ∀ m < 990, 11 ≤ matched m ↔ m = 10 := by
  decide +kernel

theorem threshHit_earlyFrames (t : Nat) :
    threshHit (run earlyFrames t) (earlyFrames t) = true ↔ t % 990 = 10 := by
  have hsel : corrSel (run earlyFrames t) (earlyFrames t) =
      corr (sregShifted (run earlyFrames t) (earlyFrames t)) NTS_REF := rfl
  have hcorr : corrSel (run earlyFrames t) (earlyFrames t) = matched t := by
    rw [hsel, corr_eq]
    refine List.countP_congr fun k hk => ?_
    have hk' : k < 11 := List.mem_range.1 hk
    have hwindow : symbol (sregShifted (run earlyFrames t) (earlyFrames t)) k =
        early (t + 990 - k) := earlyFrames_window (t + 1) k hk'
    rw [hwindow]
  rw [threshHit, hcorr, decide_eq_true_iff, matched_mod]
  exact matched_period _ (Nat.mod_lt _ (by decide))

theorem event_earlyFrames (t : Nat) : event earlyFrames t =
    some (decide (t % 990 = 10) && decide ((run earlyFrames t).holdoffCnt = 0)) := by
  have hthresh : threshHit (run earlyFrames t) (earlyFrames t) = decide (t % 990 = 10) := by
    rw [Bool.eq_iff_iff, decide_eq_true_iff, threshHit_earlyFrames]
  have hvalid : (earlyFrames t).dibitValid = true := rfl
  rw [event, if_pos hvalid, syncFire, hthresh, hvalid, Bool.and_true]

theorem event_between {t : Nat} (ht : t % 990 ≠ 10) : event earlyFrames t = some false := by
  rw [event_earlyFrames, decide_eq_false ht, Bool.false_and]

theorem event_at {t : Nat} (ht : t % 990 = 10)
    (hready : (record (event earlyFrames) t).seen = true →
      HOLDOFF ≤ (record (event earlyFrames) t).since) : event earlyFrames t = some true := by
  have hzero : (run earlyFrames t).holdoffCnt = 0 := by
    rw [(tracks earlyFrames t).1.holdoffCnt]
    split
    · next hseen => exact Nat.sub_eq_zero_of_le (hready hseen)
    · rfl
  rw [event_earlyFrames, decide_eq_true ht, decide_eq_true hzero]
  rfl

/-- After each detection: the spacings have all been 990, which the counter never takes. -/
theorem earlyFrames_record (j : Nat) :
    record (event earlyFrames) (11 + 990 * j) = ⟨0, true, List.replicate j 990⟩ ∧
      counted.locked (event earlyFrames) (11 + 990 * j) = false := by
  induction j with
  | zero =>
    have hquiet : ∀ i < 10, event earlyFrames (0 + i) = some false :=
      fun i hi => event_between (by omega)
    have hrecord := record_quiet hquiet
    rw [Nat.zero_add] at hrecord
    have hev : event earlyFrames 10 = some true :=
      event_at rfl fun hseen => by rw [hrecord] at hseen; cases hseen
    have hout : counted.locked (event earlyFrames) 10 = false := Rule.locked_quiet hquiet rfl
    refine ⟨?_, ?_⟩
    · rw [Nat.mul_zero, record_some hev, hrecord]
      rfl
    · rw [Nat.mul_zero, Rule.locked_some hev, hrecord, hout]
      rfl
  | succ j ih =>
    obtain ⟨hrecord, hout⟩ := ih
    have hquiet : ∀ i < 989, event earlyFrames (11 + 990 * j + i) = some false :=
      fun i hi => event_between (by omega)
    have hbefore := record_quiet hquiet
    rw [hrecord] at hbefore
    have hout' := Rule.locked_quiet hquiet hout
    have hev : event earlyFrames (11 + 990 * j + 989) = some true :=
      event_at (by omega) fun _ => by
        rw [hbefore]
        exact (by decide : HOLDOFF ≤ 989)
    have hnext : 11 + 990 * (j + 1) = 11 + 990 * j + 989 + 1 := by omega
    have hbad : counted.good 990 = false := by decide
    refine ⟨?_, ?_⟩
    · rw [hnext, record_some hev, hbefore]
      rfl
    · have hgaps : (Record.next ⟨989, true, List.replicate j 990⟩ true).gaps =
          990 :: List.replicate j 990 := rfl
      rw [hnext, Rule.locked_some hev, hbefore, hout', Rule.next, if_pos rfl, Bool.false_or]
      exact decide_eq_false (by rw [hgaps, recent_bad hbad]; decide)

/-- The lock never comes, although every spacing is within the tolerance. -/
theorem earlyFrames_unlocked : ¬ ∀ inp : Nat → DibitInput,
    (∀ t, (inp t).corrThreshold = (inp 0).corrThreshold ∧ (inp t).seqSelect = (inp 0).seqSelect) →
      Meets inp := by
  intro hall
  have hmeets := (meets_iff_locked earlyFrames).1 (hall earlyFrames fun t => ⟨rfl, rfl⟩)
  have hout : counted.locked (event earlyFrames) 2981 = false := (earlyFrames_record 3).2
  have hthree : record (event earlyFrames) 1991 = ⟨0, true, [990, 990]⟩ := (earlyFrames_record 2).1
  have hquiet : ∀ i < 989, event earlyFrames (1991 + i) = some false :=
    fun i hi => event_between (by omega)
  have hbefore := record_quiet hquiet
  rw [hthree] at hbefore
  have hev : event earlyFrames (1991 + 989) = some true :=
    event_at rfl fun _ => by rw [hbefore]; decide
  have hin : stated.locked (event earlyFrames) (1991 + 989 + 1) = true := by
    rw [Rule.locked_some hev, hbefore, Rule.next, if_pos rfl, Bool.or_eq_true]
    exact .inr (by decide)
  rw [hmeets, hout] at hin
  exact Bool.noConfusion hin

end SyncDetect
end TetraBs.Phy
