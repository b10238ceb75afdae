import TetraBs.Lib.Run
import TetraBs.Phy.BurstDemux

/-! Which symbols the demultiplexer presents: the windows it fills, the latched block 1, and the
steps that keep the three fields of one slot together. -/
namespace TetraBs.Phy
open TetraBs.Run TetraBs.SymbolShift

/-- The window from `first` to `last` as far as it has come in, at position `pos` of the slot. -/
def InWindow {n : Nat} (x : BitVec n) (ds : List (BitVec 2)) (pos first last : Nat) : Prop :=
  Newest x ds (ds.length - pos + min pos (last + 1)) (min pos (last + 1) - first)

section
variable {n m : Nat} {ds : List (BitVec 2)} {pos first last : Nat}

theorem inWindow_before (x : BitVec n) (ds : List (BitVec 2)) (last : Nat) (h : pos ≤ first) :
    InWindow x ds pos first last := by
  have hnone : min pos (last + 1) - first = 0 := by omega
  rw [InWindow, hnone]
  exact newest_zero x ds _

theorem InWindow.advance {x : BitVec (m + 2)} (h : InWindow x ds pos first last)
    (hpos : pos ≤ ds.length) (hm : 2 * (last - first) ≤ m) (d : BitVec 2) :
    InWindow (if first ≤ pos ∧ pos ≤ last then push x d else x) (ds ++ [d]) (pos + 1) first
      last := by
  rw [InWindow] at h
  by_cases hin : first ≤ pos ∧ pos ≤ last
  · rw [if_pos hin, InWindow]
    have hend : ds.length - pos + min pos (last + 1) = ds.length := by omega
    have hpush := (hend ▸ h).push (by omega) d
    convert hpush using 1
    · rw [List.length_append, List.length_singleton]
      omega
    · omega
  · rw [if_neg hin]
    by_cases hbefore : pos < first
    · exact inWindow_before x _ last hbefore
    · have hmono := h.mono (List.prefix_append ds [d])
      rw [InWindow, List.length_append, List.length_singleton]
      convert hmono using 1 <;> omega

end

namespace WatchedReceiver
variable {w : WatchedReceiver} {i : DibitInput}

def pos (w : WatchedReceiver) : Nat := w.rx.det.slotPosition

/-- The number of symbols before the current slot position 0. -/
def origin (w : WatchedReceiver) : Nat := w.dibits.length - w.pos

/-- The step neither takes a hit that would make a misplaced block 1 ready nor misses the training
sequence while a block 1 is ready. -/
def OnTime (w : WatchedReceiver) (i : DibitInput) : Prop :=
  w.rx.demux.state = .run → i.dibitValid = true →
    (w.rx.det.syncFire i = true →
      w.rx.demux.block1Captured = true ∨ w.pos = BurstDemux.B1_POS_END →
        w.pos = SyncDetect.SLOT_SYMS - 1) ∧
    (w.pos = SyncDetect.SLOT_SYMS - 1 → w.rx.demux.block1Ready = true →
      w.rx.det.syncFire i = true)

/-- The demultiplexer starts to run within three symbols of a hit. -/
structure Locking (w : WatchedReceiver) : Prop where
  pos : w.pos ≤ 254 ∧ w.pos ≤ w.dibits.length
  acqr : w.rx.det.lockState = .acqr → SyncDetect.LOCK_COUNT ≤ w.rx.det.consecCnt → w.pos = 0
  lock : w.rx.det.lockState = .lock → w.rx.det.syncLocked = false → w.pos ≤ 1
  locked : w.rx.det.syncLocked = true → w.rx.demux.state = .hunt → w.pos ≤ 2
  found : w.rx.det.syncFound = true → w.pos = 0 ∧ w.dibits.length ∈ w.hits

/-- What the registers of the running demultiplexer hold. -/
structure Holds (w : WatchedReceiver) : Prop where
  block2 : InWindow w.rx.demux.block2Shift w.dibits w.pos 15 122
  pend : InWindow w.rx.demux.block1Pend w.dibits w.pos 125 232
  bb : w.rx.demux.block1Captured = true → w.pos < 233 →
    InWindow w.rx.demux.bbShift w.dibits w.pos 0 14
  ready : w.rx.demux.block1Ready = true → w.rx.demux.block1Captured = true
  synced : w.rx.det.syncFound = true → w.rx.demux.block1Captured = true →
    Newest w.rx.demux.block1Pend w.dibits (w.dibits.length - 22) 108
  latched : w.rx.det.syncFound = false → w.rx.demux.block1Ready = true →
    w.origin ∈ w.hits ∧ Newest w.rx.demux.block1Lat w.dibits (w.origin - 22) 108

/-! The position and the stream over a step. -/

theorem step_dibits (w : WatchedReceiver) (i : DibitInput) : (w.step i).dibits =
    if i.dibitValid then w.dibits ++ [i.dibitIn] else w.dibits := rfl

theorem fire_valid (hfire : w.rx.det.syncFire i = true) : i.dibitValid = true := by
  simp only [SyncDetect.syncFire, Bool.and_eq_true] at hfire
  exact hfire.2

theorem pos_idle (hv : i.dibitValid = false) : (w.step i).pos = w.pos := by
  simp [pos, step, BurstReceiver.step, SyncDetect.step, hv]

theorem pos_fire (hfire : w.rx.det.syncFire i = true) : (w.step i).pos = 0 := by
  simp [pos, step, BurstReceiver.step, SyncDetect.step, hfire, fire_valid hfire]

theorem pos_valid (hv : i.dibitValid = true) (hfire : w.rx.det.syncFire i = false)
    (hpos : w.pos ≤ 254) : (w.step i).pos = if w.pos = 254 then 0 else w.pos + 1 := by
  have hval : (w.step i).pos =
      if w.pos = SyncDetect.SLOT_SYMS - 1 then 0 else (w.pos + 1) % 256 := by
    simp only [pos, step, BurstReceiver.step, SyncDetect.step, hfire, hv]
    rfl
  rw [hval, SyncDetect.SLOT_SYMS]
  split
  · rfl
  · exact Nat.mod_eq_of_lt (by omega)

theorem hits_mono (w : WatchedReceiver) (i : DibitInput) {z : Nat} (h : z ∈ w.hits) :
    z ∈ (w.step i).hits := by
  rw [step]
  dsimp only
  split
  · exact List.mem_append_left _ h
  · exact h

theorem dibits_mono (w : WatchedReceiver) (i : DibitInput) : w.dibits <+: (w.step i).dibits := by
  rw [step_dibits]
  split
  · exact List.prefix_append _ _
  · exact List.prefix_refl _

theorem locking_reset : Locking reset :=
  ⟨by decide, fun h => absurd h (by decide), fun h => absurd h (by decide),
    fun h => absurd h (by decide), fun h => absurd h (by decide)⟩

/-- No step moves the position on by more than one. -/
theorem pos_le_succ (hpos : w.pos ≤ 254) : (w.step i).pos ≤ w.pos + 1 := by
  cases hv : i.dibitValid with
  | false => rw [pos_idle hv]; exact Nat.le_succ _
  | true =>
    cases hfire : w.rx.det.syncFire i with
    | true => rw [pos_fire hfire]; exact Nat.zero_le _
    | false =>
      rw [pos_valid hv hfire hpos]
      split <;> omega

theorem found_step (hfound : (w.step i).rx.det.syncFound = true) :
    (w.step i).pos = 0 ∧ (w.step i).dibits.length ∈ (w.step i).hits := by
  have hfire : w.rx.det.syncFire i = true := hfound
  refine ⟨pos_fire hfire, ?_⟩
  simp [step, hfire, fire_valid hfire]

theorem Locking.step (h : Locking w) (i : DibitInput) : Locking (w.step i) where
  pos := by
    have hone := h.pos
    rw [step_dibits]
    cases hv : i.dibitValid with
    | false => rw [pos_idle hv]; exact hone
    | true =>
      rw [if_pos rfl, List.length_append, List.length_singleton]
      cases hfire : w.rx.det.syncFire i with
      | true => rw [pos_fire hfire]; omega
      | false =>
        rw [pos_valid hv hfire hone.1]
        split <;> omega
  acqr hstate hcnt := by
    replace hstate : w.rx.det.nextLockState i = .acqr := hstate
    replace hcnt : SyncDetect.LOCK_COUNT ≤ w.rx.det.nextConsec i := hcnt
    cases hfire : w.rx.det.syncFire i with
    | true => exact pos_fire hfire
    | false =>
      -- without a hit the count does not reach the limit in this state
      rw [SyncDetect.nextLockState] at hstate
      rw [SyncDetect.nextConsec] at hcnt
      cases hlock : w.rx.det.lockState with
      | hunt => simp [hlock, hfire] at hstate
      | lock =>
        simp only [hlock] at hstate
        split at hstate <;> cases hstate
      | acqr =>
        simp only [hlock, hfire] at hstate hcnt
        split at hstate
        · cases hstate
        · rename_i hfew
          simp only [Bool.false_eq_true, if_false] at hcnt
          split at hcnt
          · exact absurd hcnt (by decide)
          · exact absurd hcnt hfew
  lock hstate hlocked := by
    replace hstate : w.rx.det.nextLockState i = .lock := hstate
    replace hlocked : ¬ w.rx.det.lockState = .lock := of_decide_eq_false hlocked
    rw [SyncDetect.nextLockState] at hstate
    cases hlock : w.rx.det.lockState with
    | lock => exact absurd hlock hlocked
    | hunt =>
      simp only [hlock] at hstate
      split at hstate <;> cases hstate
    | acqr =>
      simp only [hlock] at hstate
      split at hstate
      · have hzero := h.acqr hlock ‹_›
        have hnext := pos_le_succ (i := i) h.pos.1
        omega
      · split at hstate <;> cases hstate
  locked hlocked hhunt := by
    replace hlocked : w.rx.det.lockState = .lock := of_decide_eq_true hlocked
    have hno : w.rx.det.syncLocked = false := by
      by_contra hyes
      rw [Bool.not_eq_false] at hyes
      replace hhunt : (w.rx.demux.step i w.rx.det).state = .hunt := hhunt
      rw [BurstDemux.step, hyes] at hhunt
      cases hs : w.rx.demux.state <;> simp [hs] at hhunt
    have hone := h.lock hlocked hno
    have hnext := pos_le_succ (i := i) h.pos.1
    omega
  found := found_step

/-! The registers over a step. -/

theorem holds_reset (w : WatchedReceiver) (hpos : w.pos ≤ 3) (hcap : w.rx.demux.block1Captured = false)
    (hready : w.rx.demux.block1Ready = false) : Holds w where
  block2 := inWindow_before _ _ _ (by omega)
  pend := inWindow_before _ _ _ (by omega)
  bb h := absurd h (by rw [hcap]; decide)
  ready h := absurd h (by rw [hready]; decide)
  synced _ h := absurd h (by rw [hcap]; decide)
  latched _ h := absurd h (by rw [hready]; decide)

/-- The demultiplexer has just begun to run. -/
theorem holds_start (hlock : Locking w) (hhunt : w.rx.demux.state = .hunt)
    (hrun : (w.step i).rx.demux.state = .run) : Holds (w.step i) := by
  have hlocked : w.rx.det.syncLocked = true := by
    by_contra hno
    rw [Bool.not_eq_true] at hno
    replace hrun : (w.rx.demux.step i w.rx.det).state = .run := hrun
    simp [BurstDemux.step, hhunt, hno] at hrun
  have htwo := hlock.locked hlocked hhunt
  have hnext := pos_le_succ (i := i) hlock.pos.1
  refine holds_reset _ (by omega) ?_ ?_
  · simp [step, BurstReceiver.step, BurstDemux.step, hhunt]
  · simp [step, BurstReceiver.step, BurstDemux.step, hhunt]

section
variable (hrun : w.rx.demux.state = .run)
include hrun

theorem captured_step : (w.step i).rx.demux.block1Captured =
    ((decide (w.pos = 232) && i.dibitValid) || w.rx.demux.block1Captured) := by
  have hstep : (w.step i).rx.demux.block1Captured =
      if (decide (w.pos = 232) && i.dibitValid) then true else w.rx.demux.block1Captured :=
    if_neg (by rw [hrun]; decide)
  rw [hstep]
  cases decide (w.pos = 232) && i.dibitValid <;> simp

theorem ready_step : (w.step i).rx.demux.block1Ready =
    if w.rx.det.syncFound then w.rx.demux.block1Captured else w.rx.demux.block1Ready := by
  simp [step, BurstReceiver.step, BurstDemux.step, hrun, BurstDemux.atSync]

theorem lat_step : (w.step i).rx.demux.block1Lat =
    if w.rx.det.syncFound then w.rx.demux.block1Pend else w.rx.demux.block1Lat := by
  simp [step, BurstReceiver.step, BurstDemux.step, hrun, BurstDemux.atSync]

theorem capture_iff (hv : i.dibitValid = true) (first last : Nat) :
    w.rx.demux.capture i w.pos first last = true ↔ first ≤ w.pos ∧ w.pos ≤ last := by
  simp [BurstDemux.capture, hrun, hv]

theorem pend_step (hv : i.dibitValid = true) : (w.step i).rx.demux.block1Pend =
    if 125 ≤ w.pos ∧ w.pos ≤ 232 then push w.rx.demux.block1Pend i.dibitIn
    else w.rx.demux.block1Pend :=
  if_congr (capture_iff hrun hv 125 232) rfl rfl

theorem block2_step (hv : i.dibitValid = true) : (w.step i).rx.demux.block2Shift =
    if 15 ≤ w.pos ∧ w.pos ≤ 122 then push w.rx.demux.block2Shift i.dibitIn
    else w.rx.demux.block2Shift :=
  if_congr (capture_iff hrun hv 15 122) rfl rfl

theorem bb_step (hv : i.dibitValid = true) : (w.step i).rx.demux.bbShift =
    if 0 ≤ w.pos ∧ w.pos ≤ 14 then push w.rx.demux.bbShift i.dibitIn
    else w.rx.demux.bbShift :=
  if_congr (capture_iff hrun hv 0 14) rfl rfl

end

theorem shifts_idle (hv : i.dibitValid = false) :
    (w.step i).rx.demux.block1Pend = w.rx.demux.block1Pend ∧
      (w.step i).rx.demux.block2Shift = w.rx.demux.block2Shift ∧
      (w.step i).rx.demux.bbShift = w.rx.demux.bbShift := by
  simp [step, BurstReceiver.step, BurstDemux.step, BurstDemux.capture, hv]

/-- A cycle without a symbol. -/
theorem Holds.idle (h : Holds w) (hlock : Locking w) (hrun : w.rx.demux.state = .run)
    (hv : i.dibitValid = false) : Holds (w.step i) := by
  have hfire : w.rx.det.syncFire i = false := by simp [SyncDetect.syncFire, hv]
  have hds : (w.step i).dibits = w.dibits := by rw [step_dibits, hv]; rfl
  have hcap : (w.step i).rx.demux.block1Captured = w.rx.demux.block1Captured := by
    rw [captured_step hrun, hv, Bool.and_false, Bool.false_or]
  obtain ⟨hpend, hblock2, hbb⟩ := shifts_idle hv
  constructor
  · rw [hblock2, hds, pos_idle hv]
    exact h.block2
  · rw [hpend, hds, pos_idle hv]
    exact h.pend
  · rw [hcap, hbb, hds, pos_idle hv]
    exact h.bb
  · rw [hcap, ready_step hrun]
    split
    · exact id
    · exact h.ready
  · intro hfound
    exact absurd (hfire.symm.trans hfound) (by decide)
  · intro _ hready
    rw [ready_step hrun] at hready
    rw [lat_step hrun, origin, hds, pos_idle hv]
    cases hfound : w.rx.det.syncFound with
    | true =>
      rw [hfound, if_pos rfl] at hready
      obtain ⟨hzero, hhit⟩ := hlock.found hfound
      rw [if_pos rfl, hzero, Nat.sub_zero]
      exact ⟨hits_mono w i hhit, h.synced hfound hready⟩
    | false =>
      rw [hfound, if_neg Bool.false_ne_true] at hready
      rw [if_neg Bool.false_ne_true]
      exact ⟨hits_mono w i (h.latched hfound hready).1, (h.latched hfound hready).2⟩

/-- A symbol that moves the position on. -/
theorem Holds.advance (h : Holds w) (hlock : Locking w) (hrun : w.rx.demux.state = .run)
    (hv : i.dibitValid = true) (hfire : w.rx.det.syncFire i = false) (hpos : w.pos ≠ 254) :
    Holds (w.step i) := by
  have hle := hlock.pos
  have hds : (w.step i).dibits = w.dibits ++ [i.dibitIn] := by rw [step_dibits, hv]; rfl
  have hnext : (w.step i).pos = w.pos + 1 := by rw [pos_valid hv hfire hle.1, if_neg hpos]
  have horigin : (w.step i).origin = w.origin := by
    rw [origin, origin, hnext, hds, List.length_append, List.length_singleton]
    omega
  constructor
  · rw [block2_step hrun hv, hds, hnext]
    exact h.block2.advance hle.2 (by decide) _
  · rw [pend_step hrun hv, hds, hnext]
    exact h.pend.advance hle.2 (by decide) _
  · intro hcap hlt
    rw [hnext] at hlt
    have hcap' : w.rx.demux.block1Captured = true := by
      rwa [captured_step hrun, decide_eq_false (by omega), Bool.false_and, Bool.false_or] at hcap
    rw [bb_step hrun hv, hds, hnext]
    exact (h.bb hcap' (by omega)).advance hle.2 (by decide) _
  · rw [captured_step hrun, ready_step hrun, Bool.or_eq_true]
    split
    · exact .inr
    · exact fun hready => .inr (h.ready hready)
  · intro hfound
    exact absurd (hfire.symm.trans hfound) (by decide)
  · intro _ hready
    rw [ready_step hrun] at hready
    rw [lat_step hrun, horigin]
    cases hfound : w.rx.det.syncFound with
    | true =>
      rw [hfound, if_pos rfl] at hready
      obtain ⟨hzero, hhit⟩ := hlock.found hfound
      rw [if_pos rfl, origin, hzero, Nat.sub_zero]
      exact ⟨hits_mono w i hhit, (h.synced hfound hready).mono (dibits_mono w i)⟩
    | false =>
      rw [hfound, if_neg Bool.false_ne_true] at hready
      rw [if_neg Bool.false_ne_true]
      exact ⟨hits_mono w i (h.latched hfound hready).1,
        (h.latched hfound hready).2.mono (dibits_mono w i)⟩

/-- A hit: block 1 lies 22 symbols before the end of the training sequence if the hit comes at the
last position of the slot. -/
theorem Holds.hit (h : Holds w) (hlock : Locking w) (hrun : w.rx.demux.state = .run)
    (hfire : w.rx.det.syncFire i = true) (htime : OnTime w i) : Holds (w.step i) := by
  have hv := fire_valid hfire
  have hle := hlock.pos
  have hds : (w.step i).dibits = w.dibits ++ [i.dibitIn] := by rw [step_dibits, hv]; rfl
  have hnext : (w.step i).pos = 0 := pos_fire hfire
  constructor
  · rw [hnext]
    exact inWindow_before _ _ _ (by decide)
  · rw [hnext]
    exact inWindow_before _ _ _ (by decide)
  · intro _ _
    rw [hnext]
    exact inWindow_before _ _ _ (Nat.le_refl 0)
  · rw [captured_step hrun, ready_step hrun, Bool.or_eq_true]
    split
    · exact .inr
    · exact fun hready => .inr (h.ready hready)
  · intro _ hcap
    rw [captured_step hrun, hv, Bool.and_true, Bool.or_eq_true, decide_eq_true_iff] at hcap
    have hlast : w.pos = 254 := (htime hrun hv).1 hfire hcap.symm
    have hpend := h.pend.mono (dibits_mono w i)
    rw [hlast] at hpend hle
    rw [pend_step hrun hv, if_neg (by omega), hds, List.length_append, List.length_singleton]
    rw [hds] at hpend
    convert hpend using 1 <;> omega
  · intro hfound
    exact absurd (hfire.symm.trans hfound) (by decide)

/-- The position wraps without a hit, and no block 1 is ready. -/
theorem Holds.wrap (h : Holds w) (hlock : Locking w) (hrun : w.rx.demux.state = .run)
    (hv : i.dibitValid = true) (hfire : w.rx.det.syncFire i = false) (hpos : w.pos = 254)
    (htime : OnTime w i) : Holds (w.step i) := by
  have hnext : (w.step i).pos = 0 := by
    rw [pos_valid hv hfire (by omega), if_pos hpos]
  constructor
  · rw [hnext]
    exact inWindow_before _ _ _ (by decide)
  · rw [hnext]
    exact inWindow_before _ _ _ (by decide)
  · intro _ _
    rw [hnext]
    exact inWindow_before _ _ _ (Nat.le_refl 0)
  · rw [captured_step hrun, ready_step hrun, Bool.or_eq_true]
    split
    · exact .inr
    · exact fun hready => .inr (h.ready hready)
  · intro hfound
    exact absurd (hfire.symm.trans hfound) (by decide)
  · intro _ hready
    rw [ready_step hrun] at hready
    cases hfound : w.rx.det.syncFound with
    | true => exact absurd ((hlock.found hfound).1.symm.trans hpos) (by decide)
    | false =>
      rw [hfound, if_neg Bool.false_ne_true] at hready
      exact absurd (hfire.symm.trans ((htime hrun hv).2 hpos hready)) (by decide)

theorem Holds.step (h : w.rx.demux.state = .run → Holds w) (hlock : Locking w)
    (htime : OnTime w i) (hrun' : (w.step i).rx.demux.state = .run) : Holds (w.step i) := by
  cases hrun : w.rx.demux.state with
  | hunt => exact holds_start hlock hrun hrun'
  | run =>
    cases hv : i.dibitValid with
    | false => exact (h hrun).idle hlock hrun hv
    | true =>
      cases hfire : w.rx.det.syncFire i with
      | true => exact (h hrun).hit hlock hrun hfire htime
      | false =>
        by_cases hpos : w.pos = 254
        · exact (h hrun).wrap hlock hrun hv hfire hpos htime
        · exact (h hrun).advance hlock hrun hv hfire hpos

theorem Holds.presented (h : w.rx.demux.state = .run → Holds w) (hlock : Locking w)
    (hvalid : (w.step i).rx.demux.slotValid = true) : (w.step i).FromSlot w.origin := by
  have hemit : w.rx.demux.emitBurst i w.rx.det.slotPosition = true := hvalid
  have hfields : (w.pos = BurstDemux.EMIT_POS ∧ i.dibitValid = true) ∧
      w.rx.demux.block1Ready = true ∧ w.rx.demux.state = .run := by
    simpa [BurstDemux.emitBurst, pos, and_assoc] using hemit
  obtain ⟨⟨hpos, -⟩, hready, hrun⟩ := hfields
  rw [BurstDemux.EMIT_POS] at hpos
  have hholds := h hrun
  have hfound : w.rx.det.syncFound = false := by
    by_contra hyes
    rw [Bool.not_eq_false] at hyes
    exact absurd ((hlock.found hyes).1.symm.trans hpos) (by decide)
  obtain ⟨hhit, hlat⟩ := hholds.latched hfound hready
  have hbb := hholds.bb (hholds.ready hready) (by omega)
  have hblock2 := hholds.block2
  rw [hpos] at hbb hblock2
  have horigin : w.origin = w.dibits.length - 123 := by rw [origin, hpos]
  refine ⟨hits_mono w i hhit, ?_, ?_, ?_⟩
  · have hdata : (w.step i).rx.demux.block1Data = w.rx.demux.block1Lat := if_pos hemit
    rw [hdata]
    exact hlat.mono (dibits_mono w i)
  · have hdata : (w.step i).rx.demux.bbData = w.rx.demux.bbShift := if_pos hemit
    rw [hdata, horigin]
    exact hbb.mono (dibits_mono w i)
  · have hdata : (w.step i).rx.demux.block2Data = w.rx.demux.block2Shift := if_pos hemit
    rw [hdata, horigin]
    exact hblock2.mono (dibits_mono w i)

/-- Everything that a run keeps. -/
structure Inv (w : WatchedReceiver) : Prop where
  locking : Locking w
  holds : w.rx.demux.state = .run → Holds w
  associated : Associated w

theorem inv_reset : Inv reset :=
  ⟨locking_reset, fun h => absurd h (by decide), fun h => absurd h (by decide)⟩

theorem Inv.step (h : Inv w) (i : DibitInput) (htime : OnTime w i) : Inv (w.step i) :=
  ⟨h.locking.step i, Holds.step h.holds h.locking htime,
    fun hvalid => ⟨w.origin, Holds.presented h.holds h.locking hvalid⟩⟩

theorem exec_rx (w : WatchedReceiver) (is : List DibitInput) :
    (exec step w is).rx = exec BurstReceiver.step w.rx is := by
  induction is generalizing w with
  | nil => rfl
  | cons i is ih => exact ih (w.step i)

theorem exec_dibits (w : WatchedReceiver) {is : List DibitInput}
    (h : ∀ i ∈ is, i.dibitValid = true) :
    (exec step w is).dibits = w.dibits ++ is.map DibitInput.dibitIn := by
  induction is generalizing w with
  | nil => exact (List.append_nil _).symm
  | cons i is ih =>
    rw [exec, ih _ fun j hj => h j (List.mem_cons_of_mem i hj), step_dibits,
      h i List.mem_cons_self, if_pos rfl, List.append_assoc]
    rfl

theorem corr_le (window : BitVec 76) {n : Nat} (ref : BitVec n) :
    SyncDetect.corr window ref ≤ n / 2 := by
  have hle := (List.range (n / 2)).countP_le_length
    (p := fun k => decide (symbol (window.setWidth n ^^^ ref) k = 0))
  rwa [List.length_range] at hle

/-- No training sequence reaches a threshold of 63. -/
theorem syncFire_high {s : SyncDetect} (h : i.corrThreshold = 63) : s.syncFire i = false := by
  have hsel : s.corrSel i ≤ 19 := by
    rw [SyncDetect.corrSel]
    split
    · exact (corr_le _ _).trans (by decide)
    · split
      · exact (corr_le _ _).trans (by decide)
      · exact (corr_le _ _).trans (by decide)
  have hmiss : s.threshHit i = false := by
    rw [SyncDetect.threshHit, h]
    exact decide_eq_false (by show ¬ 63 ≤ _; omega)
  rw [SyncDetect.syncFire, hmiss, Bool.false_and, Bool.false_and]

theorem exec_hits_high (w : WatchedReceiver) {is : List DibitInput}
    (h : ∀ i ∈ is, i.corrThreshold = 63) : (exec step w is).hits = w.hits := by
  induction is generalizing w with
  | nil => rfl
  | cons i is ih =>
    rw [exec, ih _ fun j hj => h j (List.mem_cons_of_mem i hj), step,
      syncFire_high (h i List.mem_cons_self), if_neg Bool.false_ne_true]

theorem hits_le (is : List DibitInput) :
    ∀ z ∈ (exec step reset is).hits, z ≤ (exec step reset is).dibits.length := by
  refine exec_invariant (P := fun _ _ => True)
    (fun w : WatchedReceiver => ∀ z ∈ w.hits, z ≤ w.dibits.length)
    (fun w i hle _ z hz => ?_) (by decide) (along_true _ _ _)
  have hmono := (dibits_mono w i).length_le
  rw [step] at hz
  dsimp only at hz
  split at hz
  · rename_i hfire
    obtain hold | hnew := List.mem_append.1 hz
    · exact (hle z hold).trans hmono
    · rw [List.mem_singleton.1 hnew, step_dibits, fire_valid hfire, if_pos rfl, List.length_append,
        List.length_singleton]
  · exact (hle z hz).trans hmono

/-! A training sequence that is missed after the lock. -/

/-- The symbol `d` under a threshold that is never or always reached. -/
def quiet (d : BitVec 2) : DibitInput := ⟨d, true, 63, 0⟩
def forced : DibitInput := ⟨0, true, 0, 0⟩

/-- Hits in four frames lead to the lock, and one more in the slot after it to a block 1. -/
def lockedRun : List DibitInput :=
  forced :: (List.replicate 3 (List.replicate 1019 (quiet 0) ++ [forced])).flatten ++
    (List.replicate 254 (quiet 0) ++ [forced])

/-- The next training sequence is missed. -/
def missedRun : List DibitInput := List.replicate 255 (quiet 0) ++ List.replicate 124 (quiet 3)

set_option maxRecDepth 100000 in
theorem missed_presents :
    (exec BurstReceiver.step .reset (lockedRun ++ missedRun)).demux.slotValid = true ∧
      symbol (exec BurstReceiver.step .reset (lockedRun ++ missedRun)).demux.bbData 0 = 3 := by
  decide +kernel

end WatchedReceiver
end TetraBs.Phy
