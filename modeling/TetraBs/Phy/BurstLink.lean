import Mathlib.Data.List.Forall2
import TetraBs.Lib.Serializer
import TetraBs.Lmac.BurstBuilder
import TetraBs.Phy.BurstAssociation

/-! The symbols of `tetra_burst_builder` fed to `tetra_sync_detect` and `tetra_burst_demux`: what the
receiver makes of normal bursts. -/
namespace TetraBs.Phy
open TetraBs.Lmac TetraBs.Run TetraBs.Serial TetraBs.SymbolShift

structure BurstLink where
  tx : WatchedBuilder
  rx : WatchedReceiver

namespace BurstLink

/-- All eleven symbols of the normal training sequence must match. -/
def input (l : BurstLink) : DibitInput :=
  ⟨l.tx.builder.txDibit, l.tx.builder.txDibitValid, 11, 0⟩

def step (l : BurstLink) (i : BuildInput) : BurstLink where
  tx := l.tx.step i
  rx := l.rx.step l.input

/-- A reset builder next to any receiver. -/
def start (rx : BurstReceiver) : BurstLink := ⟨.reset, ⟨rx, [], []⟩⟩

/-- The fields that each `slot_valid` presents. -/
def presented : Reader BurstLink BuildInput NdbSlot where
  next := step
  out l i :=
    let demux := (l.step i).rx.rx.demux
    if demux.slotValid then [⟨demux.block1Data, demux.block2Data, demux.bbData⟩] else []

/-- The training sequence ends with symbol 132 of each slot; the detector hits there and nowhere
else. -/
def Detects (l : BurstLink) (i : BuildInput) : Prop :=
  WatchedBuilder.Normal i ∧ (l.input.dibitValid = true →
    (l.rx.rx.det.syncFire l.input = true ↔ l.rx.dibits.length % 255 = 132))

/-- The number of slots of which the receiver has seen the two symbols after the last one. -/
def finished (l : BurstLink) : Nat := (l.rx.dibits.length - 2) / 255

/-- A run `is` from a hit of the locked receiver to its next hit, and a run `js` after it. -/
structure LockedRun (rx : BurstReceiver) (pre is js : List BuildInput) : Prop where
  normal : ∀ i ∈ pre, WatchedBuilder.Normal i
  locked : (exec step (start rx) pre).rx.rx.det.lockState = .lock ∧
    (exec step (start rx) pre).rx.rx.det.syncLocked = true ∧
    (exec step (start rx) pre).rx.rx.demux.state = .run
  hit : (exec step (start rx) pre).rx.rx.det.syncFire (exec step (start rx) pre).input = true
  slot : (exec step (start rx) (pre ++ is)).rx.rx.det.syncFound = true ∧
    (exec step (start rx) (pre ++ is)).rx.dibits.length =
      (exec step (start rx) pre).rx.dibits.length + 256
  detects : Along step Detects (exec step (start rx) pre) (is ++ js)

/-- After it the receiver yields the slots of the builder as they are finished. -/
def Yields (rx : BurstReceiver) (pre is js : List BuildInput) : Prop :=
  let l := exec step (start rx) (pre ++ is)
  let l' := exec step (start rx) (pre ++ is ++ js)
  presented.outputs l js = (l'.tx.slots.drop l.finished).take (l'.finished - l.finished)

/-- The one payload that the shifted windows of the receiver do not change. -/
def fixedSlot : NdbSlot where
  block1 := 0xB4B4B4B4B4B4B4B4B4B4B4B4B4B4B4B4B4B4B4B4B4B4B4B4B4B4B4#216
  block2 := 0xC0B702DC0B702DC0B702DC0B702DC0B702DC0B702DC0B702DC0B70#216
  bb := 0x1C0B702D#30

end BurstLink

/-! The burst by symbols, the last one first. -/

namespace BurstLink
open BurstBuilder

section
variable (p : NdbSlot) (nts : BitVec 22)

theorem burst_tail2 {j : Nat} (hj : j < 5) : symbol (ndbBurst p nts) j = symbol TAIL2 j :=
  symbol_append_low _ _ (by omega)

theorem burst_after (j : Nat) : symbol (ndbBurst p nts) (5 + j) =
    symbol (TAIL1 ++ PADJ ++ p.block1 ++ p.bb.extractLsb' 16 14 ++ nts ++ p.bb.extractLsb' 0 16 ++
      p.block2 ++ PADJ) j := symbol_append_high (c := 5) _ TAIL2 j

theorem burst_padj2 : symbol (ndbBurst p nts) 5 = 0 := by
  rw [burst_after p nts 0, symbol_append_low _ _ (by decide)]
  rfl

theorem burst_block2 {j : Nat} (hj : j < 108) :
    symbol (ndbBurst p nts) (6 + j) = symbol p.block2 j := by
  rw [(by omega : 6 + j = 5 + (1 + j)), burst_after, symbol_append_high (c := 1) _ PADJ j,
    symbol_append_low _ _ (by omega)]

theorem burst_bb {j : Nat} (hj : j < 8) :
    symbol (ndbBurst p nts) (114 + j) = symbol p.bb j := by
  rw [(by omega : 114 + j = 5 + (1 + (108 + j))), burst_after, symbol_append_high (c := 1) _ PADJ,
    symbol_append_high (c := 108) _ p.block2, symbol_append_low _ _ (by omega),
    symbol_extract p.bb 0 (by omega), Nat.zero_add]

theorem burst_front (j : Nat) : symbol (ndbBurst p nts) (140 + j) =
    symbol (TAIL1 ++ PADJ ++ p.block1) j := by
  rw [(by omega : 140 + j = 5 + (1 + (108 + (8 + (11 + (7 + j)))))), burst_after,
    symbol_append_high (c := 1) _ PADJ, symbol_append_high (c := 108) _ p.block2,
    symbol_append_high (c := 8) _ (p.bb.extractLsb' 0 16), symbol_append_high (c := 11) _ nts,
    symbol_append_high (c := 7) _ (p.bb.extractLsb' 16 14)]

theorem burst_block1 {j : Nat} (hj : j < 108) :
    symbol (ndbBurst p nts) (140 + j) = symbol p.block1 j := by
  rw [burst_front, symbol_append_low _ _ (by omega)]

theorem burst_tail1 (j : Nat) :
    symbol (ndbBurst p nts) (248 + j) = symbol (TAIL1 ++ PADJ) j := by
  rw [(by omega : 248 + j = 140 + (108 + j)), burst_front,
    symbol_append_high (c := 108) _ p.block1]

end

/-! What the windows of the receiver make of a burst. -/

/-- The relations between the symbols of a payload that the shifted windows leave. -/
structure Periodic (p : NdbSlot) : Prop where
  block1 : ∀ j < 104, symbol p.block1 (4 + j) = symbol p.block1 j
  block1_top : ∀ j < 4, symbol (TAIL1 ++ PADJ) j = symbol p.block1 (104 + j)
  bb : ∀ j < 7, symbol p.block2 (101 + j) = symbol p.bb j
  bb_top : ∀ j < 8, symbol p.bb j = symbol p.bb (7 + j)
  block2_low : symbol TAIL1 5 = symbol p.block2 0 ∧
    (∀ j < 5, symbol TAIL2 j = symbol p.block2 (1 + j)) ∧ 0 = symbol p.block2 6
  block2 : ∀ j < 101, symbol p.block2 j = symbol p.block2 (7 + j)

theorem periodic_fixedSlot : Periodic fixedSlot where
  block1 := by decide
  block1_top := by decide
  bb := by decide
  bb_top := by decide
  block2_low := by decide
  block2 := by decide

theorem Periodic.eq {p q : NdbSlot} (hp : Periodic p) (hq : Periodic q) : p = q := by
  have hblock1 : p.block1 = q.block1 := by
    refine eq_of_symbols (m := 108) fun j hj => ?_
    -- from the top down
    induction hk : 107 - j using Nat.strong_induction_on generalizing j with
    | _ k ih =>
      by_cases htop : j < 104
      · rw [← hp.block1 j htop, ← hq.block1 j htop]
        exact ih (107 - (4 + j)) (by omega) (4 + j) (by omega) rfl
      · obtain ⟨t, rfl⟩ := Nat.exists_eq_add_of_le (Nat.le_of_not_lt htop)
        rw [← hp.block1_top t (by omega), ← hq.block1_top t (by omega)]
  have hblock2 : p.block2 = q.block2 := by
    refine eq_of_symbols (m := 108) fun j hj => ?_
    induction j using Nat.strong_induction_on with
    | _ j ih =>
      by_cases hlow : 7 ≤ j
      · obtain ⟨t, rfl⟩ := Nat.exists_eq_add_of_le hlow
        rw [← hp.block2 t (by omega), ← hq.block2 t (by omega)]
        exact ih t (by omega) (by omega)
      · obtain ⟨hzero, htail, hsix⟩ := hp.block2_low
        obtain ⟨hzero', htail', hsix'⟩ := hq.block2_low
        cases j with
        | zero => exact hzero.symm.trans hzero'
        | succ j =>
          by_cases hj5 : j < 5
          · rw [Nat.add_comm j 1, ← htail j hj5, ← htail' j hj5]
          · obtain rfl : j = 5 := by omega
            exact hsix.symm.trans hsix'
  have hbb : p.bb = q.bb := by
    refine eq_of_symbols (m := 15) fun j hj => ?_
    have hlow : ∀ t < 7, symbol p.bb t = symbol q.bb t := fun t ht => by
      rw [← hp.bb t ht, ← hq.bb t ht, hblock2]
    by_cases hj7 : j < 7
    · exact hlow j hj7
    · obtain ⟨t, rfl⟩ := Nat.exists_eq_add_of_le (Nat.le_of_not_lt hj7)
      rw [← hp.bb_top t (by omega), ← hq.bb_top t (by omega)]
      by_cases ht : t < 7
      · exact hlow t ht
      · obtain rfl : t = 7 := by omega
        exact (hp.bb_top 0 (by omega)).symm.trans ((hlow 0 (by omega)).trans (hq.bb_top 0 (by omega)))
  cases p
  cases q
  simp_all

/-- The fields of the windows around the end of the training sequence of slot `k`. -/
structure Presents (ds : List (BitVec 2)) (k : Nat) (out : NdbSlot) : Prop where
  block1 : Newest out.block1 ds (255 * k + 111) 108
  bb : Newest out.bb ds (255 * k + 148) 15
  block2 : Newest out.block2 ds (255 * k + 256) 108

theorem Presents.mono {ds es : List (BitVec 2)} {k : Nat} {out : NdbSlot} (h : Presents ds k out)
    (hpre : ds <+: es) : Presents es k out :=
  ⟨h.block1.mono hpre, h.bb.mono hpre, h.block2.mono hpre⟩

theorem stream_symbol {ps : List NdbSlot} {p : NdbSlot} {k j : Nat} (hp : ps[k]? = some p)
    (hj : j < 255) : (ps.flatMap NdbSlot.symbols)[255 * k + j]? =
      some (symbol (ndbBurst p NTS1_REF) (254 - j)) := by
  induction ps generalizing k with
  | nil => cases hp
  | cons q ps ih =>
    rw [List.flatMap_cons]
    cases k with
    | zero =>
      obtain rfl : q = p := by simpa using hp
      rw [Nat.mul_zero, Nat.zero_add,
        List.getElem?_append_left (by rw [WatchedBuilder.symbols_length]; exact hj)]
      simp [NdbSlot.symbols, hj]
    | succ k =>
      rw [List.getElem?_append_right (by rw [WatchedBuilder.symbols_length]; omega),
        WatchedBuilder.symbols_length, (by omega : 255 * (k + 1) + j - 255 = 255 * k + j)]
      exact ih (by simpa using hp)

section
variable {ps : List NdbSlot} {p q out : NdbSlot} {k : Nat}
  (h : Presents (ps.flatMap NdbSlot.symbols) k out) (hp : ps[k]? = some p)
include h hp

/-- The window of block 1 begins in the tail bits. -/
theorem Presents.symbol_block1 {j : Nat} (hj : j < 108) :
    symbol out.block1 j = symbol (ndbBurst p NTS1_REF) (144 + j) := by
  have hsym := h.block1.2 j hj
  rw [(by omega : 255 * k + 111 - 1 - j = 255 * k + (110 - j)), stream_symbol hp (by omega),
    (by omega : 254 - (110 - j) = 144 + j)] at hsym
  exact (Option.some.inj hsym).symm

theorem Presents.symbol_bb {j : Nat} (hj : j < 15) :
    symbol out.bb j = symbol (ndbBurst p NTS1_REF) (107 + j) := by
  have hsym := h.bb.2 j hj
  rw [(by omega : 255 * k + 148 - 1 - j = 255 * k + (147 - j)), stream_symbol hp (by omega),
    (by omega : 254 - (147 - j) = 107 + j)] at hsym
  exact (Option.some.inj hsym).symm

theorem Presents.symbol_block2 {j : Nat} (hj : j < 107) :
    symbol out.block2 (j + 1) = symbol (ndbBurst p NTS1_REF) j := by
  have hsym := h.block2.2 (j + 1) (by omega)
  rw [(by omega : 255 * k + 256 - 1 - (j + 1) = 255 * k + (254 - j)), stream_symbol hp (by omega),
    (by omega : 254 - (254 - j) = j)] at hsym
  exact (Option.some.inj hsym).symm

omit hp in
/-- The window of block 2 ends in the next slot. -/
theorem Presents.symbol_block2_zero (hq : ps[k + 1]? = some q) :
    symbol out.block2 0 = symbol (ndbBurst q NTS1_REF) 254 := by
  have hsym := h.block2.2 0 (by decide)
  rw [(by omega : 255 * k + 256 - 1 - 0 = 255 * (k + 1) + 0), stream_symbol hq (by decide)] at hsym
  exact (Option.some.inj hsym).symm

theorem Presents.eq_iff (hq : ps[k + 1]? = some q) : out = p ↔ p = fixedSlot := by
  have hblock1_low : ∀ j < 104, symbol out.block1 j = symbol p.block1 (4 + j) := fun j hj => by
    rw [h.symbol_block1 hp (by omega), (by omega : 144 + j = 140 + (4 + j)),
      burst_block1 _ _ (by omega)]
  have hblock1_top : ∀ j < 4, symbol out.block1 (104 + j) = symbol (TAIL1 ++ PADJ) j := fun j hj => by
    rw [h.symbol_block1 hp (by omega), (by omega : 144 + (104 + j) = 248 + j), burst_tail1]
  have hbb_low : ∀ j < 7, symbol out.bb j = symbol p.block2 (101 + j) := fun j hj => by
    rw [h.symbol_bb hp (by omega), (by omega : 107 + j = 6 + (101 + j)), burst_block2 _ _ (by omega)]
  have hbb_top : ∀ j < 8, symbol out.bb (7 + j) = symbol p.bb j := fun j hj => by
    rw [h.symbol_bb hp (by omega), (by omega : 107 + (7 + j) = 114 + j), burst_bb _ _ hj]
  have hblock2_zero : symbol out.block2 0 = symbol TAIL1 5 := by
    rw [h.symbol_block2_zero hq, (by rfl : 254 = 248 + 6), burst_tail1]
    exact symbol_append_high (c := 1) _ PADJ 5
  have hblock2_low : ∀ j < 5, symbol out.block2 (1 + j) = symbol TAIL2 j := fun j hj => by
    rw [Nat.add_comm, h.symbol_block2 hp (by omega), burst_tail2 _ _ hj]
  have hblock2_six : symbol out.block2 6 = 0 := by
    rw [h.symbol_block2 hp (j := 5) (by omega), burst_padj2]
  have hblock2 : ∀ j < 101, symbol out.block2 (7 + j) = symbol p.block2 j := fun j hj => by
    rw [(by omega : 7 + j = 6 + j + 1), h.symbol_block2 hp (by omega), burst_block2 _ _ (by omega)]
  constructor
  · rintro rfl
    refine Periodic.eq ⟨fun j hj => (hblock1_low j hj).symm, fun j hj => (hblock1_top j hj).symm,
      fun j hj => (hbb_low j hj).symm, fun j hj => (hbb_top j hj).symm,
      ⟨hblock2_zero.symm, fun j hj => (hblock2_low j hj).symm, hblock2_six.symm⟩,
      fun j hj => (hblock2 j hj).symm⟩ periodic_fixedSlot
  · rintro rfl
    have hfix := periodic_fixedSlot
    have hblock1' : out.block1 = fixedSlot.block1 := eq_of_symbols (m := 108) fun j hj => by
      by_cases hlow : j < 104
      · rw [hblock1_low j hlow, hfix.block1 j hlow]
      · obtain ⟨t, rfl⟩ := Nat.exists_eq_add_of_le (Nat.le_of_not_lt hlow)
        rw [hblock1_top t (by omega), hfix.block1_top t (by omega)]
    have hbb' : out.bb = fixedSlot.bb := eq_of_symbols (m := 15) fun j hj => by
      by_cases hlow : j < 7
      · rw [hbb_low j hlow, hfix.bb j hlow]
      · obtain ⟨t, rfl⟩ := Nat.exists_eq_add_of_le (Nat.le_of_not_lt hlow)
        rw [hbb_top t (by omega), hfix.bb_top t (by omega)]
    have hblock2' : out.block2 = fixedSlot.block2 := eq_of_symbols (m := 108) fun j hj => by
      obtain ⟨hzero, htail, hsix⟩ := hfix.block2_low
      by_cases hlow : 7 ≤ j
      · obtain ⟨t, rfl⟩ := Nat.exists_eq_add_of_le hlow
        rw [hblock2 t (by omega), hfix.block2 t (by omega)]
      · cases j with
        | zero => exact hblock2_zero.trans hzero
        | succ j =>
          by_cases hj5 : j < 5
          · rw [Nat.add_comm j 1, hblock2_low j hj5, htail j hj5]
          · obtain rfl : j = 5 := by omega
            exact hblock2_six.trans hsix
    cases out
    simp_all

end

/-! The run of builder and receiver. -/

/-- What the builder has put out, the symbol in its output register included. -/
def sent (l : BurstLink) : List (BitVec 2) :=
  l.rx.dibits ++ if l.tx.builder.txDibitValid then [l.tx.builder.txDibit] else []

variable {l : BurstLink} {i : BuildInput}

theorem sent_step (l : BurstLink) (i : BuildInput) :
    (l.step i).sent = l.sent ++ WatchedBuilder.put l.tx i := by
  have hdibits : (l.step i).rx.dibits = l.sent := by
    rw [step, WatchedReceiver.step_dibits, sent, input]
    dsimp only
    split
    · rfl
    · exact (List.append_nil _).symm
  rw [sent, hdibits]
  congr 1
  cases hen : l.tx.builder.symEn i with
  | false => simp [step, WatchedBuilder.step, BurstBuilder.step, WatchedBuilder.put, hen]
  | true => simp [step, WatchedBuilder.step, BurstBuilder.step, WatchedBuilder.put, hen]

/-- The receiver sees the symbols of the bursts in order. -/
def Linked (l : BurstLink) : Prop := WatchedBuilder.Sends l.tx l.sent

theorem linked_start (rx : BurstReceiver) : Linked (start rx) := WatchedBuilder.sends_reset

theorem Linked.step (h : Linked l) (hi : WatchedBuilder.Normal i) : Linked (l.step i) := by
  rw [Linked, sent_step]
  exact WatchedBuilder.Sends.step h hi

theorem Linked.prefixed (h : Linked l) : l.rx.dibits <+: l.tx.stream :=
  (List.prefix_append _ _).trans (WatchedBuilder.Sends.prefixed h)

/-- The locked receiver within a slot; the position counts from the end of the training sequence. -/
structure Control (w : WatchedReceiver) : Prop where
  lockState : w.rx.det.lockState = .lock
  syncLocked : w.rx.det.syncLocked = true
  run : w.rx.demux.state = .run
  pos : w.pos ≤ 254 ∧ w.pos ≤ w.dibits.length
  spacingCnt : w.rx.det.spacingCnt = w.pos
  symbol : w.dibits.length % 255 = (w.pos + 133) % 255

theorem Control.fire_iff (h : Control l.rx) (hd : Detects l i) (hv : l.input.dibitValid = true) :
    l.rx.rx.det.syncFire l.input = true ↔ l.rx.pos = 254 := by
  have hsym := h.symbol
  have hpos := h.pos
  rw [hd.2 hv]
  omega

theorem Control.onTime (h : Control l.rx) (hd : Detects l i) :
    WatchedReceiver.OnTime l.rx l.input :=
  fun _ hv => ⟨fun hfire _ => (h.fire_iff hd hv).1 hfire, fun hlast _ => (h.fire_iff hd hv).2 hlast⟩

theorem Control.state_step (h : Control l.rx) (i : DibitInput) :
    (l.rx.step i).rx.det.syncLocked = true ∧ (l.rx.step i).rx.demux.state = .run := by
  constructor
  · simp [WatchedReceiver.step, BurstReceiver.step, SyncDetect.step, h.lockState]
  · simp [WatchedReceiver.step, BurstReceiver.step, BurstDemux.step, h.run, h.syncLocked]

/-- After a hit. -/
theorem control_hit {w : WatchedReceiver} {i : DibitInput} (hlock : w.rx.det.lockState = .lock)
    (hlocked : w.rx.det.syncLocked = true) (hrun : w.rx.demux.state = .run)
    (hfire : w.rx.det.syncFire i = true) (hsym : w.dibits.length % 255 = 132) :
    Control (w.step i) := by
  have hv := WatchedReceiver.fire_valid hfire
  have hpos := WatchedReceiver.pos_fire hfire
  constructor
  · simp [WatchedReceiver.step, BurstReceiver.step, SyncDetect.step, SyncDetect.nextLockState,
      hlock, hfire]
  · simp [WatchedReceiver.step, BurstReceiver.step, SyncDetect.step, hlock]
  · simp [WatchedReceiver.step, BurstReceiver.step, BurstDemux.step, hrun, hlocked]
  · omega
  · rw [hpos]
    simp [WatchedReceiver.step, BurstReceiver.step, SyncDetect.step, hv, hfire]
  · rw [hpos, WatchedReceiver.step_dibits, if_pos hv, List.length_append, List.length_singleton]
    omega

theorem Control.step (h : Control l.rx) (hd : Detects l i) : Control (l.step i).rx := by
  have hpos := h.pos
  have hsp := h.spacingCnt
  obtain ⟨hlocked, hrun⟩ := h.state_step l.input
  cases hv : l.input.dibitValid with
  | false =>
    have hpos' : (l.step i).rx.pos = l.rx.pos := WatchedReceiver.pos_idle hv
    have hds : (l.step i).rx.dibits = l.rx.dibits := if_neg (by rw [hv]; decide)
    refine ⟨?_, hlocked, hrun, ?_, ?_, ?_⟩
    · simp [BurstLink.step, WatchedReceiver.step, BurstReceiver.step, SyncDetect.step,
        SyncDetect.nextLockState, h.lockState, hv]
    · rw [hpos', hds]
      exact hpos
    · rw [hpos', ← hsp]
      simp [BurstLink.step, WatchedReceiver.step, BurstReceiver.step, SyncDetect.step, hv]
    · rw [hpos', hds]
      exact h.symbol
  | true =>
    cases hfire : l.rx.rx.det.syncFire l.input with
    | true => exact control_hit h.lockState h.syncLocked h.run hfire ((hd.2 hv).1 hfire)
    | false =>
      have hlast : l.rx.pos ≠ 254 := fun hyes =>
        Bool.false_ne_true (hfire.symm.trans ((h.fire_iff hd hv).2 hyes))
      have hpos' : (l.step i).rx.pos = l.rx.pos + 1 := by
        have hval := WatchedReceiver.pos_valid hv hfire hpos.1
        rwa [if_neg hlast] at hval
      have hds : (l.step i).rx.dibits.length = l.rx.dibits.length + 1 := by
        rw [BurstLink.step, WatchedReceiver.step_dibits, if_pos hv, List.length_append,
          List.length_singleton]
      have htime : l.rx.rx.det.spacingTimeout = false :=
        decide_eq_false (by rw [hsp, SyncDetect.LOCK_TIMEOUT]; omega)
      refine ⟨?_, hlocked, hrun, ?_, ?_, ?_⟩
      · simp [BurstLink.step, WatchedReceiver.step, BurstReceiver.step, SyncDetect.step,
          SyncDetect.nextLockState, h.lockState, htime]
      · omega
      · rw [hpos', ← hsp]
        have hlt : l.rx.rx.det.spacingCnt < 4095 := by omega
        simp [BurstLink.step, WatchedReceiver.step, BurstReceiver.step, SyncDetect.step, hv, hfire,
          hlt]
      · have hsym := h.symbol
        omega

/-- The first slot after the lock: block 1 of the next one is being captured. -/
structure Filling (w : WatchedReceiver) : Prop where
  control : Control w
  pend : InWindow w.rx.demux.block1Pend w.dibits w.pos 125 232
  captured : 233 ≤ w.pos → w.rx.demux.block1Captured = true

theorem Filling.step (h : Filling l.rx) (hd : Detects l i)
    (hlast : l.input.dibitValid = true → l.rx.pos ≠ 254) : Filling (l.step i).rx ∧
      (l.step i).rx.dibits.length + l.rx.pos = l.rx.dibits.length + (l.step i).rx.pos := by
  have hctl := h.control
  have hpos := hctl.pos
  cases hv : l.input.dibitValid with
  | false =>
    have hpos' : (l.step i).rx.pos = l.rx.pos := WatchedReceiver.pos_idle hv
    have hds : (l.step i).rx.dibits = l.rx.dibits := if_neg (by rw [hv]; decide)
    refine ⟨⟨hctl.step hd, ?_, ?_⟩, by rw [hpos', hds]⟩
    · have hpend := (WatchedReceiver.shifts_idle (w := l.rx) hv).1
      rw [hpos', hds, BurstLink.step, hpend]
      exact h.pend
    · rw [hpos', BurstLink.step, WatchedReceiver.captured_step hctl.run, hv, Bool.and_false,
        Bool.false_or]
      exact h.captured
  | true =>
    have hfire : l.rx.rx.det.syncFire l.input = false := by
      by_contra hyes
      rw [Bool.not_eq_false] at hyes
      exact hlast hv ((hctl.fire_iff hd hv).1 hyes)
    have hpos' : (l.step i).rx.pos = l.rx.pos + 1 := by
      have hval := WatchedReceiver.pos_valid hv hfire hpos.1
      rwa [if_neg (hlast hv)] at hval
    have hds : (l.step i).rx.dibits = l.rx.dibits ++ [l.input.dibitIn] := by
      rw [BurstLink.step, WatchedReceiver.step_dibits, if_pos hv]
    refine ⟨⟨hctl.step hd, ?_, fun hge => ?_⟩, ?_⟩
    · rw [hpos', hds, BurstLink.step, WatchedReceiver.pend_step hctl.run hv]
      exact h.pend.advance hpos.2 (by decide) _
    · rw [BurstLink.step, WatchedReceiver.captured_step hctl.run, hv, Bool.and_true, Bool.or_eq_true,
        decide_eq_true_iff]
      by_cases hnow : l.rx.pos = 232
      · exact .inl hnow
      · exact .inr (h.captured (by omega))
    · rw [hpos', hds, List.length_append, List.length_singleton]
      omega

theorem exec_dibits_mono (l : BurstLink) (is : List BuildInput) :
    l.rx.dibits <+: (exec step l is).rx.dibits := by
  induction is generalizing l with
  | nil => exact List.prefix_refl _
  | cons i is ih => exact (WatchedReceiver.dibits_mono l.rx l.input).trans (ih (l.step i))

theorem Filling.run {n : Nat} (h : Filling l.rx) (hlen : l.rx.dibits.length = n + l.rx.pos)
    {is : List BuildInput} (hd : Along BurstLink.step Detects l is)
    (hend : (exec BurstLink.step l is).rx.dibits.length ≤ n + 254) :
    Filling (exec BurstLink.step l is).rx ∧ (exec BurstLink.step l is).rx.dibits.length =
      n + (exec BurstLink.step l is).rx.pos := by
  induction is generalizing l with
  | nil => exact ⟨h, hlen⟩
  | cons i is ih =>
    have hmono := (exec_dibits_mono (l.step i) is).length_le
    obtain ⟨hnext, hnum⟩ := h.step hd.1 fun hv hlast => by
      -- a symbol at the last position would be one too many
      have hds : (l.step i).rx.dibits.length = l.rx.dibits.length + 1 := by
        rw [BurstLink.step, WatchedReceiver.step_dibits, if_pos hv, List.length_append,
          List.length_singleton]
      rw [exec] at hend
      omega
    exact ih hnext (by omega) hd.2 hend

/-- After the next hit every window of a slot comes complete. -/
structure Aligned (w : WatchedReceiver) : Prop where
  control : Control w
  locking : WatchedReceiver.Locking w
  holds : WatchedReceiver.Holds w
  captured : w.rx.demux.block1Captured = true
  ready : w.rx.det.syncFound = true ∨ w.rx.demux.block1Ready = true

theorem Control.locking_step (h : Control (l.step i).rx) : WatchedReceiver.Locking (l.step i).rx where
  pos := h.pos
  acqr hstate := absurd (h.lockState.symm.trans hstate) (by decide)
  lock _ hno := absurd (h.syncLocked.symm.trans hno) (by decide)
  locked _ hhunt := absurd (h.run.symm.trans hhunt) (by decide)
  found := WatchedReceiver.found_step

theorem Filling.hit (h : Filling l.rx) (hd : Detects l i) (hv : l.input.dibitValid = true)
    (hpos : l.rx.pos = 254) : Aligned (l.step i).rx := by
  have hctl := h.control
  have hfire := (hctl.fire_iff hd hv).2 hpos
  have hpos' : (l.step i).rx.pos = 0 := WatchedReceiver.pos_fire hfire
  have hfound : (l.step i).rx.rx.det.syncFound = true := hfire
  have hcap : (l.step i).rx.rx.demux.block1Captured = true := by
    rw [BurstLink.step, WatchedReceiver.captured_step hctl.run, h.captured (by omega), Bool.or_true]
  have hds : (l.step i).rx.dibits = l.rx.dibits ++ [l.input.dibitIn] := by
    rw [BurstLink.step, WatchedReceiver.step_dibits, if_pos hv]
  refine ⟨hctl.step hd, (hctl.step hd).locking_step, ?_, hcap, .inl hfound⟩
  refine ⟨?_, ?_, fun _ _ => ?_, fun _ => hcap, fun _ _ => ?_, fun hno => ?_⟩
  · rw [hpos']
    exact inWindow_before _ _ _ (by decide)
  · rw [hpos']
    exact inWindow_before _ _ _ (by decide)
  · rw [hpos']
    exact inWindow_before _ _ _ (Nat.le_refl 0)
  · have hpend := h.pend.mono (WatchedReceiver.dibits_mono l.rx l.input)
    have hlen := hctl.pos.2
    rw [hpos] at hpend hlen
    have hkeep : (l.step i).rx.rx.demux.block1Pend = l.rx.rx.demux.block1Pend := by
      rw [BurstLink.step, WatchedReceiver.pend_step hctl.run hv, if_neg (by omega)]
    have hend : (l.step i).rx.dibits.length - 22 =
        l.rx.dibits.length - 254 + min 254 (232 + 1) := by
      rw [hds, List.length_append, List.length_singleton]
      omega
    rw [hkeep, hend]
    exact hpend
  · exact absurd (hfound.symm.trans hno) (by decide)

theorem Aligned.step (h : Aligned l.rx) (hd : Detects l i) : Aligned (l.step i).rx where
  control := h.control.step hd
  locking := (h.control.step hd).locking_step
  holds := WatchedReceiver.Holds.step (fun _ => h.holds) h.locking (h.control.onTime hd)
    (h.control.step hd).run
  captured := by
    rw [BurstLink.step, WatchedReceiver.captured_step h.control.run, h.captured, Bool.or_true]
  ready := by
    refine .inr ?_
    rw [BurstLink.step, WatchedReceiver.ready_step h.control.run]
    split
    · exact h.captured
    · exact h.ready.resolve_left ‹_›

/-- A slot is presented when the second symbol after it has come. -/
theorem Aligned.out (h : Aligned l.rx) (i : BuildInput) :
    (presented.out l i = [] ∧ (l.step i).finished = l.finished) ∨
      ∃ out, presented.out l i = [out] ∧ (l.step i).finished = l.finished + 1 ∧
        Presents (l.step i).rx.dibits l.finished out := by
  have hctl := h.control
  have hpos := hctl.pos
  have hsym := hctl.symbol
  have hemit : (l.step i).rx.rx.demux.slotValid = true ↔
      l.rx.pos = 123 ∧ l.input.dibitValid = true ∧ l.rx.rx.demux.block1Ready = true := by
    show l.rx.rx.demux.emitBurst l.input l.rx.pos = true ↔ _
    simp only [BurstDemux.emitBurst, Bool.and_eq_true, decide_eq_true_iff, hctl.run, and_true,
      and_assoc]
    exact Iff.rfl
  cases hv : l.input.dibitValid with
  | false =>
    have hds : (l.step i).rx.dibits = l.rx.dibits := if_neg (by rw [hv]; decide)
    refine .inl ⟨?_, by rw [finished, hds, finished]⟩
    exact if_neg fun hvalid => Bool.false_ne_true (hv.symm.trans (hemit.1 hvalid).2.1)
  | true =>
    have hds : (l.step i).rx.dibits.length = l.rx.dibits.length + 1 := by
      rw [BurstLink.step, WatchedReceiver.step_dibits, if_pos hv, List.length_append,
        List.length_singleton]
    by_cases hnow : l.rx.pos = 123
    · have hready : l.rx.rx.demux.block1Ready = true := by
        refine h.ready.resolve_left fun hfound => ?_
        exact absurd ((h.locking.found hfound).1.symm.trans hnow) (by decide)
      have hvalid := hemit.2 ⟨hnow, hv, hready⟩
      have hfrom := WatchedReceiver.Holds.presented (fun _ => h.holds) h.locking hvalid
      have horigin : l.rx.origin = 255 * l.finished + 133 := by
        rw [WatchedReceiver.origin, finished]
        omega
      rw [horigin] at hfrom
      refine .inr ⟨_, if_pos hvalid, by rw [finished, hds, finished]; omega, ?_⟩
      exact ⟨hfrom.block1, hfrom.bb, hfrom.block2⟩
    · refine .inl ⟨?_, by rw [finished, hds, finished]; omega⟩
      exact if_neg fun hvalid => hnow (hemit.1 hvalid).1

theorem Linked.run (h : Linked l) {is : List BuildInput}
    (hi : ∀ i ∈ is, WatchedBuilder.Normal i) : Linked (exec BurstLink.step l is) := by
  induction is generalizing l with
  | nil => exact h
  | cons i is ih =>
    exact ih (h.step (hi i List.mem_cons_self)) fun j hj => hi j (List.mem_cons_of_mem i hj)

theorem Aligned.run (h : Aligned l.rx) {is : List BuildInput}
    (hd : Along BurstLink.step Detects l is) :
    l.finished ≤ (exec BurstLink.step l is).finished ∧
      List.Forall₂ (Presents (exec BurstLink.step l is).rx.dibits)
        (List.range' l.finished ((exec BurstLink.step l is).finished - l.finished))
        (presented.outputs l is) := by
  induction is generalizing l with
  | nil =>
    refine ⟨Nat.le_refl _, ?_⟩
    rw [exec, Nat.sub_self]
    exact .nil
  | cons i is ih =>
    obtain ⟨hle, hrest⟩ := ih (h.step hd.1) hd.2
    rw [exec, Reader.outputs]
    obtain ⟨hnone, hsame⟩ | ⟨out, hone, hnext, hpres⟩ := h.out i
    · rw [hnone, List.nil_append, ← hsame]
      exact ⟨hle, hrest⟩
    · rw [hnext] at hle hrest
      refine ⟨by omega, ?_⟩
      rw [hone, List.singleton_append, (by omega : (exec BurstLink.step (l.step i) is).finished -
        l.finished = (exec BurstLink.step (l.step i) is).finished - (l.finished + 1) + 1),
        List.range'_succ]
      exact .cons (hpres.mono (exec_dibits_mono (l.step i) is)) hrest

/-- The presented slots are the transmitted ones exactly if each of them is the fixed one. -/
theorem presents_iff {ds : List (BitVec 2)} {ps outs : List NdbSlot}
    (hpre : ds <+: ps.flatMap NdbSlot.symbols) {m c : Nat}
    (hlen : 0 < c → m + c < ps.length)
    (h : List.Forall₂ (Presents ds) (List.range' m c) outs) :
    outs = (ps.drop m).take c ↔ ∀ p ∈ (ps.drop m).take c, p = fixedSlot := by
  induction c generalizing m outs with
  | zero =>
    cases h
    simp
  | succ c ih =>
    rw [List.range'_succ, List.forall₂_cons_left_iff] at h
    obtain ⟨out, outs, hout, hrest, rfl⟩ := h
    have hlen := hlen (by omega)
    obtain ⟨p, hp⟩ : ∃ p, ps[m]? = some p := ⟨_, List.getElem?_eq_getElem (by omega)⟩
    obtain ⟨q, hq⟩ : ∃ q, ps[m + 1]? = some q := ⟨_, List.getElem?_eq_getElem (by omega)⟩
    have hdrop : ps.drop m = p :: ps.drop (m + 1) := by
      rw [List.drop_eq_getElem_cons (by omega)]
      congr 1
      exact (List.getElem?_eq_some_iff.1 hp).2
    rw [hdrop, List.take_succ_cons, List.cons.injEq, (hout.mono hpre).eq_iff hp hq,
      ih (fun _ => by omega) hrest, List.forall_mem_cons]

theorem detects_normal {is : List BuildInput} (hd : Along step Detects l is) :
    ∀ i ∈ is, WatchedBuilder.Normal i := by
  induction is generalizing l with
  | nil => exact fun i hi => absurd hi List.not_mem_nil
  | cons i is ih =>
    intro j hj
    obtain rfl | hj := List.mem_cons.1 hj
    · exact hd.1.1
    · exact ih hd.2 j hj

/-- The receiver is aligned after the second hit. -/
theorem LockedRun.aligned {rx : BurstReceiver} {pre is js : List BuildInput}
    (h : LockedRun rx pre is js) : Aligned (exec step (start rx) (pre ++ is)).rx := by
  obtain ⟨hlock, hlocked, hrun⟩ := h.locked
  obtain ⟨hfound, hlen⟩ := h.slot
  have hdet := h.detects
  have hfire := h.hit
  rw [exec_append] at hfound hlen ⊢
  generalize exec step (start rx) pre = l at hlock hlocked hrun hfound hlen hdet hfire ⊢
  have hv := WatchedReceiver.fire_valid hfire
  cases is with
  | nil => exact absurd hlen (by rw [exec]; omega)
  | cons i is =>
    obtain ⟨hd, hdet⟩ := hdet
    have hone : (l.step i).rx.dibits.length = l.rx.dibits.length + 1 := by
      rw [step, WatchedReceiver.step_dibits, if_pos hv, List.length_append, List.length_singleton]
    have hpos : (l.step i).rx.pos = 0 := WatchedReceiver.pos_fire hfire
    have hfill : Filling (l.step i).rx := by
      refine ⟨control_hit hlock hlocked hrun hfire ((hd.2 hv).1 hfire), ?_, fun hge => ?_⟩
      · rw [hpos]
        exact inWindow_before _ _ _ (by decide)
      · omega
    obtain rfl | ⟨mid, j, rfl⟩ := List.eq_nil_or_concat is
    · exact absurd hlen (by rw [exec, exec, hone]; omega)
    · -- the slot between the hits
      rw [List.concat_eq_append] at hlen hfound hdet ⊢
      rw [exec, exec_snoc] at hlen hfound ⊢
      obtain ⟨hmid, hrest⟩ := along_append.1 (along_append.1 hdet).1
      have hfire' : (exec step (l.step i) mid).rx.rx.det.syncFire
          (exec step (l.step i) mid).input = true := hfound
      have hv' := WatchedReceiver.fire_valid hfire'
      have hlast : ((exec step (l.step i) mid).step j).rx.dibits.length =
          (exec step (l.step i) mid).rx.dibits.length + 1 := by
        rw [step, WatchedReceiver.step_dibits, if_pos hv', List.length_append, List.length_singleton]
      obtain ⟨hfill', hnum⟩ := hfill.run (n := l.rx.dibits.length + 1) (by omega) hmid (by omega)
      exact hfill'.hit hrest.1 hv' (by omega)

/-! Three slots with empty payloads into a locked receiver. -/

def lockedReceiver : BurstReceiver where
  det := { SyncDetect.reset with lockState := .lock, syncLocked := true }
  demux := { BurstDemux.reset with state := .run }

/-- A cycle with or without a request. -/
def cycle (buildReq : Bool) : BuildInput := ⟨true, ⟨0, 0, 0⟩, 0, false, false, buildReq⟩

def firstSlot : List BuildInput :=
  cycle true :: List.replicate 9 (cycle false) ++ cycle true :: List.replicate 124 (cycle false)
def secondSlot : List BuildInput := List.replicate 255 (cycle false) ++ [cycle true]
def thirdSlot : List BuildInput := List.replicate 124 (cycle false)

set_option maxRecDepth 20000 in
theorem empty_slots_locked : LockedRun lockedReceiver firstSlot secondSlot thirdSlot where
  normal := by unfold WatchedBuilder.Normal; decide +kernel
  locked := by decide +kernel
  hit := by decide +kernel
  slot := by decide +kernel
  detects := by unfold Detects WatchedBuilder.Normal; decide +kernel

set_option maxRecDepth 20000 in
/-- Block 1 of the second slot comes out with the tail bits before it. -/
theorem empty_slot_misread : LockedRun lockedReceiver firstSlot secondSlot thirdSlot ∧
    ¬ Yields lockedReceiver firstSlot secondSlot thirdSlot :=
  ⟨empty_slots_locked, by unfold Yields; decide +kernel⟩

/-- Once locked, the receiver yields the transmitted slots exactly if all of them carry the one
payload whose bits are not moved by the shifted windows. -/
theorem ndb_slots_yielded_iff {rx : BurstReceiver} {pre is js : List BuildInput}
    (h : LockedRun rx pre is js) : Yields rx pre is js ↔
      let l := exec step (start rx) (pre ++ is)
      let l' := exec step (start rx) (pre ++ is ++ js)
      ∀ p ∈ (l'.tx.slots.drop l.finished).take (l'.finished - l.finished), p = fixedSlot := by
  have hdet := h.detects
  rw [along_append, ← exec_append] at hdet
  have hnormal : ∀ i ∈ pre ++ is ++ js, WatchedBuilder.Normal i := by
    intro i hi
    obtain hi | hi := List.mem_append.1 ((List.append_assoc pre is js) ▸ hi)
    · exact h.normal i hi
    · exact detects_normal h.detects i hi
  have hlinked := (linked_start rx).run hnormal
  obtain ⟨hle, hout⟩ := h.aligned.run hdet.2
  rw [← exec_append] at hle hout
  refine presents_iff hlinked.prefixed (fun hc => ?_) hout
  -- the symbols seen reach into the slot after the last one presented
  have hlen := hlinked.prefixed.length_le
  rw [WatchedBuilder.stream, WatchedBuilder.flatMap_symbols_length] at hlen
  simp only [finished] at hc hle ⊢
  omega

theorem ndb_slots_yielded_iff_empty : Yields lockedReceiver firstSlot secondSlot thirdSlot ↔
    let l := exec step (start lockedReceiver) (firstSlot ++ secondSlot)
    let l' := exec step (start lockedReceiver) (firstSlot ++ secondSlot ++ thirdSlot)
    ∀ p ∈ (l'.tx.slots.drop l.finished).take (l'.finished - l.finished), p = fixedSlot :=
  ndb_slots_yielded_iff empty_slots_locked

end BurstLink
end TetraBs.Phy
