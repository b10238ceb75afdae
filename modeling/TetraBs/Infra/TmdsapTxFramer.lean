import TetraBs.Infra.ByteLink
import TetraBs.Infra.TmdsapRxFramer

/-! The framer `tetra_tmdsap_tx_framer` of the TmdSap-TX channel: one 432-bit half-block for each
well-formed TMDC frame. One step is one rising clock edge. -/
namespace TetraBs.Infra.TmdsapTx
open TetraBs.Bits TetraBs.Run TetraBs.Serial
open TmdsapRx (payloadByte)

inductive FsmState where
  | hdrM | hdrL | pay | tail | drive | drain | doneW
deriving DecidableEq

structure Input where
  tdata : Word
  tvalid : Bool
  tlast : Bool
  tkeep : BitVec 4
  outReady : Bool

def Input.beat (i : Input) : Beat := ⟨i.tdata, i.tkeep, i.tlast⟩

structure State where
  state : FsmState
  payBeatIdx : BitVec 4
  payloadAcc : BitVec 432
  outNubBits : BitVec 432
  outValid : Bool
  framesCnt : BitVec 32
  errCnt : BitVec 32

def reset : State := ⟨.hdrM, 0, 0, 0, false, 0, 0⟩

def EXPECTED_LEN_B : Word := 62

def sAxisTready (s : State) : Bool :=
  match s.state with
  | .hdrM | .hdrL | .pay | .tail | .drain => true
  | .drive | .doneW => false

/-- `payload_acc[431 - 8 * k -: 8] <= b`. -/
def setByte (nub : BitVec 432) (k : Nat) (b : Byte) : BitVec 432 :=
  (nub &&& ~~~((BitVec.allOnes 8).setWidth 432 <<< (424 - 8 * k))) |||
    (b.setWidth 432 <<< (424 - 8 * k))

def absorbFullBeat (nub : BitVec 432) (w : Word) (baseByte : Nat) : BitVec 432 :=
  setByte (setByte (setByte (setByte nub baseByte (laneByte w 3)) (baseByte + 1) (laneByte w 2))
    (baseByte + 2) (laneByte w 1)) (baseByte + 3) (laneByte w 0)

def absorbTailBeat (nub : BitVec 432) (w : Word) : BitVec 432 :=
  setByte (setByte nub 52 (laneByte w 3)) 53 (laneByte w 2)

/-- One error, and what is left of the frame is discarded. -/
def State.fail (s : State) (tlast : Bool) : State :=
  { s with errCnt := saturatingInc s.errCnt, state := if tlast then .hdrM else .drain }

def step (s : State) (i : Input) : State :=
  let fire := i.tvalid && sAxisTready s
  match s.state with
  | .hdrM =>
    let s := { s with outValid := false }
    if fire then
      if i.tdata = MAGIC_TMDC ∧ i.tlast = false then { s with state := .hdrL } else s.fail i.tlast
    else s
  | .hdrL =>
    if fire then
      if i.tdata = EXPECTED_LEN_B ∧ i.tlast = false then { s with payBeatIdx := 0, state := .pay }
      else s.fail i.tlast
    else s
  | .pay =>
    if fire then
      if i.tkeep ≠ 0b1111#4 then s.fail i.tlast
      else
        let s := { s with
          payloadAcc := absorbFullBeat s.payloadAcc i.tdata (s.payBeatIdx.toNat * 4) }
        if i.tlast then s.fail true
        else if s.payBeatIdx = 12#4 then { s with state := .tail }
        else { s with payBeatIdx := s.payBeatIdx + 1 }
    else s
  | .tail =>
    if fire then
      if i.tlast = true ∧ i.tkeep = 0b1100#4 then
        { s with payloadAcc := absorbTailBeat s.payloadAcc i.tdata, state := .drive }
      else s.fail i.tlast
    else s
  | .drive =>
    let s := { s with outNubBits := s.payloadAcc }
    if s.outValid && i.outReady then
      { s with outValid := false, framesCnt := saturatingInc s.framesCnt, state := .hdrM }
    else { s with outValid := true }
  | .drain => if fire && i.tlast then { s with state := .hdrM } else s
  | .doneW => { s with state := .hdrM }

theorem payloadByte_setByte (nub : BitVec 432) {k j : Nat} (b : Byte) (hk : k < 54)
    (hj : j < 54) : payloadByte (setByte nub k b) j = if j = k then b else payloadByte nub j := by
  refine BitVec.eq_of_getLsbD_eq fun i hi => ?_
  have hin : 424 - 8 * j + i < 432 := by omega
  simp only [payloadByte, setByte, BitVec.getLsbD_extractLsb', BitVec.getLsbD_or,
    BitVec.getLsbD_and, BitVec.getLsbD_not, BitVec.getLsbD_shiftLeft, BitVec.getLsbD_setWidth,
    BitVec.getLsbD_allOnes, hi, hin, decide_true, Bool.true_and]
  by_cases hlow : 424 - 8 * j + i < 424 - 8 * k
  · rw [if_neg (by omega)]
    simp [hlow, hi]
  · have hwidth : 424 - 8 * j + i - (424 - 8 * k) < 432 := by omega
    by_cases hjk : j = k
    · have hsub : 424 - 8 * j + i - (424 - 8 * k) = i := by omega
      rw [if_pos hjk, hsub]
      simp [hlow, hi, (by omega : i < 432)]
    · have hhigh : 8 ≤ 424 - 8 * j + i - (424 - 8 * k) := by omega
      have hbyte : b.getLsbD (424 - 8 * j + i - (424 - 8 * k)) = false :=
        BitVec.getLsbD_of_ge _ _ hhigh
      rw [if_neg hjk]
      simp [hlow, hi, hbyte, Nat.not_lt.2 hhigh]

/-- Payload bytes 0, ..., `n - 1`. -/
def firstBytes (nub : BitVec 432) (n : Nat) : List Byte := (List.range n).map (payloadByte nub)

theorem firstBytes_setByte (nub : BitVec 432) {k : Nat} (b : Byte) (hk : k < 54) :
    firstBytes (setByte nub k b) (k + 1) = firstBytes nub k ++ [b] := by
  rw [firstBytes, List.range_succ, List.map_append, List.map_singleton,
    payloadByte_setByte nub b hk hk, if_pos rfl]
  congr 1
  refine List.map_congr_left fun j hj => ?_
  have hlt := List.mem_range.1 hj
  rw [payloadByte_setByte nub b hk (by omega), if_neg (Nat.ne_of_lt hlt)]

theorem firstBytes_absorbFullBeat (nub : BitVec 432) (w : Word) {k : Nat} (hk : k + 3 < 54) :
    firstBytes (absorbFullBeat nub w k) (k + 4) = firstBytes nub k ++ wordBytes w := by
  rw [absorbFullBeat, firstBytes_setByte _ _ hk, firstBytes_setByte _ _ (by omega),
    firstBytes_setByte _ _ (by omega), firstBytes_setByte _ _ (by omega)]
  simp [wordBytes, laneByte]

theorem firstBytes_absorbTailBeat (nub : BitVec 432) (w : Word) :
    firstBytes (absorbTailBeat nub w) 54 = firstBytes nub 52 ++ (wordBytes w).take 2 := by
  rw [absorbTailBeat, firstBytes_setByte _ _ (by decide), firstBytes_setByte _ _ (by decide)]
  simp [wordBytes, laneByte]

/-! What the words of a run mean. -/

/-- The word that is awaited, after the payload bytes before it. -/
inductive Await where
  | magic
  | length
  | body (k : Nat) (bs : List Byte)
  | tail (bs : List Byte)
  | skip

def reject (b : Beat) : Await × List (Signal (List Byte)) :=
  (if b.tlast then .magic else .skip, [.error])

def read : Await → Beat → Await × List (Signal (List Byte))
  | .magic, b => if b.tdata = MAGIC_TMDC ∧ b.tlast = false then (.length, []) else reject b
  | .length, b => if b.tdata = EXPECTED_LEN_B ∧ b.tlast = false then (.body 0 [], []) else reject b
  | .body k bs, b =>
    if b.tkeep = 0b1111#4 ∧ b.tlast = false then
      (if k = 12 then .tail (bs ++ b.bytes) else .body (k + 1) (bs ++ b.bytes), [])
    else reject b
  | .tail bs, b =>
    if b.tlast = true ∧ b.tkeep = 0b1100#4 then (.magic, [.item (bs ++ b.bytes)]) else reject b
  | .skip, b => (if b.tlast then .magic else .skip, [])

def reader : Reader Await Beat (Signal (List Byte)) :=
  ⟨fun a b => (read a b).1, fun a b => (read a b).2⟩

def awaits (s : State) : Await :=
  match s.state with
  | .hdrL => .length
  | .pay => .body s.payBeatIdx.toNat (firstBytes s.payloadAcc (s.payBeatIdx.toNat * 4))
  | .tail => .tail (firstBytes s.payloadAcc 52)
  | .drain => .skip
  | .hdrM | .drive | .doneW => .magic

/-- The half-block that waits for its handshake. -/
def owed (s : State) : List (Signal (List Byte)) :=
  if s.state = .drive then [.item (firstBytes s.payloadAcc 54)] else []

def accepted (s : State) (i : Input) : List Beat :=
  if i.tvalid && sAxisTready s then [i.beat] else []

/-- The error counter counts at this edge. -/
def rejects (s : State) (i : Input) : Bool :=
  i.tvalid && match s.state with
    | .hdrM => !(decide (i.tdata = MAGIC_TMDC) && !i.tlast)
    | .hdrL => !(decide (i.tdata = EXPECTED_LEN_B) && !i.tlast)
    | .pay => !(decide (i.tkeep = 0b1111#4) && !i.tlast)
    | .tail => !(i.tlast && decide (i.tkeep = 0b1100#4))
    | .drive | .drain | .doneW => false

/-- `out_valid` and `out_ready` meet. -/
def handshake (s : State) (i : Input) : Bool := s.outValid && i.outReady

def events (s : State) (i : Input) : List (Signal (List Byte)) :=
  (if handshake s i then [.item (firstBytes s.outNubBits 54)] else []) ++
    if rejects s i then [.error] else []

structure Inv (s : State) : Prop where
  valid : s.outValid = true → s.state = .drive ∧ s.outNubBits = s.payloadAcc
  idx : s.state = .pay → s.payBeatIdx.toNat ≤ 12

theorem inv_reset : Inv reset := ⟨fun h => (Bool.false_ne_true h).elim, fun h => nomatch h⟩

theorem Inv.not_valid {s : State} (h : Inv s) (hst : s.state ≠ .drive) : s.outValid = false := by
  rw [← Bool.not_eq_true]
  exact fun hv => hst (h.valid hv).1

theorem inv_of_not_valid {s : State} (hv : s.outValid = false) (hst : s.state ≠ .pay) : Inv s :=
  ⟨fun h => absurd (hv.symm.trans h) Bool.false_ne_true, fun h => absurd h hst⟩

/-! One edge. -/

theorem ready_of_state {s : State} (hst : s.state ≠ .drive) (hst' : s.state ≠ .doneW) :
    sAxisTready s = true := by
  unfold sAxisTready
  cases h : s.state with
  | drive => exact absurd h hst
  | doneW => exact absurd h hst'
  | hdrM | hdrL | pay | tail | drain => rfl

/-- A word that the state does not expect. -/
theorem step_rejects {s : State} {i : Input} (hv : s.outValid = false) (h : rejects s i = true) :
    accepted s i = [i.beat] ∧ read (awaits s) i.beat = reject i.beat ∧
      ∃ acc, step s i = { s with payloadAcc := acc }.fail i.tlast := by
  rw [rejects, Bool.and_eq_true_iff] at h
  obtain ⟨hval, hbad⟩ := h
  have hfire : s.state ≠ .drive → s.state ≠ .doneW → (i.tvalid && sAxisTready s) = true := by
    intro h1 h2
    rw [hval, ready_of_state h1 h2]
    rfl
  cases hst : s.state with
  | hdrM =>
    replace hfire := hfire (by rw [hst]; decide) (by rw [hst]; decide)
    have hno : ¬(i.tdata = MAGIC_TMDC ∧ i.tlast = false) := by
      rintro ⟨h1, h2⟩
      simp [hst, h1, h2] at hbad
    refine ⟨if_pos hfire, ?_, s.payloadAcc, ?_⟩
    · simp only [awaits, hst]
      exact if_neg hno
    · simp only [step, hst]
      rw [if_pos hfire, if_neg hno, ← hv]
  | hdrL =>
    replace hfire := hfire (by rw [hst]; decide) (by rw [hst]; decide)
    have hno : ¬(i.tdata = EXPECTED_LEN_B ∧ i.tlast = false) := by
      rintro ⟨h1, h2⟩
      simp [hst, h1, h2] at hbad
    refine ⟨if_pos hfire, ?_, s.payloadAcc, ?_⟩
    · simp only [awaits, hst]
      exact if_neg hno
    · simp only [step, hst]
      rw [if_pos hfire, if_neg hno]
      rfl
  | pay =>
    replace hfire := hfire (by rw [hst]; decide) (by rw [hst]; decide)
    have hno : ¬(i.tkeep = 0b1111#4 ∧ i.tlast = false) := by
      rintro ⟨h1, h2⟩
      simp [hst, h1, h2] at hbad
    have hread : read (awaits s) i.beat = reject i.beat := by
      simp only [awaits, hst]
      exact if_neg hno
    by_cases hkeep : i.tkeep = 0b1111#4
    · have hlast : i.tlast = true := by
        rw [← Bool.not_eq_false]
        exact fun hl => hno ⟨hkeep, hl⟩
      refine ⟨if_pos hfire, hread,
        absorbFullBeat s.payloadAcc i.tdata (s.payBeatIdx.toNat * 4), ?_⟩
      simp only [step, hst]
      rw [if_pos hfire, if_neg (fun h => h hkeep), if_pos hlast, hlast]
    · refine ⟨if_pos hfire, hread, s.payloadAcc, ?_⟩
      simp only [step, hst]
      rw [if_pos hfire, if_pos hkeep]
      rfl
  | tail =>
    replace hfire := hfire (by rw [hst]; decide) (by rw [hst]; decide)
    have hno : ¬(i.tlast = true ∧ i.tkeep = 0b1100#4) := by
      rintro ⟨h1, h2⟩
      simp [hst, h1, h2] at hbad
    refine ⟨if_pos hfire, ?_, s.payloadAcc, ?_⟩
    · simp only [awaits, hst]
      exact if_neg hno
    · simp only [step, hst]
      rw [if_pos hfire, if_neg hno]
      rfl
  | drive | drain | doneW =>
    rw [hst] at hbad
    cases hbad

/-- One edge: what it reports and still owes is what was owed and what its word means, and the
counters count what it reports. -/
structure Serves (s : State) (i : Input) : Prop where
  inv : Inv (step s i)
  events : events s i ++ owed (step s i) = owed s ++ reader.outputs (awaits s) (accepted s i)
  awaits : awaits (step s i) = reader.after (awaits s) (accepted s i)
  errCnt : (step s i).errCnt = if rejects s i then saturatingInc s.errCnt else s.errCnt
  framesCnt : (step s i).framesCnt =
    if handshake s i then saturatingInc s.framesCnt else s.framesCnt

theorem not_handshake {s : State} {i : Input} (hv : s.outValid = false) :
    handshake s i = false := by
  rw [handshake, hv, Bool.false_and]

theorem events_quiet {s : State} {i : Input} (hv : s.outValid = false)
    (hr : rejects s i = false) : events s i = [] := by
  rw [events, not_handshake hv, hr]
  rfl

theorem owed_nil {s : State} (h : s.state ≠ .drive) : owed s = [] := if_neg h

/-- An edge without a report. -/
theorem serves_quiet {s t : State} {i : Input} (h : Inv s) (hst : s.state ≠ .drive)
    (hr : rejects s i = false) (hstep : step s i = t) (ht : Inv t)
    (hout : reader.outputs (awaits s) (accepted s i) = owed t)
    (hafter : reader.after (awaits s) (accepted s i) = awaits t)
    (herr : t.errCnt = s.errCnt) (hframes : t.framesCnt = s.framesCnt) : Serves s i := by
  have hh : handshake s i = false := not_handshake (h.not_valid hst)
  refine ⟨hstep ▸ ht, ?_, ?_, ?_, ?_⟩
  · rw [events_quiet (h.not_valid hst) hr, owed_nil hst, hstep, hout]
  · rw [hstep, hafter]
  · rw [hstep, hr, herr]
    rfl
  · rw [hstep, hh, hframes]
    rfl

/-- A word that is taken without a report. -/
theorem serves_take {s t : State} {i : Input} (h : Inv s) (hst : s.state ≠ .drive)
    (hr : rejects s i = false) (hfire : (i.tvalid && sAxisTready s) = true) (hstep : step s i = t)
    (ht : Inv t) (hread : read (awaits s) i.beat = (awaits t, owed t))
    (herr : t.errCnt = s.errCnt) (hframes : t.framesCnt = s.framesCnt) : Serves s i := by
  have hacc : accepted s i = [i.beat] := if_pos hfire
  have hout : reader.outputs (awaits s) [i.beat] = (read (awaits s) i.beat).2 :=
    List.append_nil _
  have hafter : reader.after (awaits s) [i.beat] = (read (awaits s) i.beat).1 := rfl
  refine serves_quiet h hst hr hstep ht ?_ ?_ herr hframes
  · rw [hacc, hout, hread]
  · rw [hacc, hafter, hread]

theorem serves_reject {s : State} {i : Input} (h : Inv s) (hst : s.state ≠ .drive)
    (hr : rejects s i = true) : Serves s i := by
  have hv := h.not_valid hst
  obtain ⟨hacc, hread, acc, hstep⟩ := step_rejects hv hr
  have hout : reader.outputs (awaits s) [i.beat] = [.error] := by
    show (read (awaits s) i.beat).2 ++ [] = _
    rw [hread]
    rfl
  have hafter : reader.after (awaits s) [i.beat] = if i.tlast then .magic else .skip := by
    show (read (awaits s) i.beat).1 = _
    rw [hread]
    rfl
  have hevents : events s i = [.error] := by
    rw [events, not_handshake hv, hr]
    rfl
  refine ⟨?_, ?_, ?_, ?_, ?_⟩
  · rw [hstep]
    refine inv_of_not_valid hv ?_
    show (if i.tlast then FsmState.hdrM else .drain) ≠ .pay
    cases i.tlast <;> decide
  · rw [hacc, hout, hevents, owed_nil hst, hstep]
    cases hl : i.tlast <;> rfl
  · rw [hacc, hafter, hstep]
    cases hl : i.tlast <;> rfl
  · rw [hstep, hr]
    rfl
  · rw [hstep, not_handshake hv]
    rfl

theorem step_wait {s : State} {i : Input} (hv : s.outValid = false) (hst : s.state ≠ .drive)
    (hdone : s.state ≠ .doneW) (hfire : (i.tvalid && sAxisTready s) = false) : step s i = s := by
  cases hs : s.state with
  | drive => exact absurd hs hst
  | doneW => exact absurd hs hdone
  | hdrM =>
    simp only [step, hs]
    rw [hfire, if_neg Bool.false_ne_true, ← hv, ← hs]
  | hdrL | pay | tail =>
    simp only [step, hs]
    rw [hfire, if_neg Bool.false_ne_true]
  | drain =>
    simp only [step, hs]
    rw [hfire, Bool.false_and, if_neg Bool.false_ne_true]

theorem not_rejects {s : State} {i : Input} (hv : s.outValid = false)
    (hacc : accepted s i = []) : rejects s i = false := by
  rw [← Bool.not_eq_true]
  intro hr
  have hword := (step_rejects hv hr).1
  rw [hacc] at hword
  cases hword

/-- No word is taken. -/
theorem serves_wait {s : State} {i : Input} (h : Inv s) (hst : s.state ≠ .drive)
    (hfire : (i.tvalid && sAxisTready s) = false) : Serves s i := by
  have hv := h.not_valid hst
  have hacc : accepted s i = [] := if_neg (by rw [hfire]; decide)
  have hr := not_rejects hv hacc
  by_cases hdone : s.state = .doneW
  · refine serves_quiet h hst hr (t := { s with state := .hdrM }) ?_
      (inv_of_not_valid hv (fun heq => nomatch heq)) ?_ ?_ rfl rfl
    · simp only [step, hdone]
    · rw [hacc]
      rfl
    · rw [hacc]
      simp only [awaits, hdone]
      rfl
  · refine serves_quiet h hst hr (step_wait hv hst hdone hfire) h ?_ ?_ rfl rfl
    · rw [hacc, owed_nil hst]
      rfl
    · rw [hacc]
      rfl

/-- A word of the payload goes into the accumulator, and the thirteenth is followed by the tail. -/
theorem serves_pay {s : State} {i : Input} (h : Inv s) (hs : s.state = .pay)
    (hr : rejects s i = false) (hfire : (i.tvalid && sAxisTready s) = true) : Serves s i := by
  have hval : i.tvalid = true := (Bool.and_eq_true_iff.1 hfire).1
  have hok : i.tkeep = 0b1111#4 ∧ i.tlast = false := by
    simpa [rejects, hval, hs] using hr
  have hst : s.state ≠ .drive := by
    rw [hs]
    decide
  have hv := h.not_valid hst
  have hidx := h.idx hs
  have hbeat : i.beat.bytes = wordBytes i.tdata := by
    rw [Beat.bytes, Input.beat, hok.1]
    exact (keptBytes_take _).2.2.2
  have hbytes : firstBytes (absorbFullBeat s.payloadAcc i.tdata (s.payBeatIdx.toNat * 4))
      (s.payBeatIdx.toNat * 4 + 4) =
      firstBytes s.payloadAcc (s.payBeatIdx.toNat * 4) ++ i.beat.bytes := by
    rw [firstBytes_absorbFullBeat _ _ (by omega), hbeat]
  have hread : read (awaits s) i.beat =
      (if s.payBeatIdx.toNat = 12 then
        .tail (firstBytes s.payloadAcc (s.payBeatIdx.toNat * 4) ++ i.beat.bytes)
      else .body (s.payBeatIdx.toNat + 1)
        (firstBytes s.payloadAcc (s.payBeatIdx.toNat * 4) ++ i.beat.bytes), []) := by
    simp only [awaits, hs]
    exact if_pos hok
  rw [← hbytes] at hread
  have hlast : ¬i.tlast = true := by
    rw [hok.2]
    decide
  by_cases h12 : s.payBeatIdx = 12#4
  · have hnat : s.payBeatIdx.toNat = 12 := congrArg BitVec.toNat h12
    rw [if_pos hnat, hnat] at hread
    refine serves_take h hst hr hfire (t := { s with
      payloadAcc := absorbFullBeat s.payloadAcc i.tdata (s.payBeatIdx.toNat * 4)
      state := .tail }) ?_ (inv_of_not_valid hv (fun heq => nomatch heq)) ?_ rfl rfl
    · simp only [step, hs]
      rw [if_pos hfire, if_neg (fun hk => hk hok.1), if_neg hlast, if_pos h12]
    · rw [hread, hnat]
      rfl
  · have hnat : s.payBeatIdx.toNat ≠ 12 := fun heq => h12 (BitVec.eq_of_toNat_eq heq)
    have hnext : (s.payBeatIdx + 1).toNat = s.payBeatIdx.toNat + 1 := by
      rw [BitVec.toNat_add]
      exact Nat.mod_eq_of_lt (show s.payBeatIdx.toNat + 1 < 16 by omega)
    rw [if_neg hnat] at hread
    refine serves_take h hst hr hfire (t := { s with
      payloadAcc := absorbFullBeat s.payloadAcc i.tdata (s.payBeatIdx.toNat * 4)
      payBeatIdx := s.payBeatIdx + 1 }) ?_ ⟨?_, ?_⟩ ?_ rfl rfl
    · simp only [step, hs]
      rw [if_pos hfire, if_neg (fun hk => hk hok.1), if_neg hlast, if_neg h12]
    · exact fun hvalid => absurd (hv.symm.trans hvalid) Bool.false_ne_true
    · intro _
      show (s.payBeatIdx + 1).toNat ≤ 12
      omega
    · rw [hread]
      simp only [awaits, owed, hs, hnext, Nat.add_mul]
      rfl

/-- The word that the state expects. -/
theorem serves_expected {s : State} {i : Input} (h : Inv s) (hst : s.state ≠ .drive)
    (hr : rejects s i = false) (hfire : (i.tvalid && sAxisTready s) = true) : Serves s i := by
  have hv := h.not_valid hst
  have hval : i.tvalid = true := (Bool.and_eq_true_iff.1 hfire).1
  cases hs : s.state with
  | drive => exact absurd hs hst
  | doneW =>
    rw [sAxisTready, hs, Bool.and_false] at hfire
    cases hfire
  | hdrM =>
    have hok : i.tdata = MAGIC_TMDC ∧ i.tlast = false := by
      simpa [rejects, hval, hs] using hr
    refine serves_take h hst hr hfire (t := { s with outValid := false, state := .hdrL }) ?_
      (inv_of_not_valid rfl (fun heq => nomatch heq)) ?_ rfl rfl
    · simp only [step, hs]
      rw [if_pos hfire, if_pos hok]
    · simp only [awaits, hs]
      exact if_pos hok
  | hdrL =>
    have hok : i.tdata = EXPECTED_LEN_B ∧ i.tlast = false := by
      simpa [rejects, hval, hs] using hr
    refine serves_take h hst hr hfire (t := { s with payBeatIdx := 0, state := .pay }) ?_
      ⟨fun hvalid => absurd (hv.symm.trans hvalid) Bool.false_ne_true, fun _ => Nat.zero_le 12⟩ ?_
      rfl rfl
    · simp only [step, hs]
      rw [if_pos hfire, if_pos hok]
    · simp only [awaits, hs]
      exact if_pos hok
  | pay => exact serves_pay h hs hr hfire
  | tail =>
    have hok : i.tlast = true ∧ i.tkeep = 0b1100#4 := by
      simpa [rejects, hval, hs] using hr
    have hbeat : i.beat.bytes = (wordBytes i.tdata).take 2 := by
      rw [Beat.bytes, Input.beat, hok.2]
      exact (keptBytes_take _).2.1
    refine serves_take h hst hr hfire (t := { s with
      payloadAcc := absorbTailBeat s.payloadAcc i.tdata, state := .drive }) ?_
      (inv_of_not_valid hv (fun heq => nomatch heq)) ?_ rfl rfl
    · simp only [step, hs]
      rw [if_pos hfire, if_pos hok]
    · simp only [awaits, hs, read, owed]
      rw [if_pos (show i.beat.tlast = true ∧ i.beat.tkeep = 0b1100#4 from hok), if_pos trivial,
        firstBytes_absorbTailBeat, hbeat]
  | drain =>
    refine serves_take h hst hr hfire (t := { s with
      state := if i.tlast then .hdrM else .drain }) ?_ (inv_of_not_valid hv ?_) ?_ rfl rfl
    · simp only [step, hs]
      rw [hfire, Bool.true_and]
      cases i.tlast <;> simp [← hs]
    · show (if i.tlast then FsmState.hdrM else .drain) ≠ .pay
      cases i.tlast <;> decide
    · simp only [awaits, hs, read, owed, Input.beat]
      cases i.tlast <;> rfl

theorem serves_drive {s : State} (h : Inv s) (hst : s.state = .drive) (i : Input) :
    Serves s i := by
  have hacc : accepted s i = [] := by
    rw [accepted, sAxisTready, hst, Bool.and_false]
    rfl
  have hr : rejects s i = false := by
    rw [rejects, hst, Bool.and_false]
  have howed : owed s = [.item (firstBytes s.payloadAcc 54)] := if_pos hst
  cases hh : handshake s i with
  | true =>
    have hnub : s.outNubBits = s.payloadAcc := (h.valid (Bool.and_eq_true_iff.1 hh).1).2
    have hstep : step s i = { s with
        outNubBits := s.payloadAcc, outValid := false
        framesCnt := saturatingInc s.framesCnt, state := .hdrM } := by
      simp only [step, hst]
      exact if_pos hh
    refine ⟨?_, ?_, ?_, ?_, ?_⟩
    · rw [hstep]
      exact inv_of_not_valid rfl (fun heq => nomatch heq)
    · rw [events, hh, hr, hacc, howed, hstep, hnub]
      rfl
    · rw [hacc, hstep]
      simp only [awaits, hst]
      rfl
    · rw [hstep, hr]
      rfl
    · rw [hstep, hh]
      rfl
  | false =>
    have hstep : step s i = { s with outNubBits := s.payloadAcc, outValid := true } := by
      simp only [step, hst]
      exact if_neg (by rw [← handshake, hh]; decide)
    refine ⟨?_, ?_, ?_, ?_, ?_⟩
    · rw [hstep]
      exact ⟨fun _ => ⟨hst, rfl⟩, fun hp => nomatch hst.symm.trans hp⟩
    · rw [events, hh, hr, hacc, howed, hstep]
      exact congrArg ([] ++ ·) (if_pos hst)
    · rw [hacc, hstep]
      rfl
    · rw [hstep, hr]
      rfl
    · rw [hstep, hh]
      rfl

theorem serves {s : State} (h : Inv s) (i : Input) : Serves s i := by
  by_cases hst : s.state = .drive
  · exact serves_drive h hst i
  · cases hr : rejects s i with
    | true => exact serves_reject h hst hr
    | false =>
      cases hfire : i.tvalid && sAxisTready s with
      | true => exact serves_expected h hst hr hfire
      | false => exact serves_wait h hst hfire

/-- A half-block that is offered and not taken stays as it is. -/
theorem offered_stable {s : State} (h : Inv s) {i : Input} (hv : s.outValid = true)
    (hr : i.outReady = false) :
    (step s i).outValid = true ∧ (step s i).outNubBits = s.outNubBits := by
  obtain ⟨hst, hnub⟩ := h.valid hv
  have hno : ¬(s.outValid && i.outReady) = true := by
    rw [hr, Bool.and_false]
    decide
  have hstep : step s i = { s with outNubBits := s.payloadAcc, outValid := true } := by
    simp only [step, hst]
    exact if_neg hno
  rw [hstep]
  exact ⟨rfl, hnub.symm⟩

/-- An edge in the output state at which the half-block is not taken offers it. -/
theorem step_offers {s : State} (hst : s.state = .drive) {i : Input}
    (hh : handshake s i = false) :
    (step s i).state = .drive ∧ (step s i).outValid = true := by
  have hstep : step s i = { s with outNubBits := s.payloadAcc, outValid := true } := by
    simp only [step, hst]
    exact if_neg (by rw [← handshake, hh]; decide)
  rw [hstep]
  exact ⟨hst, rfl⟩

theorem step_taken {s : State} (hst : s.state = .drive) {i : Input}
    (hh : handshake s i = true) : (step s i).state = .hdrM := by
  simp only [step, hst]
  rw [← handshake, hh]
  rfl

/-- An offered half-block is taken at the first edge at which the sink is ready. -/
theorem taken_of_offered {s : State} (hst : s.state = .drive) (hv : s.outValid = true)
    {js : List Input} (hr : 1 ≤ js.countP Input.outReady) :
    ∃ pre, pre <+: js ∧ (exec step s pre).state = .hdrM := by
  induction js generalizing s with
  | nil => exact absurd hr (by decide)
  | cons j js ih =>
    cases hj : j.outReady with
    | true =>
      have hh : handshake s j = true := by rw [handshake, hv, hj, Bool.and_self]
      exact ⟨[j], List.cons_prefix_cons.2 ⟨rfl, List.nil_prefix⟩, step_taken hst hh⟩
    | false =>
      have hh : handshake s j = false := by rw [handshake, hj, Bool.and_false]
      obtain ⟨hst', hv'⟩ := step_offers hst hh
      rw [List.countP_cons_of_neg (by rw [hj]; decide)] at hr
      obtain ⟨pre, hpre, hend⟩ := ih hst' hv' hr
      exact ⟨j :: pre, List.cons_prefix_cons.2 ⟨rfl, hpre⟩, hend⟩

/-- In the output state a sink that is ready at two edges takes the half-block. -/
theorem taken_of_ready {s : State} (hst : s.state = .drive) {js : List Input}
    (hr : 2 ≤ js.countP Input.outReady) :
    ∃ pre, pre <+: js ∧ (exec step s pre).state = .hdrM := by
  cases js with
  | nil => exact absurd hr (by decide)
  | cons j js =>
    rw [List.countP_cons] at hr
    cases hh : handshake s j with
    | true => exact ⟨[j], List.cons_prefix_cons.2 ⟨rfl, List.nil_prefix⟩, step_taken hst hh⟩
    | false =>
      obtain ⟨hst', hv'⟩ := step_offers hst hh
      have hrest : 1 ≤ js.countP Input.outReady := by
        split at hr <;> omega
      obtain ⟨pre, hpre, hend⟩ := taken_of_offered hst' hv' hrest
      exact ⟨j :: pre, List.cons_prefix_cons.2 ⟨rfl, hpre⟩, hend⟩

/-! Runs. -/

/-- The framer with its history: the words it took and what it reported. -/
structure Hist where
  state : State
  words : List Beat
  events : List (Signal (List Byte))

def edge (h : Hist) (i : Input) : Hist :=
  ⟨step h.state i, h.words ++ accepted h.state i, h.events ++ events h.state i⟩

/-- After the edges `is` from reset. -/
def run (is : List Input) : Hist := exec edge ⟨reset, [], []⟩ is

structure Conserved (h : Hist) : Prop where
  inv : Inv h.state
  events : h.events ++ owed h.state = reader.outputs .magic h.words
  awaits : awaits h.state = reader.after .magic h.words
  errCnt : h.state.errCnt.toNat = min (h.events.count .error) (2 ^ 32 - 1)
  framesCnt : h.state.framesCnt.toNat = min (h.events.countP fun e => e ≠ .error) (2 ^ 32 - 1)

theorem conserved_edge {h : Hist} (hc : Conserved h) (i : Input) : Conserved (edge h i) := by
  obtain ⟨hinv, hevents, hawaits, herr, hframes⟩ := serves hc.inv i
  refine ⟨hinv, ?_, ?_, ?_, ?_⟩
  · show (h.events ++ events h.state i) ++ owed (step h.state i) = _
    rw [List.append_assoc, hevents, ← List.append_assoc, hc.events, hc.awaits]
    exact (reader.outputs_append _ _ _).symm
  · show awaits (step h.state i) = _
    rw [hawaits, hc.awaits]
    exact (reader.after_append _ _ _).symm
  · show (step h.state i).errCnt.toNat = min ((h.events ++ events h.state i).count .error) _
    rw [herr, List.count_append, events]
    have hinc := saturatingInc_counts hc.errCnt
    cases handshake h.state i <;> cases rejects h.state i <;> simp [hinc, hc.errCnt]
  · show (step h.state i).framesCnt.toNat =
      min ((h.events ++ events h.state i).countP fun e => e ≠ .error) _
    rw [hframes, List.countP_append, events]
    have hinc := saturatingInc_counts hc.framesCnt
    cases handshake h.state i <;> cases rejects h.state i <;> simp [hinc, hc.framesCnt]

theorem conserved_run (is : List Input) : Conserved (run is) :=
  exec_invariant Conserved (P := fun _ _ => True) (fun _ i h _ => conserved_edge h i)
    ⟨inv_reset, rfl, rfl, rfl, rfl⟩ (along_true _ _ is)

end TetraBs.Infra.TmdsapTx
