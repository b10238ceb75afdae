import TetraBs.Infra.TmasapTxFramer

/-! What the transmit framer makes of its words: a reader of the words in order, the framer as a
serializer that serves it, and what the reader makes of a whole frame. -/
namespace TetraBs.Infra.TmasapTx
open TetraBs.Bits TetraBs.Run TetraBs.Stream TetraBs.Serial

/-- What the next word is: the magic, the two lengths, one of the fields with `more` of them
behind it, a part of the body with `left` bytes to go, or a word to be dropped. -/
inductive Await where
  | magic
  | lengths
  | fields (more : Nat) (frameLen pduLenBits : BitVec 16)
  | body (left : Nat)
  | skip
deriving DecidableEq

def payloadBytes (pduLenBits : BitVec 16) : Nat := (pduLenBits.toNat + 7) / 8

def LengthsOk (frameLen pduLenBits : BitVec 16) : Prop :=
  pduLenBits.toNat < 2048 ∧ frameLen.toNat = 36 + payloadBytes pduLenBits

instance (frameLen pduLenBits : BitVec 16) : Decidable (LengthsOk frameLen pduLenBits) :=
  inferInstanceAs (Decidable (_ ∧ _))

def resync (last : Bool) : Await := if last then .magic else .skip

/-- The bytes `bs` of a word of the body, with `left` bytes of payload to go. -/
def readBody (left : Nat) (bs : List Byte) (last : Bool) : Await × List (Signal Byte) :=
  let left' := left - bs.length
  (if last then .magic else if left' = 0 then .skip else .body left',
    (bs.take left).map .item ++
      if last then [if left' = 0 then .done else .error] else [])

/-- The last header word. -/
def readHeader (frameLen pduLenBits : BitVec 16) (last : Bool) : Await × List (Signal Byte) :=
  if LengthsOk frameLen pduLenBits then
    if payloadBytes pduLenBits = 0 then
      if last then (.magic, [.done]) else (.skip, [.error])
    else if last then (.magic, [.error])
    else (.body (payloadBytes pduLenBits), [])
  else (resync last, [.error])

def read : Await → Beat → Await × List (Signal Byte)
  | .magic, b =>
    if b.tdata = MAGIC_TMAS then if b.tlast then (.magic, [.error]) else (.lengths, [])
    else (resync b.tlast, [.error])
  | .lengths, b =>
    if b.tlast then (.magic, [.error])
    else (.fields 6 (b.tdata.extractLsb' 16 16) (b.tdata.extractLsb' 0 16), [])
  | .fields (k + 1) f p, b => if b.tlast then (.magic, [.error]) else (.fields k f p, [])
  | .fields 0 f p, b => readHeader f p b.tlast
  | .body left, b => readBody left b.bytes b.tlast
  | .skip, b => (resync b.tlast, [])

def reader : Reader Await Beat (Signal Byte) := ⟨fun a b => (read a b).1, fun a b => (read a b).2⟩

/-- What is left of the word that is emitted, from lane `l` on. -/
def restOfWord (s : State) (l : Nat) : Await × List (Signal Byte) :=
  readBody s.payBytesRemaining.toNat (lanesBelow s.curWord s.curKeep (l + 1)) s.curIsLast

/-- What the framer awaits once the present word is gone. -/
def awaits (s : State) : Await :=
  match s.state with
  | .hdrW0 => .magic
  | .hdrW1 => .lengths
  | .hdrW2 => .fields 6 s.frameLenQ s.pduLenBitsQ
  | .hdrW3 => .fields 5 s.frameLenQ s.pduLenBitsQ
  | .hdrW4 => .fields 4 s.frameLenQ s.pduLenBitsQ
  | .hdrW5 => .fields 3 s.frameLenQ s.pduLenBitsQ
  | .hdrW6 => .fields 2 s.frameLenQ s.pduLenBitsQ
  | .hdrW7 => .fields 1 s.frameLenQ s.pduLenBitsQ
  | .hdrW8 => .fields 0 s.frameLenQ s.pduLenBitsQ
  | .payLd => .body s.payBytesRemaining.toNat
  | .payE0 => (restOfWord s 3).1
  | .payE1 => (restOfWord s 2).1
  | .payE2 => (restOfWord s 1).1
  | .payE3 => (restOfWord s 0).1
  | .drain => .skip

/-- What the present word still has to raise. -/
def owed (s : State) : List (Signal Byte) :=
  match lane? s with
  | some l => (restOfWord s l).2
  | none => []

theorem awaits_lane {s : State} {l : Nat} (h : lane? s = some l) :
    awaits s = (restOfWord s l).1 := by
  cases hst : s.state <;> simp [lane?, hst] at h <;> subst h <;> simp [awaits, hst]

theorem owed_lane {s : State} {l : Nat} (h : lane? s = some l) :
    owed s = (restOfWord s l).2 := by
  rw [owed, h]

theorem owed_no_lane {s : State} (h : lane? s = none) : owed s = [] := by
  rw [owed, h]

/-! The length check of the code. -/

theorem ceilBitsToBytes10_toNat {p : BitVec 16} (h : p.toNat < 2048) :
    (ceilBitsToBytes10 (p.extractLsb' 0 11)).toNat = payloadBytes p := by
  simp only [ceilBitsToBytes10, payloadBytes, BitVec.extractLsb'_toNat, BitVec.toNat_add,
    BitVec.toNat_setWidth, BitVec.toNat_ofNat, Nat.shiftRight_eq_div_pow]
  omega

theorem high_bits_zero_iff (p : BitVec 16) : p.extractLsb' 11 5 = 0 ↔ p.toNat < 2048 := by
  have hp := p.isLt
  rw [← BitVec.toNat_inj]
  simp only [BitVec.extractLsb'_toNat, Nat.shiftRight_eq_div_pow, BitVec.ofNat_eq_ofNat,
    BitVec.toNat_ofNat]
  omega

theorem frame_len_iff {f p : BitVec 16} (h : p.toNat < 2048) :
    f = 36#16 + (ceilBitsToBytes10 (p.extractLsb' 0 11)).setWidth 16 ↔
      f.toNat = 36 + payloadBytes p := by
  have hn : payloadBytes p < 512 := by
    rw [payloadBytes]
    omega
  rw [← BitVec.toNat_inj, BitVec.toNat_add, BitVec.toNat_setWidth, ceilBitsToBytes10_toNat h]
  simp only [BitVec.toNat_ofNat]
  omega

theorem ceil_zero_iff {p : BitVec 16} (h : p.toNat < 2048) :
    ceilBitsToBytes10 (p.extractLsb' 0 11) = 0 ↔ payloadBytes p = 0 := by
  rw [← BitVec.toNat_inj, ceilBitsToBytes10_toNat h]
  rfl

theorem readBody_item (left : Nat) (b : Byte) (bs : List Byte) (last : Bool) :
    readBody (left + 1) (b :: bs) last =
      ((readBody left bs last).1, .item b :: (readBody left bs last).2) := by
  simp [readBody]

theorem readBody_none_left (bs : List Byte) (last : Bool) :
    readBody 0 bs last = readBody 0 [] last := by
  simp [readBody]

/-! Lane by lane, the framer raises what the word owes. -/

theorem remaining_pred {x : BitVec 10} (h : x ≠ 0) : x.toNat = (x - 1).toNat + 1 := by
  have hx := x.isLt
  have hne : x.toNat ≠ 0 := fun h0 => h (BitVec.eq_of_toNat_eq h0)
  rw [BitVec.toNat_sub]
  simp only [BitVec.ofNat_eq_ofNat, BitVec.toNat_ofNat]
  omega

theorem restOfWord_active {s : State} {l : Nat} (ha : s.active l = true) {left : BitVec 10}
    (hleft : left = s.payBytesRemaining - 1) :
    restOfWord s l =
      ((readBody left.toNat (lanesBelow s.curWord s.curKeep l) s.curIsLast).1,
        .item (laneByte s.curWord l) ::
          (readBody left.toNat (lanesBelow s.curWord s.curKeep l) s.curIsLast).2) := by
  obtain ⟨hne, hkeep⟩ := active_iff.1 ha
  rw [restOfWord, lanesBelow_kept hkeep, remaining_pred hne, ← hleft, readBody_item]

theorem restOfWord_skipped {s : State} {l : Nat} (ha : s.active l = false) :
    restOfWord s l =
      readBody s.payBytesRemaining.toNat (lanesBelow s.curWord s.curKeep l) s.curIsLast := by
  rw [restOfWord]
  by_cases h : s.payBytesRemaining = 0
  · rw [h]
    exact (readBody_none_left _ _).trans (readBody_none_left _ _).symm
  · have hskip : s.curKeep.getLsbD l = false := by
      cases hk : s.curKeep.getLsbD l with
      | false => rfl
      | true =>
        rw [active_iff.2 ⟨h, hk⟩] at ha
        cases ha
    rw [lanesBelow_skipped hskip]

theorem wordDone_owed {s : State} (h : pulses s = []) :
    pulses s.wordDone = (readBody s.payBytesRemaining.toNat [] s.curIsLast).2 ∧
      awaits s.wordDone = (readBody s.payBytesRemaining.toNat [] s.curIsLast).1 := by
  have hzero : s.payBytesRemaining = 0 ↔ s.payBytesRemaining.toNat = 0 := by
    rw [← BitVec.toNat_inj]
    rfl
  have hend : s.mbFrameEndPulse = false := by
    cases he : s.mbFrameEndPulse with
    | false => rfl
    | true => simp [pulses, he] at h
  have herr : s.mbFrameErrorPulse = false := by
    cases he : s.mbFrameErrorPulse with
    | false => rfl
    | true => simp [pulses, he] at h
  simp only [State.wordDone, hzero, readBody, List.length_nil, Nat.sub_zero, List.take_nil,
    List.map_nil, List.nil_append]
  split_ifs <;> simp [pulses, awaits, State.complete, State.fail, hend, herr]

theorem clearPulses_pulses (s : State) : pulses s.clearPulses = [] := rfl

/-- An edge in a lane raises the beginning of what the word owes. -/
theorem lane_serves {s : State} {l : Nat} (h : lane? s = some l) (i : SlaveInput) :
    serializer.raised s i ++ owed (step s i) = owed s ∧ awaits (step s i) = awaits s := by
  rw [owed_lane h, awaits_lane h]
  cases ha : s.active l with
  | false =>
    have hraised : serializer.raised s i = pulses (step s i) :=
      serializer.raised_empty (lanes.queue_skipped h ha) i
    rw [hraised, restOfWord_skipped ha]
    cases l with
    | zero =>
      rw [skip_last h ha, owed_no_lane (wordDone_lane _), List.append_nil]
      exact wordDone_owed (clearPulses_pulses s.release)
    | succ l =>
      have hl := lane_lt h
      have hl' : lane? (step s i) = some l := by
        rw [skip_lane h ha]
        exact lane_of_laneState (Nat.lt_of_succ_lt hl) rfl
      rw [owed_lane hl', awaits_lane hl', skip_lane h ha]
      exact ⟨rfl, rfl⟩
  | true =>
    cases hr : i.byteReady with
    | false =>
      have hraised : serializer.raised s i = pulses (step s i) := serializer.raised_waiting hr s
      have hl' : lane? (step s i) = some l := by
        rw [wait_lane h ha hr]
        exact h
      rw [hraised, owed_lane hl', awaits_lane hl', wait_lane h ha hr]
      exact ⟨rfl, rfl⟩
    | true =>
      have hraised : serializer.raised s i =
          .item (laneByte s.curWord l) :: pulses (step s i) :=
        serializer.raised_item hr (lanes.queue_active h ha)
      rw [hraised, restOfWord_active ha rfl]
      cases l with
      | zero =>
        rw [load_last h ha hr, owed_no_lane (wordDone_lane _), List.append_nil]
        have hdone := wordDone_owed
          (s := (s.clearPulses.drive (laneByte s.curWord 0)).count) (clearPulses_pulses s)
        exact ⟨congrArg _ hdone.1, hdone.2⟩
      | succ l =>
        have hl := lane_lt h
        have hl' : lane? (step s i) = some l := by
          rw [load_lane h ha hr]
          exact lane_of_laneState (Nat.lt_of_succ_lt hl) rfl
        rw [owed_lane hl', awaits_lane hl', load_lane h ha hr]
        exact ⟨rfl, rfl⟩

/-! Between the words, the framer follows the reader. -/

theorem ready_of_no_lane {s : State} (h : lane? s = none) : sAxisTready s = true := by
  cases hst : s.state <;> simp [lane?, hst] at h <;> simp [sAxisTready, hst]

theorem not_ready_of_lane {s : State} {l : Nat} (h : lane? s = some l) :
    sAxisTready s = false := by
  cases hst : s.state <;> simp [lane?, hst] at h <;> simp [sAxisTready, hst]

theorem raised_no_lane {s : State} (h : lane? s = none) (i : SlaveInput) :
    serializer.raised s i = pulses (step s i) := by
  rw [Serializer.raised, show serializer.queue s = [] from lanes.queue_no_lane h]
  simp only [List.map_nil, ite_self, List.nil_append]
  rfl

/-- An edge without a word changes nothing that matters. -/
theorem idle_serves {s : State} (h : lane? s = none) {i : SlaveInput} (hv : i.tvalid = false) :
    serializer.raised s i ++ owed (step s i) = owed s ∧ awaits (step s i) = awaits s := by
  rw [raised_no_lane h, owed_no_lane h]
  cases hst : s.state with
  | payE0 | payE1 | payE2 | payE3 => simp [lane?, hst] at h
  | _ => simp [step, hst, hv, State.clearPulses, State.release, pulses, owed, lane?, awaits]

theorem headerDone_serves {s : State} (hend : s.mbFrameEndPulse = false)
    (herr : s.mbFrameErrorPulse = false) (last : Bool) :
    pulses (s.headerDone last) = (readHeader s.frameLenQ s.pduLenBitsQ last).2 ∧
      awaits (s.headerDone last) = (readHeader s.frameLenQ s.pduLenBitsQ last).1 ∧
      lane? (s.headerDone last) = none := by
  by_cases hp : s.pduLenBitsQ.toNat < 2048
  · have hhigh := (high_bits_zero_iff s.pduLenBitsQ).2 hp
    have hlen := frame_len_iff (f := s.frameLenQ) hp
    have hzero := ceil_zero_iff hp
    have hbytes := ceilBitsToBytes10_toNat hp
    by_cases hf : s.frameLenQ.toNat = 36 + payloadBytes s.pduLenBitsQ
    · have hok : LengthsOk s.frameLenQ s.pduLenBitsQ := ⟨hp, hf⟩
      rw [readHeader, if_pos hok, State.headerDone, if_neg (not_not.2 hhigh),
        if_neg (not_not.2 (hlen.2 hf))]
      simp only [hzero, State.header, State.complete, State.fail]
      by_cases hn : payloadBytes s.pduLenBitsQ = 0 <;> cases last <;>
        simp [hn, pulses, awaits, lane?, hend, herr, hbytes]
    · have hok : ¬ LengthsOk s.frameLenQ s.pduLenBitsQ := fun h => hf h.2
      rw [readHeader, if_neg hok, State.headerDone, if_neg (not_not.2 hhigh),
        if_pos (mt hlen.1 hf), State.drop, State.fail]
      cases last <;> simp [pulses, awaits, lane?, resync, hend]
  · have hok : ¬ LengthsOk s.frameLenQ s.pduLenBitsQ := fun h => hp h.1
    rw [readHeader, if_neg hok, State.headerDone,
      if_pos (mt (high_bits_zero_iff s.pduLenBitsQ).1 hp), State.drop, State.fail]
    cases last <;> simp [pulses, awaits, lane?, resync, hend]

/-- A word is read as the reader reads it. -/
theorem word_serves {s : State} (h : lane? s = none) {i : SlaveInput} (hv : i.tvalid = true) :
    serializer.raised s i ++ owed (step s i) = (read (awaits s) i.beat).2 ∧
      awaits (step s i) = (read (awaits s) i.beat).1 := by
  have hready := ready_of_no_lane h
  rw [raised_no_lane h]
  cases hst : s.state with
  | payE0 | payE1 | payE2 | payE3 => simp [lane?, hst] at h
  | hdrW0 =>
    simp only [step, hst, hv, hready, State.clearPulses, State.header, State.drop, State.release,
      State.fail, awaits, read, SlaveInput.beat, resync]
    by_cases hm : i.tdata = MAGIC_TMAS <;> cases i.tlast <;> simp [hm, pulses, owed, lane?]
  | hdrW1 | hdrW2 | hdrW3 | hdrW4 | hdrW5 | hdrW6 | hdrW7 =>
    simp only [step, hst, hv, hready, State.clearPulses, State.header, State.fail, awaits, read,
      SlaveInput.beat]
    cases i.tlast <;> simp [pulses, owed, lane?]
  | hdrW8 =>
    have hstep : step s i = { s.clearPulses with mbReqHandle := i.tdata }.headerDone i.tlast := by
      simp [step, hst, hv, hready, State.clearPulses]
    obtain ⟨hpulses, hawaits, hlane⟩ := headerDone_serves
      (s := { s.clearPulses with mbReqHandle := i.tdata }) rfl rfl i.tlast
    rw [hstep, owed_no_lane hlane, List.append_nil, hpulses, hawaits, awaits, hst]
    exact ⟨rfl, rfl⟩
  | payLd =>
    simp only [step, hst, hv, hready, State.clearPulses, State.release, awaits, read]
    simp [pulses, owed, lane?, restOfWord, lanesBelow_four, Beat.bytes, SlaveInput.beat]
  | drain =>
    simp only [step, hst, hv, hready, State.clearPulses, State.release, awaits, read, resync,
      SlaveInput.beat]
    cases i.tlast <;> simp [pulses, owed, lane?]

theorem serves : serializer.Serves reader awaits owed Inv where
  take {s i w} _ ht := by
    cases h : lane? s with
    | some l =>
      simp [serializer, not_ready_of_lane h] at ht
    | none =>
      cases hv : i.tvalid with
      | false => simp [serializer, hv] at ht
      | true =>
        have hw : w = i.beat := by
          simp only [serializer, hv, ready_of_no_lane h, Bool.and_self, if_true,
            Option.some.injEq] at ht
          exact ht.symm
        rw [owed_no_lane h, hw]
        exact word_serves h hv
  stay {s i} _ ht := by
    cases h : lane? s with
    | some l => exact lane_serves h i
    | none =>
      cases hv : i.tvalid with
      | false => exact idle_serves h hv
      | true =>
        simp [serializer, hv, ready_of_no_lane h] at ht

end TetraBs.Infra.TmasapTx
