import TetraBs.Infra.Axis
import TetraBs.Lib.Stream

/-! The framer `tetra_tmasap_rx_framer` of the TmaSap-RX channel: TMAS frames on request of the
UMAC reassembly, TMAR reports on a pulse. One step is one rising clock edge. -/
namespace TetraBs.Infra.TmasapRx
open TetraBs.Run TetraBs.Stream

inductive FsmState where
  | idle
  | tmasW0 | tmasW1 | tmasW2 | tmasW3 | tmasW4 | tmasW5 | tmasW6 | tmasW7 | tmasW8 | tmasPay
  | tmarW0 | tmarW1 | tmarW2 | tmarW3
deriving DecidableEq

structure Input where
  umacValid : Bool
  umacPdu : BitVec 129
  umacPduLen : BitVec 11
  umacSsi : BitVec 24
  umacSsiType : BitVec 3
  umacEndpointId : Word
  umacScramblingCode : Word
  tmarEmitPulse : Bool
  tmarReqHandle : Word
  tmarReportCode : BitVec 8
  tready : Bool

structure State where
  state : FsmState
  pduQ : BitVec 129
  pduLenBitsQ : BitVec 11
  ssiQ : BitVec 24
  ssiTypeQ : BitVec 3
  endpointIdQ : Word
  scramblingCodeQ : Word
  reqHandleQ : Word
  reportCodeQ : BitVec 8
  payWordsTotal : BitVec 5
  payWordIdx : BitVec 5
  frameLenBytes : BitVec 16
  tdata : Word
  tvalid : Bool
  tlast : Bool
  tkeep : BitVec 4
  tlmTmasFramesCnt : Word
  tlmTmarFramesCnt : Word
  tlmRxDropCnt : BitVec 16

def reset : State :=
  ⟨.idle, 0, 0, 0, 0, 0, 0, 0, 0, 0, 0, 0, 0, false, false, 0, 0, 0, 0⟩

/-- `tmp[7:3]` of the 14-bit sum: the byte count wraps at 32. -/
def ceilBitsToBytes (bitsIn : BitVec 11) : BitVec 5 :=
  (bitsIn.setWidth 14 + 7#14).extractLsb' 3 5

def ceilBytesToWords (bytesIn : BitVec 5) : BitVec 5 :=
  (bytesIn.setWidth 7 + 3#7).extractLsb' 2 5

def umacReady (s : State) (i : Input) : Bool := s.state = .idle && !i.tmarEmitPulse

/-- The body left-aligned in 160 bits, cut into words. -/
def payWordAt (pdu : BitVec 129) (idx : Nat) : Word :=
  let payPadBuf : BitVec 160 := pdu ++ 0#31
  match idx with
  | 0 => payPadBuf.extractLsb' 128 32
  | 1 => payPadBuf.extractLsb' 96 32
  | 2 => payPadBuf.extractLsb' 64 32
  | 3 => payPadBuf.extractLsb' 32 32
  | 4 => payPadBuf.extractLsb' 0 32
  | _ => 0

/-- Puts a beat into the output register. -/
def State.drive (s : State) (w : Word) (last : Bool) : State :=
  { s with tdata := w, tvalid := true, tkeep := 0b1111, tlast := last }

def saturatingInc (c : Word) : Word := if c ≠ 0xFFFFFFFF then c + 1 else c

/-- The last payload word is being driven. -/
def atLastPay (idx total : BitVec 5) : Bool := idx = total - 1

def step (s : State) (i : Input) : State :=
  match s.state with
  | .idle =>
    let s := { s with tvalid := false, tlast := false, tkeep := 0 }
    if i.tmarEmitPulse then
      { s with reqHandleQ := i.tmarReqHandle, reportCodeQ := i.tmarReportCode, state := .tmarW0 }
    else if i.umacValid then
      { s with
        pduQ := i.umacPdu, pduLenBitsQ := i.umacPduLen, ssiQ := i.umacSsi
        ssiTypeQ := i.umacSsiType, endpointIdQ := i.umacEndpointId
        scramblingCodeQ := i.umacScramblingCode
        payWordsTotal := ceilBytesToWords (ceilBitsToBytes i.umacPduLen)
        payWordIdx := 0
        frameLenBytes := 36#16 + (ceilBitsToBytes i.umacPduLen).setWidth 16
        state := .tmasW0 }
    else s
  | .tmasW0 => next (s.drive MAGIC_TMAS false) .tmasW1
  | .tmasW1 => next (s.drive (s.frameLenBytes ++ s.pduLenBitsQ.setWidth 16) false) .tmasW2
  | .tmasW2 => next (s.drive (0#8 ++ s.ssiQ) false) .tmasW3
  | .tmasW3 => next (s.drive (s.ssiTypeQ.setWidth 8 ++ 0#24) false) .tmasW4
  | .tmasW4 => next (s.drive s.endpointIdQ false) .tmasW5
  | .tmasW5 => next (s.drive 0 false) .tmasW6
  | .tmasW6 => next (s.drive 0 false) .tmasW7
  | .tmasW7 => next (s.drive s.scramblingCodeQ false) .tmasW8
  | .tmasW8 =>
    let s := s.drive 0 (s.payWordsTotal = 0)
    if i.tready then
      if s.payWordsTotal = 0 then
        { s with tlmTmasFramesCnt := saturatingInc s.tlmTmasFramesCnt, state := .idle }
      else { s with state := .tmasPay }
    else s
  | .tmasPay =>
    let s := s.drive (payWordAt s.pduQ s.payWordIdx.toNat)
      (atLastPay s.payWordIdx s.payWordsTotal)
    if i.tready then
      if atLastPay s.payWordIdx s.payWordsTotal then
        { s with tlmTmasFramesCnt := saturatingInc s.tlmTmasFramesCnt, state := .idle }
      else { s with payWordIdx := s.payWordIdx + 1 }
    else s
  | .tmarW0 => next (s.drive MAGIC_TMAR false) .tmarW1
  | .tmarW1 => next (s.drive (12#16 ++ 0#16) false) .tmarW2
  | .tmarW2 => next (s.drive s.reqHandleQ false) .tmarW3
  | .tmarW3 =>
    let s := s.drive (s.reportCodeQ ++ 0#24) true
    if i.tready then
      { s with tlmTmarFramesCnt := saturatingInc s.tlmTmarFramesCnt, state := .idle }
    else s
where
  next (s : State) (st : FsmState) : State := if i.tready then { s with state := st } else s

/-! The requests, as the header comment lays out their frames. -/

inductive Request where
  | tmas (pdu : BitVec 129) (pduLen : BitVec 11) (ssi : BitVec 24) (ssiType : BitVec 3)
      (endpointId scramblingCode : Word)
  | tmar (reqHandle : Word) (reportCode : BitVec 8)

def Request.words : Request → List Word
  | .tmas pdu pduLen ssi ssiType endpointId scramblingCode =>
    let bytes := (pduLen.toNat + 7) / 8
    [MAGIC_TMAS, BitVec.ofNat 16 (36 + bytes) ++ pduLen.setWidth 16, 0#8 ++ ssi,
      ssiType.setWidth 8 ++ 0#24, endpointId, 0, 0, scramblingCode, 0] ++
      (List.range' 0 ((bytes + 3) / 4)).map (payWordAt pdu)
  | .tmar reqHandle reportCode =>
    [MAGIC_TMAR, 12#16 ++ 0#16, reqHandle, reportCode ++ 0#24]

def Request.beats (r : Request) : List Beat := frameBeats r.words

/-- A report is asked for by the pulse alone, a TMAS frame by `valid` and `ready`. -/
def requested (s : State) (i : Input) : List Request :=
  (if i.tmarEmitPulse then [.tmar i.tmarReqHandle i.tmarReportCode] else []) ++
    (if i.umacValid && umacReady s i then
      [.tmas i.umacPdu i.umacPduLen i.umacSsi i.umacSsiType i.umacEndpointId
        i.umacScramblingCode] else [])

/-! The framer as a source of beats. -/

def State.headerWords (s : State) : List Word :=
  [MAGIC_TMAS, s.frameLenBytes ++ s.pduLenBitsQ.setWidth 16, 0#8 ++ s.ssiQ,
    s.ssiTypeQ.setWidth 8 ++ 0#24, s.endpointIdQ, 0, 0, s.scramblingCodeQ]

def State.payBeats (s : State) : List Beat :=
  (List.range' s.payWordIdx.toNat (s.payWordsTotal.toNat - s.payWordIdx.toNat)).map fun k =>
    ⟨payWordAt s.pduQ k, 0b1111, k + 1 = s.payWordsTotal.toNat⟩

/-- The beats from header word `k` on. -/
def State.tmasFrom (s : State) (k : Nat) : List Beat :=
  (s.headerWords.drop k).map Beat.mid ++ ⟨0, 0b1111, s.payWordsTotal = 0⟩ :: s.payBeats

def State.tmarFrom (s : State) (k : Nat) : List Beat :=
  frameBeats ([MAGIC_TMAR, 12#16 ++ 0#16, s.reqHandleQ, s.reportCodeQ ++ 0#24].drop k)

def queue (s : State) : List Beat :=
  match s.state with
  | .idle => []
  | .tmasW0 => s.tmasFrom 0
  | .tmasW1 => s.tmasFrom 1
  | .tmasW2 => s.tmasFrom 2
  | .tmasW3 => s.tmasFrom 3
  | .tmasW4 => s.tmasFrom 4
  | .tmasW5 => s.tmasFrom 5
  | .tmasW6 => s.tmasFrom 6
  | .tmasW7 => s.tmasFrom 7
  | .tmasW8 => s.tmasFrom 8
  | .tmasPay => s.payBeats
  | .tmarW0 => s.tmarFrom 0
  | .tmarW1 => s.tmarFrom 1
  | .tmarW2 => s.tmarFrom 2
  | .tmarW3 => s.tmarFrom 3

def offered (s : State) : Option Beat :=
  if s.tvalid then some ⟨s.tdata, s.tkeep, s.tlast⟩ else none

def source : Source State Input Beat where
  step := step
  offered := offered
  ready := Input.tready
  queue := queue
  first := fun s => s.state = .tmasW0 || s.state = .tmarW0
  refill := fun s i => if s.state = .idle then queue (step s i) else []

def Inv (s : State) : Prop :=
  (s.payWordIdx = 0 ∨ s.payWordIdx < s.payWordsTotal) ∧
    (s.state = .tmasPay → s.payWordIdx < s.payWordsTotal)

theorem inv_reset : Inv reset := ⟨.inl rfl, fun h => nomatch h⟩

theorem atLastPay_iff {s : State} (h : s.payWordIdx < s.payWordsTotal) :
    atLastPay s.payWordIdx s.payWordsTotal = true ↔ s.payWordIdx.toNat + 1 = s.payWordsTotal.toNat := by
  rw [atLastPay, decide_eq_true_iff]
  constructor <;> intro hlast <;> bv_omega

theorem Inv.keep {s s' : State} (h : Inv s) (hidx : s'.payWordIdx = s.payWordIdx)
    (htotal : s'.payWordsTotal = s.payWordsTotal) (hst : s'.state ≠ .tmasPay) : Inv s' := by
  refine ⟨?_, fun hpay => absurd hpay hst⟩
  rw [hidx, htotal]
  exact h.1

theorem inv_step (s : State) (i : Input) (h : Inv s) : Inv (step s i) := by
  cases hst : s.state with
  | idle =>
    simp only [step, hst]
    split
    · exact h.keep rfl rfl (by simp)
    · split
      · exact ⟨.inl rfl, fun h => nomatch h⟩
      · exact h.keep rfl rfl (by simp)
  | tmasW8 =>
    simp only [step, hst, State.drive]
    split
    · split
      · exact h.keep rfl rfl (by simp)
      · rename_i hne
        have hlt : s.payWordIdx < s.payWordsTotal := by
          rcases h.1 with hz | hlt
          · rw [hz]
            bv_omega
          · exact hlt
        exact ⟨.inr hlt, fun _ => hlt⟩
    · exact h.keep rfl rfl (by simp)
  | tmasPay =>
    have hlt := h.2 hst
    simp only [step, hst, State.drive]
    split
    · split
      · exact h.keep rfl rfl (by simp)
      · rename_i hlast
        have hnot : ¬ s.payWordIdx.toNat + 1 = s.payWordsTotal.toNat := fun he =>
          hlast ((atLastPay_iff hlt).2 he)
        have hlt' : s.payWordIdx + 1 < s.payWordsTotal := by bv_omega
        exact ⟨.inr hlt', fun _ => hlt'⟩
    · exact ⟨.inr hlt, fun _ => hlt⟩
  | _ =>
    simp only [step, step.next, hst, State.drive]
    split
    · exact h.keep rfl rfl (by simp)
    · exact h.keep rfl rfl (by simp)

theorem payBeats_step {s : State} (h : s.payWordIdx < s.payWordsTotal) :
    s.payBeats = ⟨payWordAt s.pduQ s.payWordIdx.toNat, 0b1111, atLastPay s.payWordIdx s.payWordsTotal⟩ ::
      (List.range' (s.payWordIdx.toNat + 1)
        (s.payWordsTotal.toNat - (s.payWordIdx.toNat + 1))).map fun k =>
          ⟨payWordAt s.pduQ k, 0b1111, k + 1 = s.payWordsTotal.toNat⟩ := by
  have hlt : s.payWordIdx.toNat < s.payWordsTotal.toNat := h
  obtain ⟨n, hn⟩ := Nat.exists_eq_add_of_lt hlt
  have hlast : atLastPay s.payWordIdx s.payWordsTotal =
      decide (s.payWordIdx.toNat + 1 = s.payWordsTotal.toNat) := by
    rw [Bool.eq_iff_iff, decide_eq_true_iff]
    exact atLastPay_iff h
  rw [State.payBeats, hlast, hn, show s.payWordIdx.toNat + n + 1 - s.payWordIdx.toNat = n + 1 by omega,
    show s.payWordIdx.toNat + n + 1 - (s.payWordIdx.toNat + 1) = n by omega, List.range'_succ]
  rfl

theorem queue_eq_nil {s : State} (hi : Inv s) (hq : queue s = []) : s.state = .idle := by
  cases hst : s.state with
  | idle => rfl
  | tmasPay => simp [queue, hst, payBeats_step (hi.2 hst)] at hq
  | _ => simp [queue, hst, State.tmasFrom, State.tmarFrom, frameBeats] at hq

theorem at_rest {s : State} (hst : s.state = .idle) (hv : s.tvalid = false) :
    source.queue s = [] ∧ source.offered s = none := by
  simp [source, queue, offered, hst, hv]

theorem loads : source.Loads Inv where
  idle {s} i hi hq := by
    have hst := queue_eq_nil hi hq
    refine ⟨?_, (if_pos hst).symm, ?_⟩
    · simp only [source, offered, step, hst]
      split
      · rfl
      · split <;> rfl
    · simp only [source, hst, if_true, step]
      split
      · simp
      · split
        · simp
        · simp [queue]
  go {s i b q} hi hq hr := by
    replace hr : i.tready = true := hr
    replace hq : queue s = b :: q := hq
    cases hst : s.state with
    | idle => simp [queue, hst] at hq
    | tmasPay =>
      have hlt := hi.2 hst
      rw [queue, hst, payBeats_step hlt, List.cons.injEq] at hq
      obtain ⟨rfl, rfl⟩ := hq
      by_cases hlast : atLastPay s.payWordIdx s.payWordsTotal = true
      · have hend := (atLastPay_iff hlt).1 hlast
        simp [source, step, hst, hr, State.drive, offered, queue, hlast, hend]
      · have hmod : (s.payWordIdx.toNat + 1) % 32 = s.payWordIdx.toNat + 1 := by bv_omega
        simp [source, step, hst, hr, State.drive, offered, queue, hlast, State.payBeats, hmod]
    | tmasW8 =>
      simp only [queue, hst, State.tmasFrom, State.headerWords, List.drop, List.map_nil,
        List.nil_append, List.cons.injEq] at hq
      obtain ⟨rfl, rfl⟩ := hq
      by_cases hz : s.payWordsTotal = 0#5
      · simp [source, step, hst, hr, State.drive, offered, queue, hz, State.payBeats]
      · simp [source, step, hst, hr, State.drive, offered, queue, hz, State.payBeats]
    | _ =>
      simp only [queue, hst, State.tmasFrom, State.tmarFrom, State.headerWords, frameBeats,
        List.drop, List.map, List.nil_append, List.cons_append, List.cons.injEq] at hq
      obtain ⟨rfl, rfl⟩ := hq
      simp [source, step, step.next, hst, hr, State.drive, offered, queue, Beat.mid, frameBeats,
        State.tmasFrom, State.tmarFrom, State.headerWords, State.payBeats]
  wait {s i b q} hi hq hr := by
    replace hr : i.tready = false := hr
    replace hq : queue s = b :: q := hq
    cases hst : s.state with
    | idle => simp [queue, hst] at hq
    | tmasPay =>
      have hlt := hi.2 hst
      have hq' := hq
      rw [queue, hst, payBeats_step hlt, List.cons.injEq] at hq'
      obtain ⟨rfl, rfl⟩ := hq'
      rw [← hq]
      simp [source, step, hst, hr, State.drive, offered, queue, State.payBeats]
    | _ =>
      simp only [queue, hst, State.tmasFrom, State.tmarFrom, State.headerWords, frameBeats,
        List.drop, List.map, List.nil_append, List.cons_append, List.cons.injEq] at hq
      obtain ⟨rfl, rfl⟩ := hq
      simp [source, step, step.next, hst, hr, State.drive, offered, queue, Beat.mid, frameBeats,
        State.tmasFrom, State.tmarFrom, State.headerWords, State.payBeats]

theorem ceilBitsToBytes_toNat {n : BitVec 11} (h : n.toNat ≤ 248) :
    (ceilBitsToBytes n).toNat = (n.toNat + 7) / 8 := by
  simp only [ceilBitsToBytes, BitVec.extractLsb'_toNat, BitVec.toNat_add, BitVec.toNat_setWidth,
    BitVec.toNat_ofNat, Nat.shiftRight_eq_div_pow]
  omega

theorem ceilBytesToWords_toNat (n : BitVec 5) :
    (ceilBytesToWords n).toNat = (n.toNat + 3) / 4 := by
  simp only [ceilBytesToWords, BitVec.extractLsb'_toNat, BitVec.toNat_add, BitVec.toNat_setWidth,
    BitVec.toNat_ofNat, Nat.shiftRight_eq_div_pow]
  omega

/-- A report pulse finds the framer idle, and a body length does not overflow the 5-bit byte
count (the port contract promises 1..129 bits). -/
def Accepted (s : State) (i : Input) : Prop :=
  (i.tmarEmitPulse = true → s.state = .idle) ∧
    (i.umacValid = true → umacReady s i = true → i.umacPduLen.toNat ≤ 248)

theorem tmasFrom_zero {s : State} {n : Nat} (hidx : s.payWordIdx = 0)
    (htotal : s.payWordsTotal.toNat = n) :
    s.tmasFrom 0 =
      frameBeats (s.headerWords ++ 0 :: (List.range' 0 n).map (payWordAt s.pduQ)) := by
  have hz : decide (s.payWordsTotal = 0) = decide (n = 0) := by
    rw [decide_eq_decide, ← htotal, BitVec.toNat_eq]
    rfl
  rw [frameBeats_append _ (List.cons_ne_nil _ _), State.tmasFrom, State.payBeats, hz, hidx, htotal]
  cases n with
  | zero => rfl
  | succ m =>
    rw [frameBeats_cons _ (by simp), frameBeats_range]
    simp [Beat.mid]

/-- What the framer queues for an accepted request is the frame asked for. -/
theorem refill_eq {s : State} {i : Input} (h : Accepted s i) :
    source.refill s i = (requested s i).flatMap Request.beats := by
  by_cases hst : s.state = .idle
  · simp only [source, hst, if_true, step]
    by_cases hpulse : i.tmarEmitPulse = true
    · simp only [hpulse, if_true, requested, umacReady, Bool.not_true, Bool.and_false,
        Bool.false_eq_true, if_false, List.append_nil, List.flatMap_cons, List.flatMap_nil]
      rfl
    · have hready : umacReady s i = true := by simp [umacReady, hst, hpulse]
      by_cases hvalid : i.umacValid = true
      · simp only [hpulse, hvalid, if_true, Bool.false_eq_true, if_false, requested, hready,
          Bool.and_self, List.nil_append, List.flatMap_cons, List.flatMap_nil, List.append_nil]
        have hbytes := ceilBitsToBytes_toNat (h.2 hvalid hready)
        have hlen : 36#16 + (ceilBitsToBytes i.umacPduLen).setWidth 16 =
            BitVec.ofNat 16 (36 + (i.umacPduLen.toNat + 7) / 8) := by
          apply BitVec.eq_of_toNat_eq
          rw [BitVec.toNat_add, BitVec.toNat_setWidth, hbytes, BitVec.toNat_ofNat,
            BitVec.toNat_ofNat]
          omega
        rw [queue, tmasFrom_zero rfl ((ceilBytesToWords_toNat _).trans (by rw [hbytes]))]
        simp only [State.headerWords, Request.beats, Request.words, hlen, List.cons_append,
          List.nil_append]
      · simp [hpulse, hvalid, requested, queue]
  · have hpulse : i.tmarEmitPulse = false := by
      cases hp : i.tmarEmitPulse with
      | false => rfl
      | true => exact absurd (h.1 hp) hst
    simp [source, hst, requested, hpulse, umacReady]

/-- The log of requests. -/
def note (log : List Request) (s : State) (i : Input) : List Request := log ++ requested s i

def words (log : List Request) : List Beat := log.flatMap Request.beats

/-- What an edge must meet for the transfer law. -/
def Meets (t : Traffic State Beat (List Request)) (i : Input) : Prop :=
  source.KeepsUp t.state i ∧ Accepted t.state i

instance (t : Traffic State Beat (List Request)) (i : Input) : Decidable (Meets t i) :=
  inferInstanceAs (Decidable (source.KeepsUp t.state i ∧
    (i.tmarEmitPulse = true → t.state.state = .idle) ∧
    (i.umacValid = true → umacReady t.state i = true → i.umacPduLen.toNat ≤ 248)))

theorem delivered {is : List Input}
    (ha : Along (Traffic.edge source note) Meets (Traffic.start reset []) is) :
    (exec (Traffic.edge source note) (Traffic.start reset []) is).Delivered source id words := by
  obtain ⟨hsettled, hconserved⟩ := Traffic.run_conserved loads inv_step
    (fun _ _ h => h.1) inv_reset rfl rfl ha
  refine hconserved.delivered hsettled ?_
  refine exec_invariant (fun t : Traffic State Beat (List Request) => t.due.map id = words t.log)
    (fun t i ht hm => ?_) rfl ha
  rw [List.map_id] at ht ⊢
  change t.due ++ source.refill t.state i = words (t.log ++ requested t.state i)
  rw [ht, refill_eq hm.2, words, words, List.flatMap_append]

end TetraBs.Infra.TmasapRx
