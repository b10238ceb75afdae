import TetraBs.Lib.BurstSender
import TetraBs.Lmac.BurstMux

/-! Every slot pulse becomes one burst: the builder as a sender with one waiting burst, and the
slot pulses as requests that come no faster than bursts go out. -/
namespace TetraBs.Lmac
open TetraBs.BurstSender TetraBs.Pacing TetraBs.Run TetraBs.SymbolShift

/-! The builder. -/

namespace BurstBuilder

/-- The sender that the builder implements. -/
def Carries (b : BurstBuilder) (s : Sender (BitVec 510)) : Prop :=
  match b.state with
  | .idle => s.current = none ∧ b.chainPending = false ∧ b.txBusy = b.buildReqPending ∧
      s.next = if b.buildReqPending then some b.burstSreg else none
  | .shift => (∃ x, s.current = some (x, b.symCnt) ∧
        ∀ j, j + b.symCnt ≤ 254 → symbol b.burstSreg (254 - j) = sentAt x (j + b.symCnt)) ∧
      b.symCnt ≤ 254 ∧ b.txBusy = true ∧ b.buildReqPending = false ∧
      s.next = if b.chainPending then some b.chainBurst else none
  | .done => s = .rest ∧ b.chainPending = false ∧ b.buildReqPending = false

variable {b : BurstBuilder} {s : Sender (BitVec 510)} {i : BuildInput}

theorem carries_idle (h : b.state = .idle) : b.Carries s ↔ s.current = none ∧
    b.chainPending = false ∧ b.txBusy = b.buildReqPending ∧
      s.next = if b.buildReqPending then some b.burstSreg else none := by
  rw [Carries, h]

theorem carries_shift (h : b.state = .shift) : b.Carries s ↔ (∃ x, s.current = some (x, b.symCnt) ∧
      ∀ j, j + b.symCnt ≤ 254 → symbol b.burstSreg (254 - j) = sentAt x (j + b.symCnt)) ∧
    b.symCnt ≤ 254 ∧ b.txBusy = true ∧ b.buildReqPending = false ∧
    s.next = if b.chainPending then some b.chainBurst else none := by
  rw [Carries, h]

theorem carries_done (h : b.state = .done) :
    b.Carries s ↔ s = .rest ∧ b.chainPending = false ∧ b.buildReqPending = false := by
  rw [Carries, h]

/-- A cycle without a symbol and without a request; a builder that is done becomes idle. -/
theorem Carries.wait (h : b.Carries s) (hsym : i.symEnExt = false) (hreq : i.buildReq = false) :
    (b.step i).Carries s ∧ (b.step i).state ≠ .done := by
  cases hstate : b.state with
  | idle =>
    have hstate' : (b.step i).state = .idle := by simp [step, symEn, hsym, hstate]
    rw [carries_idle hstate']
    rw [carries_idle hstate] at h
    simpa [step, symEn, reload, hsym, hreq, hstate] using h
  | shift =>
    have hstate' : (b.step i).state = .shift := by simp [step, symEn, hsym, hstate]
    rw [carries_shift hstate']
    rw [carries_shift hstate] at h
    simpa [step, symEn, reload, hsym, hreq, hstate] using h
  | done =>
    have hstate' : (b.step i).state = .idle := by simp [step, hstate]
    rw [carries_idle hstate']
    rw [carries_done hstate] at h
    obtain ⟨rfl, hchain, hpend⟩ := h
    simp [step, symEn, reload, hsym, hreq, hstate, hchain, hpend, Sender.rest]

/-- A request when no burst waits. -/
theorem Carries.ask (h : b.Carries s) (hsym : i.symEnExt = false) (hreq : i.buildReq = true)
    (hstate : b.state ≠ .done) (hnext : s.next = none) :
    (b.step i).Carries (s.ask (burst i)) ∧ (b.step i).state ≠ .done := by
  cases hst : b.state with
  | idle =>
    have hstate' : (b.step i).state = .idle := by simp [step, symEn, hsym, hst]
    rw [carries_idle hst] at h
    obtain ⟨hcur, hchain, hbusy, hwait⟩ := h
    have hpend : b.buildReqPending = false := by
      cases hp : b.buildReqPending with
      | false => rfl
      | true => simp [hnext, hp] at hwait
    rw [carries_idle hstate', hstate']
    simp [step, symEn, hsym, hreq, hst, hcur, hchain, hbusy, hpend, Sender.ask]
  | shift =>
    have hstate' : (b.step i).state = .shift := by simp [step, symEn, hsym, hst]
    rw [carries_shift hst] at h
    obtain ⟨hcur, hcnt, hbusy, hpend, -⟩ := h
    rw [carries_shift hstate', hstate']
    simp [step, symEn, reload, hsym, hreq, hst, hcur, hcnt, hbusy, hpend, Sender.ask]
  | done => exact absurd hst hstate

theorem Carries.symbol_idle (h : b.Carries s) (hsym : i.symEnExt = true)
    (hreq : i.buildReq = false) (hstate : b.state = .idle) :
    (b.step i).Carries (s.tick 254) ∧ (b.step i).put = s.out sentAt := by
  rw [carries_idle hstate] at h
  obtain ⟨hcur, hchain, hbusy, hnext⟩ := h
  have htick : s.tick 254 = ⟨s.next.map (·, 0), none⟩ := by simp [Sender.tick, hcur]
  have hout : s.out sentAt = none := by simp [Sender.out, hcur]
  rw [htick, hout]
  cases hpend : b.buildReqPending with
  | false =>
    rw [hpend] at hbusy hnext
    have hstate' : (b.step i).state = .idle := by simp [step, symEn, hbusy, hstate]
    rw [carries_idle hstate']
    simp [step, symEn, reload, put, hreq, hstate, hchain, hbusy, hpend, hnext]
  | true =>
    rw [hpend] at hbusy hnext
    have hstate' : (b.step i).state = .shift := by
      simp [step, symEn, nextState, hsym, hbusy, hstate, hpend]
    rw [carries_shift hstate']
    simp [step, symEn, reload, nextState, put, hsym, hreq, hstate, hchain, hbusy, hpend, hnext,
      sentAt]

theorem Carries.symbol_shift (h : b.Carries s) (hsym : i.symEnExt = true)
    (hreq : i.buildReq = false) (hstate : b.state = .shift) :
    (b.step i).Carries (s.tick 254) ∧ (b.step i).put = s.out sentAt := by
  rw [carries_shift hstate] at h
  obtain ⟨⟨x, hcur, hsreg⟩, hle, hbusy, hpend, hnext⟩ := h
  have hput : (b.step i).put = s.out sentAt := by
    have hfirst := hsreg 0 (by omega)
    rw [Nat.sub_zero, Nat.zero_add] at hfirst
    simp [step, symEn, put, hsym, hstate, hbusy, Sender.out, hcur, hfirst]
  refine ⟨?_, hput⟩
  by_cases hlast : b.symCnt = 254
  · have htick : s.tick 254 = ⟨s.next.map (·, 0), none⟩ := by simp [Sender.tick, hcur, hlast]
    rw [htick, hnext]
    cases hchain : b.chainPending with
    | false =>
      have hstate' : (b.step i).state = .done := by
        simp [step, symEn, nextState, SYM_LAST, hsym, hbusy, hstate, hlast, hchain]
      rw [carries_done hstate']
      simp [step, symEn, reload, SYM_LAST, hsym, hreq, hstate, hchain, hbusy, hpend, Sender.rest]
    | true =>
      have hstate' : (b.step i).state = .shift := by
        simp [step, symEn, nextState, SYM_LAST, hsym, hbusy, hstate, hlast, hchain]
      rw [carries_shift hstate']
      simp [step, symEn, reload, SYM_LAST, hsym, hreq, hstate, hlast, hchain, hbusy, hpend, sentAt]
  · have htick : s.tick 254 = ⟨some (x, b.symCnt + 1), s.next⟩ := by
      simp only [Sender.tick, hcur]
      exact if_pos (by omega)
    have hnextState : b.nextState = .shift := by simp [nextState, SYM_LAST, hstate, hlast]
    have hstate' : (b.step i).state = .shift := by
      simp [step, symEn, hsym, hbusy, hstate, hnextState]
    have hcnt' : (b.step i).symCnt = b.symCnt + 1 := by
      simp [step, symEn, SYM_LAST, hsym, hbusy, hstate, hnextState, hlast]
      omega
    have hsreg' : (b.step i).burstSreg = push b.burstSreg 0 := by
      simp [step, symEn, reload, SYM_LAST, hsym, hbusy, hstate, hlast]
    rw [htick, carries_shift hstate', hcnt', hsreg']
    refine ⟨⟨x, rfl, fun j hj => ?_⟩, by omega, ?_⟩
    · rw [(by omega : 254 - j = 254 - (j + 1) + 1), symbol_push_succ _ _ (by omega),
        hsreg (j + 1) (by omega)]
      congr 1
      omega
    · simp [step, symEn, reload, SYM_LAST, hsym, hreq, hstate, hlast, hbusy, hpend, hnext]

theorem Carries.symbol (h : b.Carries s) (hsym : i.symEnExt = true) (hreq : i.buildReq = false)
    (hstate : b.state ≠ .done) :
    (b.step i).Carries (s.tick 254) ∧ (b.step i).put = s.out sentAt := by
  cases hst : b.state with
  | idle => exact h.symbol_idle hsym hreq hst
  | shift => exact h.symbol_shift hsym hreq hst
  | done => exact absurd hst hstate

end BurstBuilder

/-! The path. -/

namespace WatchedPath

/-- The last slot edge has not reached the builder. -/
def flying (w : WatchedPath) : Bool :=
  w.path.timebase.tdmaTick || w.path.timebase.slotPulse || w.path.mux.state ≠ .idle

/-- Symbols of the slot whose burst reached the builder last. -/
def phase (w : WatchedPath) : Nat := if w.flying then 255 else w.path.timebase.symCnt.toNat

/-- The stages that a slot edge goes through, by the cycles since the symbol that made it. -/
structure Timing (w : WatchedPath) : Prop where
  tick : w.path.timebase.tdmaTick = true → w.quiet = 0
  pulse : w.path.timebase.slotPulse = true → w.quiet = 1
  pending : w.path.mux.state = .pending → w.quiet = 2
  req : w.path.mux.state = .req → w.quiet = 3
  buildReq : w.path.mux.buildReq = decide (w.path.mux.state = .req)
  pulsed : w.pulsed = if w.path.mux.state = .pending then some w.path.mux.lat else none
  done : w.path.builder.state = .done → w.quiet = 0

/-- The bursts that have reached the builder, each with the symbols before it. -/
structure Clock (w : WatchedPath) (got : List (Nat × BitVec 510)) : Prop where
  handed : w.handed.map (fun p => (p.1, p.2.bits)) = got ++
    if w.path.mux.buildReq then [(w.sent.length, w.path.mux.build.bits)] else []
  symCnt : w.path.timebase.symCnt ≤ 254
  edge : w.flying = true → w.path.timebase.symCnt = 0
  due : ∀ p ∈ got, p.1 + w.phase ≤ w.sent.length
  free : w.loaded = false → w.path.timebase.syncLoadPending = false ∧
    w.sent.length = 255 * got.length + w.phase ∧
    ∀ n p, got[n]? = some p → p.1 = 255 * (n + 1)

structure Inv (w : WatchedPath) : Prop where
  timing : Timing w
  bursts : ∃ got s, Clock w got ∧ w.path.builder.Carries s ∧ Position 254 got w.sent.length s ∧
    Transmits 254 sentAt got w.sent

theorem inv_start : Inv start := by
  have hcarries : start.path.builder.Carries .rest := by
    rw [BurstBuilder.carries_idle rfl]
    simp [start, TxPath.reset, BurstBuilder.reset, Sender.rest]
  have htiming : Timing start := by
    constructor <;> simp [start, TxPath.reset, BurstMux.reset, BurstBuilder.reset,
      TdmaTimebase.reset]
  have hclock : Clock start [] := by
    constructor <;> simp [start, phase, flying, TxPath.reset, BurstMux.reset, TdmaTimebase.reset]
  exact ⟨htiming, [], .rest, hclock, hcarries,
    .silent fun p hp => absurd hp List.not_mem_nil, transmits_nil⟩

variable {w : WatchedPath} {i : TxInput}

theorem Timing.no_tick (h : Timing w) (hne : w.quiet ≠ 0) :
    w.path.timebase.tdmaTick = false :=
  Bool.eq_false_iff.2 (mt h.tick hne)

/-- A symbol finds the path at rest. -/
theorem Timing.rest (h : Timing w) (hq : 4 ≤ w.quiet) : w.path.timebase.tdmaTick = false ∧
    w.path.timebase.slotPulse = false ∧ w.path.mux.state = .idle ∧
      w.path.builder.state ≠ .done := by
  refine ⟨?_, ?_, ?_, ?_⟩
  · exact h.no_tick (by omega)
  · by_contra hno
    have hone := h.pulse (by simpa using hno)
    omega
  · cases hstate : w.path.mux.state with
    | idle => rfl
    | pending =>
      have htwo := h.pending hstate
      omega
    | req =>
      have hthree := h.req hstate
      omega
  · intro hdone
    have hzero := h.done hdone
    omega

/-- A symbol begins a new slot, without a load or with one, or goes on with the old one. -/
theorem Timing.phase_symbol (h : Timing w) (hcnt : w.path.timebase.symCnt ≤ 254)
    (hsym : i.timebase.symEn = true) (hq : 15 ≤ w.quiet) :
    (w.step i).path.timebase.symCnt ≤ 254 ∧
    ((w.step i).flying = true → (w.step i).path.timebase.symCnt = 0) ∧
    ((w.step i).phase = w.phase + 1 ∨
      w.path.timebase.syncCommit i.timebase = true ∧ (w.step i).phase = 0) := by
  obtain ⟨htick, hpulse, hstate, -⟩ := h.rest (by omega)
  have hstate' : (w.step i).path.mux.state = .idle := by
    simp [step, TxPath.step, BurstMux.step, BurstMux.nextState, hpulse, hstate]
  have hpulse' : (w.step i).path.timebase.slotPulse = false := htick
  have hfly : w.flying = false := by simp [flying, htick, hpulse, hstate]
  have hfly' : (w.step i).flying = (w.step i).path.timebase.tdmaTick := by
    rw [flying, hpulse', hstate']
    simp
  rw [phase, phase, hfly, hfly', if_neg Bool.false_ne_true]
  rcases TdmaTimebase.step_symbol (s := w.path.timebase) hsym with
    ⟨hcommit, htick', hcnt'⟩ | ⟨hcommit, htick', hcnt'⟩
  · have htick'' : (w.step i).path.timebase.tdmaTick = false := htick'
    have hcnt'' : (w.step i).path.timebase.symCnt = 0 := hcnt'
    rw [htick'', hcnt'']
    exact ⟨by decide, fun hno => absurd hno Bool.false_ne_true, Or.inr ⟨hcommit, rfl⟩⟩
  · have htick'' : (w.step i).path.timebase.tdmaTick = _ := htick'
    have hcnt'' : (w.step i).path.timebase.symCnt = _ := hcnt'
    rw [htick'', hcnt'']
    by_cases hlast : w.path.timebase.symCnt = 254
    · simp [hlast]
    · have hsucc : (w.path.timebase.symCnt + 1).toNat = w.path.timebase.symCnt.toNat + 1 := by
        bv_omega
      simp only [hlast, if_false, decide_false, Bool.false_eq_true, hsucc, true_or, and_true,
        false_implies]
      bv_omega

theorem Timing.symbol (h : Timing w) (hsym : i.timebase.symEn = true) (hq : 15 ≤ w.quiet) :
    Timing (w.step i) := by
  obtain ⟨htick, hpulse, hstate, -⟩ := h.rest (by omega)
  have hstate' : (w.step i).path.mux.state = .idle := by
    simp [step, TxPath.step, BurstMux.step, BurstMux.nextState, hpulse, hstate]
  have hzero : (w.step i).quiet = 0 := by simp [step, since, hsym]
  refine ⟨fun _ => hzero, ?_, ?_, ?_, ?_, ?_, fun _ => hzero⟩
  · intro hno
    exact absurd (htick.symm.trans hno) (by decide)
  · rw [hstate']
    intro hno
    cases hno
  · rw [hstate']
    intro hno
    cases hno
  · rw [hstate']
    simp [step, TxPath.step, BurstMux.step, BurstMux.nextState, hpulse, hstate]
  · rw [hstate']
    simp [step, hpulse]

theorem Clock.symbol {got : List (Nat × BitVec 510)} (h : Clock w got) (ht : Timing w)
    (hsym : i.timebase.symEn = true) (hq : 15 ≤ w.quiet) : Clock (w.step i) got := by
  obtain ⟨htick, hpulse, hstate, -⟩ := ht.rest (by omega)
  obtain ⟨hcnt', hedge', hphase⟩ := ht.phase_symbol h.symCnt hsym hq
  have hreq : w.path.mux.buildReq = false := by
    rw [ht.buildReq, hstate]
    rfl
  have hreq' : (w.step i).path.mux.buildReq = false := by
    simp [step, TxPath.step, BurstMux.step, BurstMux.nextState, hpulse, hstate]
  have hlen' : (w.step i).sent.length = w.sent.length + 1 := by simp [step, hsym]
  have hhanded : (w.step i).handed = w.handed := by
    have hpulsed := ht.pulsed
    rw [hstate] at hpulsed
    simp [step, hpulsed]
  have hold := h.handed
  rw [hreq] at hold
  refine ⟨?_, hcnt', hedge', ?_, ?_⟩
  · rw [hhanded, hold, hreq']
    rfl
  · intro p hp
    have hdue := h.due p hp
    rw [hlen']
    rcases hphase with hphase | ⟨-, hphase⟩ <;> omega
  · intro hfree
    have hload : w.loaded = false ∧ i.timebase.syncLoadStrobe = false := by
      simpa [step] using hfree
    obtain ⟨hpend, hlen, hstarts⟩ := h.free hload.1
    have hcommit : w.path.timebase.syncCommit i.timebase = false := by
      simp [TdmaTimebase.syncCommit, hpend, hload.2]
    rw [hcommit] at hphase
    have hpend' : (w.step i).path.timebase.syncLoadPending = false := by
      simp [step, TxPath.step, TdmaTimebase.step, hpend, hload.2]
    have hnext : (w.step i).phase = w.phase + 1 := by simpa using hphase
    exact ⟨hpend', by omega, hstarts⟩

theorem Inv.symbol (h : Inv w) (hsym : i.timebase.symEn = true) (hq : 15 ≤ w.quiet) :
    Inv (w.step i) := by
  refine ⟨h.timing.symbol hsym hq, ?_⟩
  obtain ⟨got, s, hclock, hcarries, hpos, hsent⟩ := h.bursts
  obtain ⟨htick, hpulse, hstate, hdone⟩ := h.timing.rest (by omega)
  have hreq : w.path.mux.buildReq = false := by
    rw [h.timing.buildReq, hstate]
    rfl
  obtain ⟨hcarries', hput⟩ := hcarries.symbol (i := w.path.mux.request i.timebase.symEn) hsym hreq
    hdone
  have hsent' : (w.step i).sent = w.sent ++ [s.out sentAt] := by
    rw [← hput]
    simp [step, hsym, TxPath.step]
  have hlen' : (w.step i).sent.length = w.sent.length + 1 := by
    rw [hsent', List.length_append, List.length_singleton]
  refine ⟨got, s.tick 254, hclock.symbol h.timing hsym hq, hcarries', ?_, ?_⟩
  · rw [hlen']
    exact hpos.tick hsent.apart
  · rw [hsent']
    exact hsent.put (hpos.owns hsent.apart)

theorem wait_timebase (hsym : i.timebase.symEn = false) :
    (w.step i).path.timebase.tdmaTick = false ∧
    (w.step i).path.timebase.slotPulse = w.path.timebase.tdmaTick ∧
    (w.step i).path.timebase.symCnt = w.path.timebase.symCnt ∧
    (w.step i).sent = w.sent ∧ (w.step i).quiet = w.quiet + 1 := by
  have htimebase : (w.step i).path.timebase = w.path.timebase.step i.timebase := rfl
  rw [htimebase, TdmaTimebase.step_quiet hsym]
  simp [step, since, hsym]

theorem Timing.wait (h : Timing w) (hsym : i.timebase.symEn = false)
    (hdone : (w.step i).path.builder.state ≠ .done) : Timing (w.step i) := by
  obtain ⟨htick', hpulse', -, -, hquiet'⟩ := wait_timebase (w := w) hsym
  have hmux : (w.step i).path.mux.state = w.path.mux.nextState w.path.timebase.slotPulse := rfl
  refine ⟨?_, ?_, ?_, ?_, rfl, ?_, fun hno => absurd hno hdone⟩
  · rw [htick']
    nofun
  · intro htick
    rw [hquiet', h.tick (hpulse'.symm.trans htick)]
  · rw [hmux, hquiet', BurstMux.nextState_pending]
    rintro ⟨-, hpulse⟩
    rw [h.pulse hpulse]
  · rw [hmux, hquiet', BurstMux.nextState_req]
    intro hstate
    rw [h.pending hstate]
  · -- a pulse finds the multiplexer idle
    rw [hmux, BurstMux.nextState]
    cases hpulse : w.path.timebase.slotPulse with
    | false => cases hstate : w.path.mux.state <;> simp [step, hpulse]
    | true =>
      have hone := h.pulse hpulse
      cases hstate : w.path.mux.state with
      | idle => simp [step, TxPath.step, BurstMux.step, hpulse, hstate]
      | pending =>
        have htwo := h.pending hstate
        omega
      | req =>
        have hthree := h.req hstate
        omega

/-- One more burst that starts one burst length after the one before. -/
theorem starts_concat {got : List (Nat × BitVec 510)} {t : Nat} {x : BitVec 510}
    (h : ∀ n p, got[n]? = some p → p.1 = 255 * (n + 1)) (ht : t = 255 * (got.length + 1)) {n : Nat}
    {p : Nat × BitVec 510} (hp : (got ++ [(t, x)])[n]? = some p) : p.1 = 255 * (n + 1) := by
  rcases Nat.lt_trichotomy n got.length with hlt | heq | hgt
  · rw [List.getElem?_append_left hlt] at hp
    exact h n p hp
  · rw [heq, List.getElem?_concat_length, Option.some_inj] at hp
    rw [← hp, heq]
    exact ht
  · rw [List.getElem?_eq_none (by simp; omega)] at hp
    cases hp

/-- The request reaches the builder. -/
theorem Clock.ask {got : List (Nat × BitVec 510)} (h : Clock w got) (ht : Timing w)
    (hsym : i.timebase.symEn = false) (hreq : w.path.mux.buildReq = true) :
    Clock (w.step i) (got ++ [(w.sent.length, w.path.mux.build.bits)]) ∧
      ∀ p ∈ got, p.1 + 255 ≤ w.sent.length := by
  obtain ⟨htick', hpulse', hcnt', hsent', hquiet'⟩ := wait_timebase (w := w) hsym
  have hstate : w.path.mux.state = .req := by simpa [ht.buildReq] using hreq
  have hthree := ht.req hstate
  have htick := ht.no_tick (by omega)
  have hnext : w.path.mux.nextState w.path.timebase.slotPulse = .idle := by
    rw [BurstMux.nextState, hstate]
  have hfly : w.flying = true := by simp [flying, hstate]
  have hfly' : (w.step i).flying = false := by
    rw [flying, htick', hpulse', htick]
    simp [step, TxPath.step, BurstMux.step, hnext]
  have hreq' : (w.step i).path.mux.buildReq = false := by
    simp [step, TxPath.step, BurstMux.step, hnext]
  have hphase : w.phase = 255 := by simp [phase, hfly]
  have hphase' : (w.step i).phase = 0 := by simp [phase, hfly', hcnt', h.edge hfly]
  have hhanded : (w.step i).handed = w.handed := by
    have hpulsed := ht.pulsed
    rw [hstate] at hpulsed
    simp [step, hpulsed]
  have hdue := h.due
  rw [hphase] at hdue
  refine ⟨⟨?_, ?_, ?_, ?_, ?_⟩, hdue⟩
  · rw [hhanded, h.handed, hreq, hreq']
    simp
  · rw [hcnt']
    exact h.symCnt
  · rw [hfly']
    exact fun hno => absurd hno Bool.false_ne_true
  · rw [hphase', hsent']
    intro p hp
    rw [List.mem_append, List.mem_singleton] at hp
    rcases hp with hp | rfl
    · have hle := hdue p hp
      omega
    · exact Nat.le_refl _
  · intro hfree
    have hload : w.loaded = false ∧ i.timebase.syncLoadStrobe = false := by
      simpa [step] using hfree
    obtain ⟨hpend, hlen, hstarts⟩ := h.free hload.1
    rw [hphase] at hlen
    refine ⟨?_, ?_, fun n p hp => ?_⟩
    · simp [step, TxPath.step, TdmaTimebase.step, hpend, hload.2]
    · rw [hsent', hphase', hlen, List.length_append, List.length_singleton]
      omega
    · exact starts_concat hstarts (by omega) hp

/-- A cycle without a symbol in which nothing reaches the builder. -/
theorem Clock.wait {got : List (Nat × BitVec 510)} (h : Clock w got) (ht : Timing w)
    (hsym : i.timebase.symEn = false) (hreq : w.path.mux.buildReq = false) :
    Clock (w.step i) got := by
  obtain ⟨htick', hpulse', hcnt', hsent', hquiet'⟩ := wait_timebase (w := w) hsym
  have hstate : w.path.mux.state ≠ .req := by simpa [ht.buildReq] using hreq
  have hmux : (w.step i).path.mux.state = w.path.mux.nextState w.path.timebase.slotPulse := rfl
  have hfly : (w.step i).flying = w.flying := by
    rw [flying, flying, htick', hpulse', hmux, BurstMux.nextState]
    cases hst : w.path.mux.state with
    | idle => cases w.path.timebase.tdmaTick <;> cases w.path.timebase.slotPulse <;> rfl
    | pending => simp
    | req => exact absurd hst hstate
  have hphase : (w.step i).phase = w.phase := by rw [phase, phase, hfly, hcnt']
  have hold := h.handed
  rw [hreq] at hold
  refine ⟨?_, ?_, ?_, ?_, ?_⟩
  · have hpulsed := ht.pulsed
    cases hst : w.path.mux.state with
    | idle =>
      rw [hst] at hpulsed
      have hreq' : (w.step i).path.mux.buildReq = false := by
        simp [step, TxPath.step, BurstMux.step, BurstMux.nextState_req, hst]
      rw [hreq']
      simpa [step, hpulsed] using hold
    | pending =>
      rw [hst] at hpulsed
      have hreq' : (w.step i).path.mux.buildReq = true := by
        simp [step, TxPath.step, BurstMux.step, BurstMux.nextState_req, hst]
      rw [hreq', if_pos rfl, hsent']
      have hbuild : (w.step i).path.mux.build = i.bus.data w.path.mux.lat := by
        simp [step, TxPath.step, BurstMux.step, BurstMux.nextState_req, hst]
      rw [hbuild]
      simpa [step, hpulsed] using hold
    | req => exact absurd hst hstate
  · rw [hcnt']
    exact h.symCnt
  · rw [hfly, hcnt']
    exact h.edge
  · rw [hphase, hsent']
    exact h.due
  · intro hfree
    have hload : w.loaded = false ∧ i.timebase.syncLoadStrobe = false := by
      simpa [step] using hfree
    obtain ⟨hpend, hlen, hstarts⟩ := h.free hload.1
    rw [hphase, hsent']
    refine ⟨?_, hlen, hstarts⟩
    simp [step, TxPath.step, TdmaTimebase.step, hpend, hload.2]

theorem Inv.wait (h : Inv w) (hsym : i.timebase.symEn = false) : Inv (w.step i) := by
  obtain ⟨got, s, hclock, hcarries, hpos, hsent⟩ := h.bursts
  have hsent' := (wait_timebase (w := w) hsym).2.2.2.1
  cases hreq : w.path.mux.buildReq with
  | false =>
    obtain ⟨hcarries', hdone⟩ :=
      hcarries.wait (i := w.path.mux.request i.timebase.symEn) hsym hreq
    refine ⟨h.timing.wait hsym hdone, got, s, hclock.wait h.timing hsym hreq, hcarries', ?_, ?_⟩
    · rw [hsent']
      exact hpos
    · rw [hsent']
      exact hsent
  | true =>
    obtain ⟨hclock', hdue⟩ := hclock.ask h.timing hsym hreq
    have hstate : w.path.builder.state ≠ .done := by
      intro hno
      have hthree := h.timing.req (by simpa [h.timing.buildReq] using hreq)
      have hzero := h.timing.done hno
      omega
    obtain ⟨hcarries', hdone⟩ := hcarries.ask (i := w.path.mux.request i.timebase.symEn) hsym hreq
      hstate (hpos.next_none hdue)
    refine ⟨h.timing.wait hsym hdone, _, _, hclock', hcarries', ?_, ?_⟩
    · rw [hsent']
      exact hpos.ask hdue _
    · rw [hsent']
      exact hsent.ask hdue _

theorem Inv.step (h : Inv w) (hq : i.timebase.symEn = true → 15 ≤ w.quiet) : Inv (w.step i) := by
  cases hsym : i.timebase.symEn with
  | false => exact h.wait hsym
  | true => exact h.symbol hsym (hq hsym)

/-- Each slot pulse's burst is sent, from the second symbol after its pulse on, whole, in order and
nothing else; without loads from the first burst on without a gap. -/
structure Follows (w : WatchedPath) : Prop where
  transmits : Transmits 254 sentAt (w.handed.map fun p => (p.1, p.2.bits)) w.sent
  seamless : w.loaded = false → w.sent <+: List.replicate 256 none ++
    (w.handed.flatMap fun p => symbols 254 sentAt p.2.bits).map some

/-- With the request that is on its way. -/
theorem Clock.complete {got : List (Nat × BitVec 510)} (h : Clock w got) (ht : Timing w)
    (hsent : Transmits 254 sentAt got w.sent) :
    Transmits 254 sentAt (w.handed.map fun p => (p.1, p.2.bits)) w.sent ∧
    (w.loaded = false → w.sent.length ≤ 255 * (w.handed.length + 1) ∧
      ∀ (n : Nat) (p : Nat × BitVec 510),
        (w.handed.map fun p => (p.1, p.2.bits))[n]? = some p → p.1 = 255 * (n + 1)) := by
  have hlen : w.handed.length = got.length + (if w.path.mux.buildReq then 1 else 0) := by
    have heq := congrArg List.length h.handed
    cases hreq : w.path.mux.buildReq <;> simpa [hreq] using heq
  have hcnt := h.symCnt
  rw [h.handed, hlen]
  cases hreq : w.path.mux.buildReq with
  | false =>
    have hphase : w.phase ≤ 255 := by
      rw [phase]
      split
      · exact Nat.le_refl _
      · bv_omega
    rw [if_neg Bool.false_ne_true, if_neg Bool.false_ne_true, List.append_nil]
    refine ⟨hsent, fun hfree => ?_⟩
    obtain ⟨-, heq, hstarts⟩ := h.free hfree
    exact ⟨by omega, hstarts⟩
  | true =>
    have hphase : w.phase = 255 := by
      have hstate : w.path.mux.state = .req := by simpa [ht.buildReq] using hreq
      simp [phase, flying, hstate]
    have hdue := h.due
    rw [hphase] at hdue
    rw [if_pos rfl, if_pos rfl]
    refine ⟨hsent.ask hdue _, fun hfree => ?_⟩
    obtain ⟨-, heq, hstarts⟩ := h.free hfree
    exact ⟨by omega, fun n p hp => starts_concat hstarts (by omega) hp⟩

theorem Inv.follows (h : Inv w) : Follows w := by
  obtain ⟨got, s, hclock, -, -, hsent⟩ := h.bursts
  obtain ⟨htransmits, hfree⟩ := hclock.complete h.timing hsent
  refine ⟨htransmits, fun hload => ?_⟩
  obtain ⟨hlen, hstarts⟩ := hfree hload
  have hseamless := htransmits.seamless hstarts (by rwa [List.length_map])
  rwa [List.flatMap_map] at hseamless

/-- Two symbols, 16 cycles apart, with a load in between. -/
def twoSymbols : List TxInput :=
  let bus : SlotBus :=
    ⟨fun _ => 0, fun _ => 0, 0, 0, 0, fun _ => true, fun _ => false, fun _ => false⟩
  let symbol := ⟨⟨true, false, ⟨0, 0, 0, 0⟩⟩, bus⟩
  let load := ⟨⟨false, true, ⟨2, 0, 0, 0⟩⟩, bus⟩
  symbol :: List.replicate 15 load ++ [symbol]

end WatchedPath
end TetraBs.Lmac
