import TetraBs.Lib.DelayLine
import Mathlib.Data.List.Basic

/-! `tetra_burst_builder`: 255-symbol bursts from a shift register, with a shadow register for the
next burst. One step is one rising clock edge. -/
namespace TetraBs.Lmac
open TetraBs.SymbolShift

/-- The payload of a normal burst. -/
structure NdbSlot where
  block1 : BitVec 216
  block2 : BitVec 216
  bb : BitVec 30
deriving DecidableEq

structure BuildInput where
  symEnExt : Bool
  slot : NdbSlot
  sb1Data : BitVec 120
  burstType : Bool
  burstNdb2 : Bool
  buildReq : Bool

inductive BuilderPhase where
  | idle | shift | done
deriving DecidableEq

structure BurstBuilder where
  state : BuilderPhase
  symCnt : Nat
  chainPending : Bool
  chainBurst : BitVec 510
  buildReqPending : Bool
  burstSreg : BitVec 510
  txDibit : BitVec 2
  txDibitValid : Bool
  txDone : Bool
  txBusy : Bool

namespace BurstBuilder

def reset : BurstBuilder := ⟨.idle, 0, false, 0, false, 0, 0, false, false, false⟩

def SYM_LAST : Nat := 254

def TAIL1 : BitVec 12 := 0b00_01_10_10_11_01#12
def TAIL2 : BitVec 10 := 0b10_11_01_11_00#10
def PADJ : BitVec 2 := 0#2
def FC_PAT : BitVec 80 := 0xFF#8 ++ 0#64 ++ 0xFF#8
def STS_REF : BitVec 38 := 0b11_00_00_01_10_01_11_00_11_10_10_01_11_00_00_01_10_01_11#38
def NTS1_REF : BitVec 22 := 0b11_01_00_00_11_10_10_01_11_01_00#22
def NTS2_REF : BitVec 22 := 0b01_11_10_10_01_00_00_11_01_11_10#22

def sdbBurst (p : NdbSlot) (sb1Data : BitVec 120) : BitVec 510 :=
  TAIL1 ++ PADJ ++ FC_PAT ++ sb1Data ++ STS_REF ++ p.bb ++ p.block2 ++ PADJ ++ TAIL2

def ndbBurst (p : NdbSlot) (nts : BitVec 22) : BitVec 510 :=
  TAIL1 ++ PADJ ++ p.block1 ++ p.bb.extractLsb' 16 14 ++ nts ++ p.bb.extractLsb' 0 16 ++ p.block2 ++
    PADJ ++ TAIL2

/-- The burst of a request. -/
def burst (i : BuildInput) : BitVec 510 :=
  if i.burstType then sdbBurst i.slot i.sb1Data
  else ndbBurst i.slot (if i.burstNdb2 then NTS2_REF else NTS1_REF)

def symEn (s : BurstBuilder) (i : BuildInput) : Bool := s.txBusy && i.symEnExt

/-- The last symbol of a burst goes out and the next burst is loaded. -/
def reload (s : BurstBuilder) (i : BuildInput) : Bool :=
  symEn s i && s.state = .shift && s.symCnt = SYM_LAST && s.chainPending

def nextState (s : BurstBuilder) : BuilderPhase :=
  match s.state with
  | .idle => if s.buildReqPending then .shift else .idle
  | .shift =>
    if s.symCnt = SYM_LAST then if s.chainPending then .shift else .done else .shift
  | .done => .idle

def step (s : BurstBuilder) (i : BuildInput) : BurstBuilder where
  state :=
    if s.state = .done then .idle else if symEn s i then nextState s else s.state
  symCnt :=
    if symEn s i then
      if s.state = .shift ∧ s.symCnt = SYM_LAST ∧ s.chainPending then 0
      else if s.state ≠ nextState s then 0
      else if s.state = .shift then (s.symCnt + 1) % 256
      else s.symCnt
    else s.symCnt
  chainPending :=
    if i.buildReq then if s.txBusy then true else s.chainPending
    else if reload s i then false
    else s.chainPending
  chainBurst := if i.buildReq && s.txBusy then burst i else s.chainBurst
  buildReqPending :=
    if i.buildReq then if s.txBusy then s.buildReqPending else true
    else if symEn s i && s.state = .idle then false
    else s.buildReqPending
  burstSreg :=
    if s.state = .idle && i.buildReq then burst i
    else if reload s i then s.chainBurst
    else if s.state = .shift && symEn s i then push s.burstSreg 0
    else s.burstSreg
  txDibit := if symEn s i then symbol s.burstSreg 254 else s.txDibit
  txDibitValid := symEn s i && s.state = .shift
  txDone := symEn s i && s.symCnt = SYM_LAST && s.state = .shift
  txBusy :=
    if s.state = .idle && i.buildReq then true else if s.state = .done then false else s.txBusy

end BurstBuilder

/-- The symbols of a normal burst in the order in which they are sent. -/
def NdbSlot.symbols (p : NdbSlot) : List (BitVec 2) :=
  (List.range 255).map fun j => symbol (BurstBuilder.ndbBurst p BurstBuilder.NTS1_REF) (254 - j)

/-- The builder with the payloads that are in its registers, and those of the bursts whose
transmission has begun. -/
structure WatchedBuilder where
  builder : BurstBuilder
  loaded : NdbSlot
  chained : NdbSlot
  slots : List NdbSlot

namespace WatchedBuilder

def reset : WatchedBuilder := ⟨.reset, ⟨0, 0, 0⟩, ⟨0, 0, 0⟩, []⟩

def nextLoaded (s : WatchedBuilder) (i : BuildInput) : NdbSlot :=
  if s.builder.state = .idle && i.buildReq then i.slot
  else if s.builder.reload i then s.chained
  else s.loaded

def step (s : WatchedBuilder) (i : BuildInput) : WatchedBuilder where
  builder := s.builder.step i
  loaded := nextLoaded s i
  chained := if i.buildReq && s.builder.txBusy then i.slot else s.chained
  slots :=
    if s.builder.reload i ||
        (s.builder.symEn i && s.builder.state = .idle && s.builder.buildReqPending) then
      s.slots ++ [nextLoaded s i]
    else s.slots

/-- The symbols of the bursts. -/
def stream (s : WatchedBuilder) : List (BitVec 2) := s.slots.flatMap NdbSlot.symbols

/-- The symbols that have been put out; all requests were for normal bursts. -/
structure Sends (s : WatchedBuilder) (sent : List (BitVec 2)) : Prop where
  prefixed : sent <+: s.stream
  length : sent.length + (if s.builder.state = .shift then 255 else 0) =
    255 * s.slots.length + (if s.builder.state = .shift then s.builder.symCnt else 0)
  symCnt : s.builder.symCnt ≤ 254 ∧ (s.builder.state ≠ .shift → s.builder.symCnt = 0)
  current : s.builder.state = .shift → s.slots.getLast? = some s.loaded ∧
    ∀ j, j + s.builder.symCnt ≤ 254 → symbol s.builder.burstSreg (254 - j) =
      symbol (BurstBuilder.ndbBurst s.loaded BurstBuilder.NTS1_REF) (254 - (j + s.builder.symCnt))
  ready : s.builder.state = .idle → s.builder.txBusy = true →
    s.builder.burstSreg = BurstBuilder.ndbBurst s.loaded BurstBuilder.NTS1_REF
  chained : s.builder.chainPending = true →
    s.builder.chainBurst = BurstBuilder.ndbBurst s.chained BurstBuilder.NTS1_REF

theorem sends_reset : Sends reset [] where
  prefixed := List.nil_prefix
  length := rfl
  symCnt := ⟨by decide, fun _ => rfl⟩
  current h := absurd h (by decide)
  ready _ h := absurd h (by decide)
  chained h := absurd h (by decide)

/-- What the edge puts out. -/
def put (s : WatchedBuilder) (i : BuildInput) : List (BitVec 2) :=
  if s.builder.symEn i && s.builder.state = .shift then [symbol s.builder.burstSreg 254] else []

/-- A request for a normal burst with the first training sequence. -/
def Normal (i : BuildInput) : Prop :=
  i.buildReq = true → i.burstType = false ∧ i.burstNdb2 = false

variable {s : WatchedBuilder} {i : BuildInput} {sent : List (BitVec 2)}

theorem Normal.burst (h : Normal i) (hreq : i.buildReq = true) :
    BurstBuilder.burst i = BurstBuilder.ndbBurst i.slot BurstBuilder.NTS1_REF := by
  obtain ⟨htype, hndb2⟩ := h hreq
  simp [BurstBuilder.burst, htype, hndb2]

theorem Sends.chained_step (h : Sends s sent) (hi : Normal i)
    (hpend : (s.step i).builder.chainPending = true) : (s.step i).builder.chainBurst =
      BurstBuilder.ndbBurst (s.step i).chained BurstBuilder.NTS1_REF := by
  simp only [step, BurstBuilder.step] at hpend ⊢
  cases hreq : i.buildReq with
  | false =>
    rw [hreq, if_neg Bool.false_ne_true] at hpend
    rw [Bool.false_and, if_neg Bool.false_ne_true, if_neg Bool.false_ne_true]
    refine h.chained ?_
    split at hpend
    · exact absurd hpend (by decide)
    · exact hpend
  | true =>
    rw [hreq, if_pos rfl] at hpend
    rw [Bool.true_and]
    cases hbusy : s.builder.txBusy with
    | true => exact hi.burst hreq
    | false =>
      rw [hbusy, if_neg Bool.false_ne_true] at hpend
      exact h.chained hpend

theorem reload_idle (hstate : s.builder.state ≠ .shift) : s.builder.reload i = false := by
  simp [BurstBuilder.reload, hstate]

theorem put_idle (hstate : s.builder.state ≠ .shift) : put s i = [] := by
  simp [put, hstate]

/-- The register of an idle builder that is or becomes busy. -/
theorem Sends.loaded_idle (h : Sends s sent) (hi : Normal i) (hstate : s.builder.state = .idle)
    (hbusy : (s.step i).builder.txBusy = true) : (s.step i).builder.burstSreg =
      BurstBuilder.ndbBurst (s.step i).loaded BurstBuilder.NTS1_REF := by
  have hreload := reload_idle (i := i) (by rw [hstate]; decide : s.builder.state ≠ .shift)
  cases hreq : i.buildReq with
  | true =>
    simp only [step, BurstBuilder.step, nextLoaded, hstate, hreq, decide_true, Bool.and_true,
      if_true]
    exact hi.burst hreq
  | false =>
    have hwas : s.builder.txBusy = true := by
      simpa [step, BurstBuilder.step, hstate, hreq] using hbusy
    simpa [step, BurstBuilder.step, nextLoaded, hstate, hreq, hreload] using h.ready hstate hwas

theorem Sends.idle (h : Sends s sent) (hi : Normal i) (hstate : s.builder.state = .idle) :
    Sends (s.step i) (sent ++ put s i) := by
  have hshift : s.builder.state ≠ .shift := by rw [hstate]; decide
  have hlen := h.length
  have hcnt := h.symCnt.2 hshift
  rw [if_neg hshift, if_neg hshift] at hlen
  rw [put_idle hshift, List.append_nil]
  by_cases hstart : s.builder.symEn i = true ∧ s.builder.buildReqPending = true
  · -- the transmission of the loaded burst begins
    obtain ⟨hen, hpend⟩ := hstart
    have hbusy : s.builder.txBusy = true := by
      rw [BurstBuilder.symEn, Bool.and_eq_true] at hen
      exact hen.1
    have hnext : s.builder.nextState = .shift := by simp [BurstBuilder.nextState, hstate, hpend]
    have hstate' : (s.step i).builder.state = .shift := by
      simp [step, BurstBuilder.step, hstate, hen, hnext]
    have hcnt' : (s.step i).builder.symCnt = 0 := by
      simp [step, BurstBuilder.step, hstate, hen, hnext]
    have hslots : (s.step i).slots = s.slots ++ [(s.step i).loaded] := by
      simp [step, hen, hpend, hstate]
    have hbusy' : (s.step i).builder.txBusy = true := by
      simp [step, BurstBuilder.step, hstate, hbusy]
    constructor
    · rw [stream, hslots, List.flatMap_append]
      exact h.prefixed.trans (List.prefix_append _ _)
    · rw [hstate', if_pos rfl, if_pos rfl, hcnt', hslots, List.length_append,
        List.length_singleton]
      omega
    · exact ⟨by omega, fun hno => absurd hstate' hno⟩
    · refine fun _ => ⟨by rw [hslots, List.getLast?_concat], fun j _ => ?_⟩
      rw [h.loaded_idle hi hstate hbusy', hcnt', Nat.add_zero]
    · intro hno
      exact absurd (hstate'.symm.trans hno) (by decide)
    · exact h.chained_step hi
  · have hstate' : (s.step i).builder.state = .idle := by
      cases hen : s.builder.symEn i with
      | false => simp [step, BurstBuilder.step, hstate, hen]
      | true =>
        have hpend : s.builder.buildReqPending = false := by
          by_contra hyes
          exact hstart ⟨hen, by rwa [Bool.not_eq_false] at hyes⟩
        simp [step, BurstBuilder.step, BurstBuilder.nextState, hstate, hen, hpend]
    have hcnt' : (s.step i).builder.symCnt = 0 := by
      cases hen : s.builder.symEn i with
      | false => simp [step, BurstBuilder.step, hen, hcnt]
      | true => simp [step, BurstBuilder.step, hstate, hen, hcnt]
    have hslots : (s.step i).slots = s.slots := by
      have hno : ¬ (s.builder.reload i || (s.builder.symEn i && decide (s.builder.state = .idle) &&
          s.builder.buildReqPending)) = true := by
        rw [reload_idle hshift, Bool.false_or, Bool.and_eq_true, Bool.and_eq_true]
        exact fun hall => hstart ⟨hall.1.1, hall.2⟩
      exact if_neg hno
    constructor
    · rw [stream, hslots]
      exact h.prefixed
    · rw [hstate', if_neg (by decide), if_neg (by decide), hslots]
      exact hlen
    · exact ⟨by omega, fun _ => hcnt'⟩
    · intro hno
      exact absurd (hstate'.symm.trans hno) (by decide)
    · exact fun _ hbusy' => h.loaded_idle hi hstate hbusy'
    · exact h.chained_step hi

theorem Sends.done (h : Sends s sent) (hi : Normal i) (hstate : s.builder.state = .done) :
    Sends (s.step i) (sent ++ put s i) := by
  have hshift : s.builder.state ≠ .shift := by rw [hstate]; decide
  have hlen := h.length
  have hcnt := h.symCnt.2 hshift
  have hreload := reload_idle (i := i) hshift
  rw [if_neg hshift, if_neg hshift] at hlen
  rw [put_idle hshift, List.append_nil]
  have hstate' : (s.step i).builder.state = .idle := by simp [step, BurstBuilder.step, hstate]
  have hcnt' : (s.step i).builder.symCnt = 0 := by
    simp [step, BurstBuilder.step, hstate, hcnt]
  have hslots : (s.step i).slots = s.slots := by simp [step, hstate, hreload]
  have hbusy' : (s.step i).builder.txBusy = false := by simp [step, BurstBuilder.step, hstate]
  constructor
  · rw [stream, hslots]
    exact h.prefixed
  · rw [hstate', if_neg (by decide), if_neg (by decide), hslots]
    exact hlen
  · exact ⟨by omega, fun _ => hcnt'⟩
  · intro hno
    exact absurd (hstate'.symm.trans hno) (by decide)
  · intro _ hno
    exact absurd (hbusy'.symm.trans hno) (by decide)
  · exact h.chained_step hi

theorem symbols_length (p : NdbSlot) : p.symbols.length = 255 := by
  rw [NdbSlot.symbols, List.length_map, List.length_range]

theorem flatMap_symbols_length (ps : List NdbSlot) :
    (ps.flatMap NdbSlot.symbols).length = 255 * ps.length := by
  induction ps with
  | nil => rfl
  | cons p ps ih =>
    rw [List.flatMap_cons, List.length_append, symbols_length, ih, List.length_cons]
    omega

/-- The next symbol of the stream. -/
theorem prefix_snoc {α : Type*} {xs ys : List α} (h : xs <+: ys) {y : α}
    (hy : ys[xs.length]? = some y) : xs ++ [y] <+: ys := by
  obtain ⟨zs, rfl⟩ := h
  rw [List.getElem?_append_right (Nat.le_refl _), Nat.sub_self] at hy
  cases zs with
  | nil => cases hy
  | cons z zs =>
    obtain rfl : z = y := by simpa using hy
    exact ⟨zs, by rw [List.append_assoc, List.singleton_append]⟩

theorem Sends.put_next (h : Sends s sent) (hstate : s.builder.state = .shift) :
    s.stream[sent.length]? = some (symbol s.builder.burstSreg 254) := by
  obtain ⟨hlast, hsreg⟩ := h.current hstate
  have hlen := h.length
  have hcnt := h.symCnt.1
  rw [if_pos hstate, if_pos hstate] at hlen
  obtain ⟨ps, hps⟩ := List.getLast?_eq_some_iff.1 hlast
  rw [hps, List.length_append, List.length_singleton] at hlen
  have hsent : sent.length = 255 * ps.length + s.builder.symCnt := by omega
  have hnow := hsreg 0 (by omega)
  rw [Nat.sub_zero, Nat.zero_add] at hnow
  rw [stream, hps, List.flatMap_append, hnow, hsent,
    List.getElem?_append_right (by rw [flatMap_symbols_length]; omega), flatMap_symbols_length,
    Nat.add_sub_cancel_left, List.flatMap_singleton, NdbSlot.symbols, List.getElem?_map,
    List.getElem?_range (by omega)]
  rfl

theorem Sends.shift_wait (h : Sends s sent) (hi : Normal i) (hstate : s.builder.state = .shift)
    (hen : s.builder.symEn i = false) : Sends (s.step i) (sent ++ put s i) := by
  have hput : put s i = [] := by simp [put, hen]
  have hreload : s.builder.reload i = false := by simp [BurstBuilder.reload, hen]
  have hstate' : (s.step i).builder.state = .shift := by
    simp [step, BurstBuilder.step, hstate, hen]
  have hcnt' : (s.step i).builder.symCnt = s.builder.symCnt := by
    simp [step, BurstBuilder.step, hen]
  have hslots : (s.step i).slots = s.slots := by simp [step, hreload, hen]
  have hloaded : (s.step i).loaded = s.loaded := by simp [step, nextLoaded, hstate, hreload]
  have hsreg : (s.step i).builder.burstSreg = s.builder.burstSreg := by
    simp [step, BurstBuilder.step, hstate, hreload, hen]
  rw [hput, List.append_nil]
  constructor
  · rw [stream, hslots]
    exact h.prefixed
  · have hlen := h.length
    rw [hstate] at hlen
    rwa [hstate', hslots, hcnt']
  · exact ⟨by rw [hcnt']; exact h.symCnt.1, fun hno => absurd hstate' hno⟩
  · rw [hslots, hloaded, hcnt', hsreg]
    exact fun _ => h.current hstate
  · intro hno
    exact absurd (hstate'.symm.trans hno) (by decide)
  · exact h.chained_step hi

/-- A symbol that is not the last of its burst. -/
theorem Sends.shift_next (h : Sends s sent) (hi : Normal i) (hstate : s.builder.state = .shift)
    (hen : s.builder.symEn i = true) (hlast : s.builder.symCnt ≠ 254) :
    Sends (s.step i) (sent ++ put s i) := by
  have hcnt := h.symCnt.1
  have hput : put s i = [symbol s.builder.burstSreg 254] := by simp [put, hen, hstate]
  have hreload : s.builder.reload i = false := by
    simp [BurstBuilder.reload, BurstBuilder.SYM_LAST, hlast]
  have hnext : s.builder.nextState = .shift := by
    simp [BurstBuilder.nextState, hstate, BurstBuilder.SYM_LAST, hlast]
  have hstate' : (s.step i).builder.state = .shift := by
    simp [step, BurstBuilder.step, hstate, hen, hnext]
  have hcnt' : (s.step i).builder.symCnt = s.builder.symCnt + 1 := by
    simp [step, BurstBuilder.step, hstate, hen, hnext, BurstBuilder.SYM_LAST, hlast]
    omega
  have hslots : (s.step i).slots = s.slots := by simp [step, hreload, hstate]
  have hloaded : (s.step i).loaded = s.loaded := by simp [step, nextLoaded, hstate, hreload]
  have hsreg : (s.step i).builder.burstSreg = push s.builder.burstSreg 0 := by
    simp [step, BurstBuilder.step, hstate, hreload, hen]
  rw [hput]
  constructor
  · rw [stream, hslots]
    exact prefix_snoc h.prefixed (h.put_next hstate)
  · have hlen := h.length
    rw [if_pos hstate, if_pos hstate] at hlen
    rw [if_pos hstate', if_pos hstate', hslots, hcnt', List.length_append, List.length_singleton]
    omega
  · exact ⟨by omega, fun hno => absurd hstate' hno⟩
  · rw [hslots, hloaded, hcnt', hsreg]
    refine fun _ => ⟨(h.current hstate).1, fun j hj => ?_⟩
    have hshift := (h.current hstate).2 (j + 1) (by omega)
    rw [(by omega : 254 - j = 254 - (j + 1) + 1), symbol_push_succ _ _ (by omega), hshift]
    congr 1
    omega
  · intro hno
    exact absurd (hstate'.symm.trans hno) (by decide)
  · exact h.chained_step hi

/-- The last symbol of a burst, when another burst waits. -/
theorem Sends.shift_reload (h : Sends s sent) (hi : Normal i) (hstate : s.builder.state = .shift)
    (hen : s.builder.symEn i = true) (hlast : s.builder.symCnt = 254)
    (hpend : s.builder.chainPending = true) : Sends (s.step i) (sent ++ put s i) := by
  have hput : put s i = [symbol s.builder.burstSreg 254] := by simp [put, hen, hstate]
  have hreload : s.builder.reload i = true := by
    simp [BurstBuilder.reload, BurstBuilder.SYM_LAST, hlast, hen, hstate, hpend]
  have hnext : s.builder.nextState = .shift := by
    simp [BurstBuilder.nextState, hstate, BurstBuilder.SYM_LAST, hlast, hpend]
  have hstate' : (s.step i).builder.state = .shift := by
    simp [step, BurstBuilder.step, hstate, hen, hnext]
  have hcnt' : (s.step i).builder.symCnt = 0 := by
    simp [step, BurstBuilder.step, hstate, hen, BurstBuilder.SYM_LAST, hlast, hpend]
  have hloaded : (s.step i).loaded = s.chained := by simp [step, nextLoaded, hstate, hreload]
  have hslots : (s.step i).slots = s.slots ++ [s.chained] := by
    simp [step, nextLoaded, hstate, hreload]
  have hsreg : (s.step i).builder.burstSreg = s.builder.chainBurst := by
    simp [step, BurstBuilder.step, hstate, hreload]
  rw [hput]
  constructor
  · rw [stream, hslots, List.flatMap_append]
    exact (prefix_snoc h.prefixed (h.put_next hstate)).trans (List.prefix_append _ _)
  · have hlen := h.length
    rw [if_pos hstate, if_pos hstate] at hlen
    rw [if_pos hstate', if_pos hstate', hslots, hcnt', List.length_append, List.length_append,
      List.length_singleton, List.length_singleton]
    omega
  · exact ⟨by omega, fun hno => absurd hstate' hno⟩
  · rw [hslots, hloaded, hcnt', hsreg]
    exact fun _ => ⟨List.getLast?_concat, fun j _ => by rw [h.chained hpend, Nat.add_zero]⟩
  · intro hno
    exact absurd (hstate'.symm.trans hno) (by decide)
  · exact h.chained_step hi

/-- The last symbol of the last burst. -/
theorem Sends.shift_end (h : Sends s sent) (hi : Normal i) (hstate : s.builder.state = .shift)
    (hen : s.builder.symEn i = true) (hlast : s.builder.symCnt = 254)
    (hpend : s.builder.chainPending = false) : Sends (s.step i) (sent ++ put s i) := by
  have hput : put s i = [symbol s.builder.burstSreg 254] := by simp [put, hen, hstate]
  have hreload : s.builder.reload i = false := by simp [BurstBuilder.reload, hpend]
  have hnext : s.builder.nextState = .done := by
    simp [BurstBuilder.nextState, hstate, BurstBuilder.SYM_LAST, hlast, hpend]
  have hstate' : (s.step i).builder.state = .done := by
    simp [step, BurstBuilder.step, hstate, hen, hnext]
  have hcnt' : (s.step i).builder.symCnt = 0 := by
    simp [step, BurstBuilder.step, hstate, hen, hnext]
  have hslots : (s.step i).slots = s.slots := by simp [step, hstate, hreload]
  rw [hput]
  constructor
  · rw [stream, hslots]
    exact prefix_snoc h.prefixed (h.put_next hstate)
  · have hlen := h.length
    rw [if_pos hstate, if_pos hstate] at hlen
    rw [hstate', if_neg (by decide), if_neg (by decide), hslots, List.length_append,
      List.length_singleton]
    omega
  · exact ⟨by omega, fun _ => hcnt'⟩
  · intro hno
    exact absurd (hstate'.symm.trans hno) (by decide)
  · intro hno
    exact absurd (hstate'.symm.trans hno) (by decide)
  · exact h.chained_step hi

theorem Sends.step (h : Sends s sent) (hi : Normal i) : Sends (s.step i) (sent ++ put s i) := by
  cases hstate : s.builder.state with
  | idle => exact h.idle hi hstate
  | done => exact h.done hi hstate
  | shift =>
    cases hen : s.builder.symEn i with
    | false => exact h.shift_wait hi hstate hen
    | true =>
      by_cases hlast : s.builder.symCnt = 254
      · cases hpend : s.builder.chainPending with
        | true => exact h.shift_reload hi hstate hen hlast hpend
        | false => exact h.shift_end hi hstate hen hlast hpend
      · exact h.shift_next hi hstate hen hlast

end WatchedBuilder
end TetraBs.Lmac
