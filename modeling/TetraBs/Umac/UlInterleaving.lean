import TetraBs.Umac.UlAccess

/-! Which station's fragments the reassembly joins when the bursts of several stations
interleave. A continuation carries no address: the parser tags it with the address of the last
fragment 1 it saw. -/
namespace TetraBs.UlAccess
open TetraBs.Run

/-- A burst the parser accepted, and whose it is. -/
structure Burst where
  sender : BitVec 24
  info : Info
deriving DecidableEq

def Burst.isFrag1 (b : Burst) : Bool := !fIsEndHu b.info && fFragmented b.info

def accepted (i : Input) : Option Burst :=
  if i.infoValid && i.crcOk then some ⟨i.sender, i.infoBits⟩ else none

/-- The two modules with the burst in the parser's registers and those the reassembly has seen. -/
structure Observed where
  state : State
  inflight : Option Burst
  done : List Burst

def start : Observed := ⟨reset, none, []⟩

def observe (t : Observed) (i : Input) : Observed where
  state := step t.state i
  inflight := accepted i
  done := t.done ++ t.inflight.toList

/-- `bits` is the latest fragment 1 that `ssi` sent. -/
def LatestFrag1 (done : List Burst) (ssi : BitVec 24) (bits : BitVec 44) : Prop :=
  ∃ pre b mid, done = pre ++ b :: mid ∧ b.isFrag1 = true ∧ b.sender = ssi ∧
    bits = frag1Bits b.info ∧ ∀ c ∈ mid, c.isFrag1 = true → c.sender ≠ ssi

/-- A body on the output joins the latest fragment 1 of the station it is tagged with and the
continuation that this station has just sent. -/
def RightlyJoined (t : Observed) : Prop :=
  t.state.reasm.valid = true →
    ∃ earlier b bits, t.done = earlier ++ [b] ∧ LatestFrag1 earlier t.state.reasm.ssi bits ∧
      fIsEndHu b.info = true ∧ b.sender = t.state.reasm.ssi ∧
      t.state.reasm.body = bits ++ fContinuationBits b.info

/-- What the burst in the parser's registers must meet: a fragment 1 has its sender's address in
the address bits, and a continuation that finds a slot is from the station latched last. -/
def Meets (t : Observed) (_ : Input) : Prop :=
  ∀ b, t.inflight = some b →
    (b.isFrag1 = true → fIssi b.info = b.sender) ∧
    (fIsEndHu b.info = true → matchAny t.state.reasm t.state.parser.ulContinuationSsi = true →
      b.sender = t.state.parser.ulContinuationSsi)

instance (t : Observed) (i : Input) : Decidable (Meets t i) :=
  inferInstanceAs (Decidable (∀ b ∈ t.inflight,
    (b.isFrag1 = true → fIssi b.info = b.sender) ∧
    (fIsEndHu b.info = true → matchAny t.state.reasm t.state.parser.ulContinuationSsi = true →
      b.sender = t.state.parser.ulContinuationSsi)))

/-- The parser's registers against the burst they hold. -/
def ParserHolds (p : Parser) : Option Burst → Prop
  | none => p.pduValid = false ∧ p.ulContinuationValid = false
  | some b =>
    if fIsEndHu b.info then
      p.pduValid = false ∧ p.ulContinuationValid = true ∧
        p.ulContinuationBits = fContinuationBits b.info
    else
      p.pduValid = true ∧ p.ulContinuationValid = false ∧ p.ulFragFlag = fFragmented b.info ∧
        p.ulIssi = fIssi b.info ∧ p.rawInfoBits = b.info

theorem parserHolds_step (p : Parser) (i : Input) : ParserHolds (parserStep p i) (accepted i) := by
  cases hv : i.infoValid && i.crcOk with
  | false => simp [accepted, parserStep, hv, ParserHolds, Parser.strobesLow]
  | true => cases he : fIsEndHu i.infoBits <;>
      simp [accepted, parserStep, hv, ParserHolds, Parser.strobesLow, he]

def SlotHolds (s : Slot) (done : List Burst) : Prop :=
  s.occ = true → LatestFrag1 done s.ssi s.frag1

def Apart (s0 s1 : Slot) : Prop := s0.occ = true → s1.occ = true → s0.ssi ≠ s1.ssi

theorem LatestFrag1.push {done : List Burst} {ssi : BitVec 24} {bits : BitVec 44}
    (h : LatestFrag1 done ssi bits) {b : Burst} (hb : b.isFrag1 = true → b.sender ≠ ssi) :
    LatestFrag1 (done ++ [b]) ssi bits := by
  obtain ⟨pre, c, mid, rfl, hfrag, hsender, hbits, hmid⟩ := h
  refine ⟨pre, c, mid ++ [b], by simp, hfrag, hsender, hbits, ?_⟩
  intro d hd
  rcases List.mem_append.1 hd with hd | hd
  · exact hmid d hd
  · rw [List.mem_singleton.1 hd]
    exact hb

theorem latestFrag1_new (done : List Burst) {b : Burst} (hb : b.isFrag1 = true) :
    LatestFrag1 (done ++ [b]) b.sender (frag1Bits b.info) :=
  ⟨done, b, [], rfl, hb, rfl, rfl, fun _ h => nomatch h⟩

theorem Slot.tick_ssi (s : Slot) (tick : Bool) : (s.tick tick).ssi = s.ssi := by
  rw [Slot.tick]
  split <;> rfl

theorem Slot.tick_frag1 (s : Slot) (tick : Bool) : (s.tick tick).frag1 = s.frag1 := by
  rw [Slot.tick]
  split <;> rfl

theorem Slot.tick_occ {s : Slot} {tick : Bool} (h : (s.tick tick).occ = true) : s.occ = true := by
  cases hc : tick && s.occ with
  | true => exact (Bool.and_eq_true_iff.1 hc).2
  | false =>
    rw [Slot.tick, hc] at h
    exact h

/-- A slot that the burst does not concern. -/
theorem SlotHolds.keep {s s' : Slot} {done : List Burst} (h : SlotHolds s done) {b : Burst}
    (hb : b.isFrag1 = true → s'.occ = true → b.sender ≠ s.ssi)
    (hocc : s'.occ = true → s.occ = true) (hssi : s'.ssi = s.ssi) (hbits : s'.frag1 = s.frag1) :
    SlotHolds s' (done ++ [b]) := by
  intro hs
  rw [hssi, hbits]
  exact (h (hocc hs)).push fun hf => hb hf hs

theorem holds_iff {s : Slot} {ssi : BitVec 24} :
    s.holds ssi = true ↔ s.occ = true ∧ s.ssi = ssi := by
  simp [Slot.holds]

/-- The slots after a burst that is not a fragment 1. -/
theorem slots_other {r : Reassembly} {i : Stimuli} {done : List Burst} {b : Burst}
    (h0 : SlotHolds r.s0 done) (h1 : SlotHolds r.s1 done) (hapart : Apart r.s0 r.s1)
    (hp : i.frag1Pulse = false) (hb : b.isFrag1 = false) :
    SlotHolds (slotsAfterFrag1 r i).1 (done ++ [b]) ∧
      SlotHolds (slotsAfterFrag1 r i).2 (done ++ [b]) ∧
      Apart (slotsAfterFrag1 r i).1 (slotsAfterFrag1 r i).2 := by
  simp only [slotsAfterFrag1, hp, Bool.false_eq_true, if_false]
  refine ⟨h0.keep (fun hf => ?_) Slot.tick_occ (Slot.tick_ssi _ _) (Slot.tick_frag1 _ _),
    h1.keep (fun hf => ?_) Slot.tick_occ (Slot.tick_ssi _ _) (Slot.tick_frag1 _ _), ?_⟩
  · rw [hb] at hf
    cases hf
  · rw [hb] at hf
    cases hf
  · intro ho0 ho1
    rw [Slot.tick_ssi, Slot.tick_ssi]
    exact hapart (Slot.tick_occ ho0) (Slot.tick_occ ho1)

/-- A slot whose fragment 1 is the burst. -/
theorem slotHolds_new {s : Slot} {done : List Burst} {b : Burst} (hb : b.isFrag1 = true)
    (hssi : s.ssi = b.sender) (hbits : s.frag1 = frag1Bits b.info) :
    SlotHolds s (done ++ [b]) := by
  intro _
  rw [hssi, hbits]
  exact latestFrag1_new done hb

/-- The slots after a fragment 1 that carries its sender's address. -/
theorem slots_frag1 {r : Reassembly} {i : Stimuli} {done : List Burst} {b : Burst}
    (h0 : SlotHolds r.s0 done) (h1 : SlotHolds r.s1 done) (hapart : Apart r.s0 r.s1)
    (hp : i.frag1Pulse = true) (hb : b.isFrag1 = true) (hssi : i.frag1Ssi = b.sender)
    (hbits : i.frag1Bits = frag1Bits b.info) :
    SlotHolds (slotsAfterFrag1 r i).1 (done ++ [b]) ∧
      SlotHolds (slotsAfterFrag1 r i).2 (done ++ [b]) ∧
      Apart (slotsAfterFrag1 r i).1 (slotsAfterFrag1 r i).2 := by
  have hkeep : ∀ {s : Slot}, SlotHolds s done → (s.occ = true → b.sender ≠ s.ssi) →
      SlotHolds (s.tick i.frameTick) (done ++ [b]) := by
    intro s hs hne
    exact hs.keep (fun _ ho => hne (Slot.tick_occ ho)) Slot.tick_occ (Slot.tick_ssi _ _)
      (Slot.tick_frag1 _ _)
  simp only [slotsAfterFrag1, hp, if_true]
  split
  · -- fragment 1 of the station in slot 0
    rename_i hr
    obtain ⟨hocc, heq⟩ := holds_iff.1 hr
    rw [hssi] at heq
    refine ⟨slotHolds_new hb ((Slot.tick_ssi _ _).trans heq) hbits, hkeep h1 fun ho => ?_,
      fun ho0 ho1 => ?_⟩
    · rw [← heq]
      exact hapart hocc ho
    · change (r.s0.tick i.frameTick).ssi ≠ (r.s1.tick i.frameTick).ssi
      rw [Slot.tick_ssi, Slot.tick_ssi]
      exact hapart hocc (Slot.tick_occ ho1)
  · rename_i hr0
    have hne0 : r.s0.occ = true → b.sender ≠ r.s0.ssi := fun ho heq =>
      hr0 (holds_iff.2 ⟨ho, by rw [hssi, heq]⟩)
    split
    · -- fragment 1 of the station in slot 1
      rename_i hr
      obtain ⟨hocc, heq⟩ := holds_iff.1 hr
      rw [hssi] at heq
      refine ⟨hkeep h0 hne0, slotHolds_new hb ((Slot.tick_ssi _ _).trans heq) hbits,
        fun ho0 ho1 => ?_⟩
      change (r.s0.tick i.frameTick).ssi ≠ (r.s1.tick i.frameTick).ssi
      rw [Slot.tick_ssi, Slot.tick_ssi]
      exact hapart (Slot.tick_occ ho0) hocc
    · rename_i hr1
      have hne1 : r.s1.occ = true → b.sender ≠ r.s1.ssi := fun ho heq =>
        hr1 (holds_iff.2 ⟨ho, by rw [hssi, heq]⟩)
      split
      · -- a new station, slot 0 is free
        refine ⟨slotHolds_new hb hssi hbits, hkeep h1 hne1, fun _ ho1 => ?_⟩
        rw [Slot.tick_ssi]
        change i.frag1Ssi ≠ _
        rw [hssi]
        exact hne1 (Slot.tick_occ ho1)
      · split
        · -- a new station, slot 1 is free
          refine ⟨hkeep h0 hne0, slotHolds_new hb hssi hbits, fun ho0 _ => ?_⟩
          rw [Slot.tick_ssi]
          change _ ≠ i.frag1Ssi
          rw [hssi]
          exact (hne0 (Slot.tick_occ ho0)).symm
        · refine ⟨hkeep h0 hne0, hkeep h1 hne1, fun ho0 ho1 => ?_⟩
          rw [Slot.tick_ssi, Slot.tick_ssi]
          exact hapart (Slot.tick_occ ho0) (Slot.tick_occ ho1)

/-- The slots after a cycle without a burst in the parser's registers. -/
theorem slots_idle {r : Reassembly} {i : Stimuli} {done : List Burst}
    (h0 : SlotHolds r.s0 done) (h1 : SlotHolds r.s1 done) (hapart : Apart r.s0 r.s1)
    (hp : i.frag1Pulse = false) :
    SlotHolds (slotsAfterFrag1 r i).1 done ∧ SlotHolds (slotsAfterFrag1 r i).2 done ∧
      Apart (slotsAfterFrag1 r i).1 (slotsAfterFrag1 r i).2 := by
  simp only [slotsAfterFrag1, hp, Bool.false_eq_true, if_false]
  refine ⟨fun ho => ?_, fun ho => ?_, fun ho0 ho1 => ?_⟩
  · rw [Slot.tick_ssi, Slot.tick_frag1]
    exact h0 (Slot.tick_occ ho)
  · rw [Slot.tick_ssi, Slot.tick_frag1]
    exact h1 (Slot.tick_occ ho)
  · rw [Slot.tick_ssi, Slot.tick_ssi]
    exact hapart (Slot.tick_occ ho0) (Slot.tick_occ ho1)

/-- What holds in every state of a run whose bursts meet the condition. -/
structure Inv (t : Observed) : Prop where
  parser : ParserHolds t.state.parser t.inflight
  slot0 : SlotHolds t.state.reasm.s0 t.done
  slot1 : SlotHolds t.state.reasm.s1 t.done
  apart : Apart t.state.reasm.s0 t.state.reasm.s1
  joined : RightlyJoined t

theorem inv_start : Inv start where
  parser := ⟨rfl, rfl⟩
  slot0 := fun h => by cases h
  slot1 := fun h => by cases h
  apart := fun h => by cases h
  joined := fun h => by cases h

/-- `s'` is `s`, or `s` freed. -/
structure Slot.Sub (s' s : Slot) : Prop where
  occ : s'.occ = true → s.occ = true
  ssi : s'.ssi = s.ssi
  frag1 : s'.frag1 = s.frag1

theorem SlotHolds.sub {s s' : Slot} {done : List Burst} (h : SlotHolds s done) (hs : s'.Sub s) :
    SlotHolds s' done := by
  intro ho
  rw [hs.ssi, hs.frag1]
  exact h (hs.occ ho)

theorem Apart.sub {s0 s1 s0' s1' : Slot} (h : Apart s0 s1) (h0 : s0'.Sub s0) (h1 : s1'.Sub s1) :
    Apart s0' s1' := by
  intro ho0 ho1
  rw [h0.ssi, h1.ssi]
  exact h (h0.occ ho0) (h1.occ ho1)

/-- The continuation frees slots and does nothing else to them. -/
theorem reassemblyStep_slots (r : Reassembly) (i : Stimuli) :
    (reassemblyStep r i).s0.Sub (slotsAfterFrag1 r i).1 ∧
      (reassemblyStep r i).s1.Sub (slotsAfterFrag1 r i).2 := by
  have hfree : ∀ s : Slot, Slot.Sub { s with occ := false } s := fun _ =>
    ⟨fun h => absurd h Bool.false_ne_true, rfl, rfl⟩
  have hsame : ∀ s : Slot, s.Sub s := fun _ => ⟨id, rfl, rfl⟩
  simp only [reassemblyStep]
  split
  · split
    · exact ⟨hfree _, hsame _⟩
    · exact ⟨hsame _, hfree _⟩
  · exact ⟨hsame _, hsame _⟩

/-- A body on the output comes from the slot of the continuation's tag. -/
theorem reassemblyStep_valid {r : Reassembly} {i : Stimuli}
    (h : (reassemblyStep r i).valid = true) :
    i.endHuPulse = true ∧ matchAny r i.endHuSsi = true ∧
      ∃ s, (s = r.s0 ∨ s = r.s1) ∧ s.holds i.endHuSsi = true ∧
        (reassemblyStep r i).ssi = s.ssi ∧
        (reassemblyStep r i).body = s.frag1 ++ i.endHuBits := by
  by_cases hc : (i.endHuPulse && matchAny r i.endHuSsi) = true
  · obtain ⟨hp, hm⟩ := Bool.and_eq_true_iff.1 hc
    refine ⟨hp, hm, ?_⟩
    by_cases h0 : r.s0.holds i.endHuSsi = true
    · exact ⟨r.s0, .inl rfl, h0, by simp [reassemblyStep, hp, hm, h0],
        by simp [reassemblyStep, hp, hm, h0]⟩
    · have h1 : r.s1.holds i.endHuSsi = true := by
        rw [matchAny, Bool.or_eq_true_iff] at hm
        exact hm.resolve_left h0
      exact ⟨r.s1, .inr rfl, h1, by simp [reassemblyStep, hp, hm, h0],
        by simp [reassemblyStep, hp, hm, h0]⟩
  · simp [reassemblyStep, hc] at h

/-- What the parser's registers make of their burst. -/
theorem wires_none {p : Parser} (h : ParserHolds p none) (i : Input) :
    (wires p i).frag1Pulse = false ∧ (wires p i).endHuPulse = false := by
  simp [wires, h.1, h.2]

theorem wires_frag1 {p : Parser} {b : Burst} (h : ParserHolds p (some b)) (i : Input) :
    (wires p i).frag1Pulse = b.isFrag1 ∧
      (b.isFrag1 = true →
        (wires p i).frag1Ssi = fIssi b.info ∧ (wires p i).frag1Bits = frag1Bits b.info) := by
  rw [ParserHolds] at h
  cases he : fIsEndHu b.info with
  | true =>
    rw [he, if_pos rfl] at h
    simp [wires, Burst.isFrag1, he, h.1]
  | false =>
    rw [he, if_neg Bool.false_ne_true] at h
    obtain ⟨hv, -, hf, hs, hr⟩ := h
    simp [wires, Burst.isFrag1, he, hv, hf, hs, hr]

theorem wires_endHu {p : Parser} {b : Burst} (h : ParserHolds p (some b)) (i : Input)
    (hp : (wires p i).endHuPulse = true) :
    fIsEndHu b.info = true ∧ (wires p i).endHuBits = fContinuationBits b.info := by
  rw [ParserHolds] at h
  cases he : fIsEndHu b.info with
  | true =>
    rw [he, if_pos rfl] at h
    exact ⟨rfl, h.2.2⟩
  | false =>
    rw [he, if_neg Bool.false_ne_true] at h
    have hv : p.ulContinuationValid = true := hp
    rw [h.2.1] at hv
    cases hv

/-- The slots of the next state. -/
theorem slots_step {t : Observed} (i : Input) (h : Inv t) (hm : Meets t i) :
    SlotHolds (slotsAfterFrag1 t.state.reasm (wires t.state.parser i)).1
        (t.done ++ t.inflight.toList) ∧
      SlotHolds (slotsAfterFrag1 t.state.reasm (wires t.state.parser i)).2
        (t.done ++ t.inflight.toList) ∧
      Apart (slotsAfterFrag1 t.state.reasm (wires t.state.parser i)).1
        (slotsAfterFrag1 t.state.reasm (wires t.state.parser i)).2 := by
  have hparser := h.parser
  cases hin : t.inflight with
  | none =>
    rw [hin] at hparser
    rw [Option.toList_none, List.append_nil]
    exact slots_idle h.slot0 h.slot1 h.apart (wires_none hparser i).1
  | some b =>
    rw [hin] at hparser
    obtain ⟨hpulse, hwire⟩ := wires_frag1 hparser i
    cases hb : b.isFrag1 with
    | false =>
      rw [hb] at hpulse
      exact slots_other h.slot0 h.slot1 h.apart hpulse hb
    | true =>
      rw [hb] at hpulse
      obtain ⟨hssi, hbits⟩ := hwire hb
      refine slots_frag1 h.slot0 h.slot1 h.apart hpulse hb ?_ hbits
      rw [hssi]
      exact (hm b hin).1 hb

/-- What the next state emits joins two fragments of one station. -/
theorem joined_step {t : Observed} (i : Input) (h : Inv t) (hm : Meets t i) :
    RightlyJoined (observe t i) := by
  intro hv
  obtain ⟨hpulse, hmatch, s, hs, hholds, hssi, hbody⟩ := reassemblyStep_valid hv
  have hparser := h.parser
  cases hin : t.inflight with
  | none =>
    rw [hin] at hparser
    rw [(wires_none hparser i).2] at hpulse
    cases hpulse
  | some b =>
    rw [hin] at hparser
    obtain ⟨hend, hbits⟩ := wires_endHu hparser i hpulse
    obtain ⟨hocc, htag⟩ := holds_iff.1 hholds
    have hsender : b.sender = t.state.parser.ulContinuationSsi := (hm b hin).2 hend hmatch
    have hlatest : LatestFrag1 t.done s.ssi s.frag1 := by
      rcases hs with rfl | rfl
      · exact h.slot0 hocc
      · exact h.slot1 hocc
    refine ⟨t.done, b, s.frag1, ?_, ?_, hend, ?_, ?_⟩
    · change t.done ++ t.inflight.toList = _
      rw [hin]
      rfl
    · change LatestFrag1 _ (reassemblyStep _ _).ssi _
      rw [hssi]
      exact hlatest
    · change _ = (reassemblyStep _ _).ssi
      rw [hssi, hsender]
      exact htag.symm
    · change (reassemblyStep _ _).body = _
      rw [hbody, hbits]

theorem inv_step (t : Observed) (i : Input) (h : Inv t) (hm : Meets t i) : Inv (observe t i) := by
  obtain ⟨h0, h1, hapart⟩ := slots_step i h hm
  obtain ⟨hs0, hs1⟩ := reassemblyStep_slots t.state.reasm (wires t.state.parser i)
  exact ⟨parserHolds_step _ _, h0.sub hs0, h1.sub hs1, hapart.sub hs0 hs1, joined_step i h hm⟩

/-- In every run in which each fragment 1 carries its sender's address and each continuation that
finds a slot is from the station whose fragment 1 came last, what is emitted belongs together. -/
theorem rightly_joined (is : List Input) (h : Along observe Meets start is) :
    RightlyJoined (exec observe start is) :=
  (exec_invariant Inv inv_step inv_start h).joined

/-- A fragment 1 of station `ssi` with `tail` in its last bits. -/
def frag1Info (ssi : BitVec 24) (tail : BitVec 44) : Info :=
  (tail.reverse.setWidth 92 <<< 48) ||| (7#92 <<< 29) ||| (ssi.reverse.setWidth 92 <<< 5)

def endHuInfo (bits : BitVec 85) : Info := (bits.reverse.setWidth 92 <<< 7) ||| 1#92

/-- A cycle with a burst, and one without. -/
def burst (sender : BitVec 24) (info : Info) : Input := ⟨info, true, true, sender, 0, false⟩

def quiet : Input := ⟨0, false, false, 0, 0, false⟩

theorem rightly_joined_one_station :
    RightlyJoined (exec observe start
      [burst 5 (frag1Info 5 9), quiet, burst 5 (endHuInfo 3), quiet]) :=
  rightly_joined [burst 5 (frag1Info 5 9), quiet, burst 5 (endHuInfo 3), quiet]
    (by decide +kernel)

/-- Stations 5 and 6 send their fragments 1, then 5 its continuation: it is joined to the fragment
of 6. -/
theorem continuation_joined_to_other :
    ¬ RightlyJoined (exec observe start
      [burst 5 (frag1Info 5 9), burst 6 (frag1Info 6 4), burst 5 (endHuInfo 3), quiet]) := by
  intro h
  obtain ⟨earlier, b, bits, hdone, -, -, hsender, -⟩ := h (by decide +kernel)
  have hlast : some b = some ⟨5, endHuInfo 3⟩ := by
    have hget := congrArg List.getLast? hdone
    rw [List.getLast?_append, List.getLast?_singleton, Option.some_or] at hget
    exact hget.symm
  cases hlast
  exact absurd hsender (by decide +kernel)

end TetraBs.UlAccess
