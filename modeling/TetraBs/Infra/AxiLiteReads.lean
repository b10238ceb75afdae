import TetraBs.Infra.AxiLiteTraffic

/-! The read channels of the register slave: what one edge keeps. -/
namespace TetraBs.Infra
open Handshake (present)

namespace AxiLiteRegs

/-- What the slave itself answers to the read in its latch. -/
def ownRead (s : AxiLiteRegs) (t : Telemetry) : BitVec 2 × BitVec 32 :=
  if isMisaligned s.rdAddrQ then (2, 0) else (0, s.regs.read t s.rdAddrQ)

variable {s : AxiLiteRegs} {i : AxilInput}

theorem commitsRead_iff : s.commitsRead = true ↔
    (s.rdAddrSeen = true ∧ s.rvalidR = false ∧ s.dmaRPending = false) ∧
      s.dmaArPending = false := by
  simp only [commitsRead, Bool.and_eq_true, Bool.not_eq_true']
  tauto

theorem forwardsRead_iff :
    s.forwardsRead = true ↔ s.commitsRead = true ∧ forwards s.rdAddrQ = true := by
  rw [forwardsRead, Bool.and_eq_true]

theorem answersRead_iff :
    s.answersRead = true ↔ s.commitsRead = true ∧ forwards s.rdAddrQ = false := by
  rw [answersRead, Bool.and_eq_true, Bool.not_eq_true']

theorem dmaAnswersRead_iff :
    s.dmaAnswersRead i = true ↔ s.dmaRPending = true ∧ i.dmaRvalid = true := by
  rw [dmaAnswersRead, Bool.and_eq_true]

theorem answersRead_of_pending (h : s.dmaRPending = true) : s.answersRead = false := by
  rw [Bool.eq_false_iff]
  intro ha
  have hr := (commitsRead_iff.1 (answersRead_iff.1 ha).1).1.2.2
  rw [h] at hr
  cases hr

theorem commitsRead_of_valid (h : s.rvalidR = true) : s.commitsRead = false := by
  rw [Bool.eq_false_iff]
  intro hc
  have hr := (commitsRead_iff.1 hc).1.2.1
  rw [h] at hr
  cases hr

theorem forwardsRead_free (h : s.forwardsRead = true) :
    s.dmaRPending = false ∧ s.answersRead = false ∧ forwards s.rdAddrQ = true := by
  obtain ⟨hc, hp⟩ := forwardsRead_iff.1 h
  refine ⟨(commitsRead_iff.1 hc).1.2.2, ?_, hp⟩
  rw [Bool.eq_false_iff]
  intro ha
  rw [(answersRead_iff.1 ha).2] at hp
  cases hp

/-- A new read is not taken up while another is under way. -/
theorem readLatch_step : (s.step i).readLatch =
    s.readLatch.step (!s.rvalidR && !s.dmaArPending && !s.dmaRPending) i.arvalid i.araddr
      (s.endsRead i) := by
  have htakes : s.takesRead i =
      s.readLatch.takes (!s.rvalidR && !s.dmaArPending && !s.dmaRPending) i.arvalid := by
    simp only [takesRead, Handshake.Latch.takes, readLatch]
    ac_rfl
  rw [Handshake.Latch.step, ← htakes]
  rfl

/-- A read in the latch stays there as it is. -/
theorem rdAddrQ_step (h : s.rdAddrSeen = true) :
    (s.step i).rdAddrQ = s.rdAddrQ ∧ (s.step i).arreadyR = false := by
  have ht : s.takesRead i = false := by
    simp [takesRead, h]
  simp [step, ht]

end AxiLiteRegs

namespace AxilTraffic

/-- What the read channels keep. `own` is the slave's answer to a read that it serves itself. -/
structure ReadSide (own : AxilRead → BitVec 2 × BitVec 32) (t : AxilTraffic) : Prop where
  addr : t.slave.readLatch.Tracks t.arHeld t.ars (t.reads.map AxilRead.addr)
  whole : t.slave.dmaRPending = true →
    (t.slave.rdAddrSeen = true ∧ t.slave.arreadyR = false) ∧
      AxiLiteRegs.forwards t.slave.rdAddrQ = true
  part : t.slave.dmaArPending = true → t.slave.dmaRPending = true
  free : t.slave.rvalidR = true → t.slave.dmaRPending = false
  r : Handshake.Offers t.slave.rvalidR (t.slave.rrespR, t.slave.rdataR) t.rs
    (Handshake.answers AxilRead.passed own t.reads t.subRs)
  subAr : Handshake.Offers t.slave.dmaArPending (subAddr t.slave.rdAddrQ) t.subArs
    ((t.servedReads.filter AxiLiteRegs.forwards).map subAddr)
  subR : t.subRs.length = (t.reads.filter AxilRead.passed).length

variable {own : AxilRead → BitVec 2 × BitVec 32} {t : AxilTraffic} {i : AxilInput}

/-- The sub-window has the address of a read when it answers. -/
theorem ReadSide.delivered (h : t.ReadSide own) (ha : t.Allowed i)
    (hd : t.slave.dmaAnswersRead i = true) : (t.step i).slave.dmaArPending = false := by
  obtain ⟨hb, hvalid⟩ := AxiLiteRegs.dmaAnswersRead_iff.1 hd
  have hlaunch : t.slave.forwardsRead = false := by
    rw [Bool.eq_false_iff]
    intro hf
    rw [(AxiLiteRegs.forwardsRead_free hf).1] at hb
    cases hb
  have hlength : (t.servedReads.filter AxiLiteRegs.forwards).length = t.subRs.length + 1 := by
    rw [servedReads, hb, List.filter_append, List.length_append, h.subR, List.filter_map,
      List.length_map, Handshake.present_true, List.filter_cons_of_pos (h.whole hb).2]
    rfl
  exact Handshake.part_taken hlaunch
    (h.subAr.ready ((List.length_map _).trans hlength) (ha.dmaR hvalid))

theorem ReadSide.step_whole (h : t.ReadSide own) (hb : (t.step i).slave.dmaRPending = true) :
    ((t.step i).slave.rdAddrSeen = true ∧ (t.step i).slave.arreadyR = false) ∧
      AxiLiteRegs.forwards (t.step i).slave.rdAddrQ = true := by
  change (if t.slave.dmaAnswersRead i then false
    else t.slave.forwardsRead || t.slave.dmaRPending) = true at hb
  cases hd : t.slave.dmaAnswersRead i with
  | true =>
    rw [hd] at hb
    cases hb
  | false =>
    rw [hd, if_neg Bool.false_ne_true, Bool.or_eq_true] at hb
    have hnow : t.slave.rdAddrSeen = true ∧
        t.slave.answersRead = false ∧ AxiLiteRegs.forwards t.slave.rdAddrQ = true := by
      rcases hb with hf | hb
      · have hc := AxiLiteRegs.commitsRead_iff.1 (AxiLiteRegs.forwardsRead_iff.1 hf).1
        exact ⟨hc.1.1, (AxiLiteRegs.forwardsRead_free hf).2⟩
      · have hw := h.whole hb
        exact ⟨hw.1.1, AxiLiteRegs.answersRead_of_pending hb, hw.2⟩
    obtain ⟨hs, hl, hp⟩ := hnow
    obtain ⟨haddr, hready⟩ := AxiLiteRegs.rdAddrQ_step (i := i) hs
    refine ⟨⟨?_, hready⟩, haddr ▸ hp⟩
    change (if _ then false else _ || t.slave.rdAddrSeen) = true
    rw [hd, hl, hs, Bool.or_true]
    rfl

theorem ReadSide.step_part (h : t.ReadSide own) (ha : t.Allowed i)
    (hp : (t.step i).slave.dmaArPending = true) : (t.step i).slave.dmaRPending = true := by
  cases hd : t.slave.dmaAnswersRead i with
  | true =>
    rw [h.delivered ha hd] at hp
    cases hp
  | false =>
    change (if _ then false else _ || _) = true
    rw [hd]
    exact Handshake.part_step h.part hp

theorem ReadSide.step_free (h : t.ReadSide own) (hv : (t.step i).slave.rvalidR = true) :
    (t.step i).slave.dmaRPending = false := by
  refine Handshake.free_step (fun hl => ?_) (fun hr => ?_) hv
  · obtain ⟨hc, hp⟩ := AxiLiteRegs.answersRead_iff.1 hl
    refine ⟨?_, (AxiLiteRegs.commitsRead_iff.1 hc).1.2.2⟩
    rw [Bool.eq_false_iff]
    intro hf
    rw [(AxiLiteRegs.forwardsRead_iff.1 hf).2] at hp
    cases hp
  · refine ⟨?_, h.free hr⟩
    rw [AxiLiteRegs.forwardsRead, AxiLiteRegs.commitsRead_of_valid hr, Bool.false_and]

/-- The answer that the edge puts up is the one due. -/
theorem ReadSide.step_answer
    (hown : own ⟨t.slave.rdAddrQ, t.cycles.length⟩ = t.slave.ownRead i.telemetry) :
    present (t.slave.endsRead i) (if t.slave.dmaAnswersRead i then (i.dmaRresp, i.dmaRdata)
        else own ⟨t.slave.rdAddrQ, t.cycles.length⟩) =
      present (t.slave.endsRead i) ((t.step i).slave.rrespR, (t.step i).slave.rdataR) := by
  change _ = present _ (if _ then _ else _, if _ then _ else _)
  cases hd : t.slave.dmaAnswersRead i with
  | true => rfl
  | false =>
    cases hl : t.slave.answersRead with
    | true =>
      rw [hown, AxiLiteRegs.ownRead]
      cases isMisaligned t.slave.rdAddrQ <;> rfl
    | false => rw [AxiLiteRegs.endsRead, hd, hl]; rfl

theorem ReadSide.step (h : t.ReadSide own) (ha : t.Allowed i)
    (hown : own ⟨t.slave.rdAddrQ, t.cycles.length⟩ = t.slave.ownRead i.telemetry) :
    (t.step i).ReadSide own := by
  have hseen : t.slave.endsRead i = true → t.slave.rdAddrSeen = true := by
    intro he
    rcases Bool.or_eq_true_iff.1 he with hd | hl
    · exact (h.whole (AxiLiteRegs.dmaAnswersRead_iff.1 hd).1).1.1
    · exact (AxiLiteRegs.commitsRead_iff.1 (AxiLiteRegs.answersRead_iff.1 hl).1).1.1
  have hback : t.slave.dmaAnswersRead i = true → AxiLiteRegs.forwards t.slave.rdAddrQ = true :=
    fun hd => (h.whole (AxiLiteRegs.dmaAnswersRead_iff.1 hd).1).2
  have hlocal : t.slave.answersRead = true → AxiLiteRegs.forwards t.slave.rdAddrQ = false :=
    fun hl => (AxiLiteRegs.answersRead_iff.1 hl).2
  have hserved : (t.step i).servedReads.filter AxiLiteRegs.forwards =
      t.servedReads.filter AxiLiteRegs.forwards ++
        present t.slave.forwardsRead (t.step i).slave.rdAddrQ := by
    have hnew : (t.step i).servedReads = t.reads.map AxilRead.addr ++
        present (t.slave.dmaAnswersRead i || t.slave.answersRead) t.slave.rdAddrQ ++
          present (if t.slave.dmaAnswersRead i then false
            else t.slave.forwardsRead || t.slave.dmaRPending) (t.step i).slave.rdAddrQ := by
      rw [servedReads, AxilTraffic.step, List.map_append, Handshake.map_present]
      rfl
    rw [hnew]
    refine Handshake.filter_step (fun hd => (AxiLiteRegs.dmaAnswersRead_iff.1 hd).1) hlocal
      (fun hf => ?_) fun hb => ?_
    · obtain ⟨hb, hl, hp⟩ := AxiLiteRegs.forwardsRead_free hf
      have hc := AxiLiteRegs.commitsRead_iff.1 (AxiLiteRegs.forwardsRead_iff.1 hf).1
      exact ⟨hb, hl, (AxiLiteRegs.rdAddrQ_step hc.1.1).1 ▸ hp⟩
    · have hw := h.whole hb
      exact ⟨AxiLiteRegs.answersRead_of_pending hb, (AxiLiteRegs.rdAddrQ_step hw.1.1).1⟩
  have hfree : t.slave.forwardsRead = true → t.slave.dmaArPending = false := fun hf =>
    (AxiLiteRegs.commitsRead_iff.1 (AxiLiteRegs.forwardsRead_iff.1 hf).1).2
  refine ⟨?_, h.step_whole, h.step_part ha, h.step_free, ?_, ?_, ?_⟩
  · rw [AxilTraffic.step, AxiLiteRegs.readLatch_step, List.map_append, Handshake.map_present]
    exact h.addr.step ha.ar hseen
  · have hvalid : t.slave.endsRead i = true → t.slave.rvalidR = false := by
      intro he
      rcases Bool.or_eq_true_iff.1 he with hd | hl
      · cases hv : t.slave.rvalidR with
        | false => rfl
        | true => rw [← h.free hv, (AxiLiteRegs.dmaAnswersRead_iff.1 hd).1]
      · exact (AxiLiteRegs.commitsRead_iff.1 (AxiLiteRegs.answersRead_iff.1 hl).1).1.2.1
    have hanswers : Handshake.answers AxilRead.passed own (t.step i).reads (t.step i).subRs =
        Handshake.answers AxilRead.passed own t.reads t.subRs ++
          present (t.slave.endsRead i) (if t.slave.dmaAnswersRead i then (i.dmaRresp, i.dmaRdata)
            else own ⟨t.slave.rdAddrQ, t.cycles.length⟩) :=
      Handshake.answers_step h.subR hback hlocal
    rw [step_answer hown] at hanswers
    refine hanswers ▸ h.r.step (Handshake.raise_around hvalid) hvalid fun he hv _ => ?_
    obtain ⟨hd, hl⟩ := Bool.or_eq_false_iff.1 he
    change (if _ then _ else if _ then _ else _, if _ then _ else if _ then _ else _) = _
    rw [hd, hl]
    rfl
  · rw [hserved, List.map_append, Handshake.map_present]
    refine h.subAr.step (Handshake.clear_last hfree) hfree fun _ hp _ => ?_
    exact congrArg subAddr (AxiLiteRegs.rdAddrQ_step (h.whole (h.part hp)).1.1).1
  · exact Handshake.answers_step_length h.subR hback hlocal

theorem ReadSide.start (own : AxilRead → BitVec 2 × BitVec 32) :
    AxilTraffic.start.ReadSide own where
  addr := Handshake.Latch.tracks_empty _
  whole h := absurd h Bool.false_ne_true
  part h := absurd h Bool.false_ne_true
  free h := absurd h Bool.false_ne_true
  r := rfl
  subAr := rfl
  subR := rfl

end AxilTraffic
end TetraBs.Infra
