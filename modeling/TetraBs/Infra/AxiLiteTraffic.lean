import TetraBs.Infra.AxiLiteRegs
import TetraBs.Lib.Handshake
import Mathlib.Data.List.Infix

/-! The register slave with all that crossed its two sides: what the master and the sub-window
exchanged with it, the requests it has dealt with, and the updates of its registers. -/
namespace TetraBs.Infra
open Handshake (present)

structure AxilWrite where
  addr : BitVec 12
  data : BitVec 32
  strb : BitVec 4
deriving DecidableEq

namespace AxilWrite

def payload (w : AxilWrite) : BitVec 32 × BitVec 4 := (w.data, w.strb)

def passed (w : AxilWrite) : Bool := AxiLiteRegs.forwards w.addr

/-- The slave's own BRESP: SLVERR or OKAY. -/
def resp (w : AxilWrite) : BitVec 2 := if isMisaligned w.addr then 2 else 0

/-- It goes to the registers: aligned, and outside the sub-window. -/
def isLocal (w : AxilWrite) : Bool := !isMisaligned w.addr && !isDmaSubwin w.addr

end AxilWrite

/-- A read was dealt with in cycle `time`. -/
structure AxilRead where
  addr : BitVec 12
  time : ℕ
deriving DecidableEq

def AxilRead.passed (r : AxilRead) : Bool := AxiLiteRegs.forwards r.addr

/-- What one edge does to the registers. -/
structure RegCycle where
  write : Option AxilWrite
  pulse : BitVec 5

def LiveRegs.edge (r : LiveRegs) (c : RegCycle) : LiveRegs :=
  (match c.write with
    | some w => r.write w.addr w.data w.strb
    | none => r).pulse c.pulse

namespace AxiLiteRegs
variable (s : AxiLiteRegs) (i : AxilInput)

def wrReq : AxilWrite := ⟨s.wrAddrQ, s.wrDataQ, s.wrStrbQ⟩

def addrLatch : Handshake.Latch (BitVec 12) := ⟨s.awreadyR, s.wrAddrSeen, s.wrAddrQ⟩

def dataLatch : Handshake.Latch (BitVec 32 × BitVec 4) :=
  ⟨s.wreadyR, s.wrDataSeen, (s.wrDataQ, s.wrStrbQ)⟩

def readLatch : Handshake.Latch (BitVec 12) := ⟨s.arreadyR, s.rdAddrSeen, s.rdAddrQ⟩

/-- The write in the latches is dealt with. -/
def endsWrite : Bool := s.dmaAnswersWrite i || s.answersWrite

def endsRead : Bool := s.dmaAnswersRead i || s.answersRead

def regCycle : RegCycle := ⟨if s.writesLocal then some s.wrReq else none, i.irqSetPulse⟩

end AxiLiteRegs

/-- The sub-window decodes the low four address bits. -/
def subAddr (addr : BitVec 12) : BitVec 4 := addr.setWidth 4

structure AxilTraffic where
  slave : AxiLiteRegs
  awHeld : Option (BitVec 12)
  wHeld : Option (BitVec 32 × BitVec 4)
  arHeld : Option (BitVec 12)
  aws : List (BitVec 12)
  ws : List (BitVec 32 × BitVec 4)
  bs : List (BitVec 2)
  ars : List (BitVec 12)
  rs : List (BitVec 2 × BitVec 32)
  subAws : List (BitVec 4)
  subWs : List (BitVec 32 × BitVec 4)
  subBs : List (BitVec 2)
  subArs : List (BitVec 4)
  subRs : List (BitVec 2 × BitVec 32)
  writes : List AxilWrite
  reads : List AxilRead
  cycles : List RegCycle

namespace AxilTraffic

def start : AxilTraffic :=
  ⟨AxiLiteRegs.reset, none, none, none, [], [], [], [], [], [], [], [], [], [], [], [], []⟩

section
variable (t : AxilTraffic) (i : AxilInput)

def step : AxilTraffic where
  slave := t.slave.step i
  awHeld := t.slave.addrLatch.heldAfter i.awvalid i.awaddr
  wHeld := t.slave.dataLatch.heldAfter i.wvalid (i.wdata, i.wstrb)
  arHeld := t.slave.readLatch.heldAfter i.arvalid i.araddr
  aws := t.aws ++ present (i.awvalid && t.slave.awreadyR) i.awaddr
  ws := t.ws ++ present (i.wvalid && t.slave.wreadyR) (i.wdata, i.wstrb)
  bs := t.bs ++ present (t.slave.bvalidR && i.bready) t.slave.brespR
  ars := t.ars ++ present (i.arvalid && t.slave.arreadyR) i.araddr
  rs := t.rs ++ present (t.slave.rvalidR && i.rready) (t.slave.rrespR, t.slave.rdataR)
  subAws := t.subAws ++ present (t.slave.dmaAwPending && i.dmaAwready) (subAddr t.slave.wrAddrQ)
  subWs := t.subWs ++ present (t.slave.dmaWPending && i.dmaWready) t.slave.wrReq.payload
  subBs := t.subBs ++ present (t.slave.dmaAnswersWrite i) i.dmaBresp
  subArs := t.subArs ++ present (t.slave.dmaArPending && i.dmaArready) (subAddr t.slave.rdAddrQ)
  subRs := t.subRs ++ present (t.slave.dmaAnswersRead i) (i.dmaRresp, i.dmaRdata)
  writes := t.writes ++ present (t.slave.endsWrite i) t.slave.wrReq
  reads := t.reads ++ present (t.slave.endsRead i) ⟨t.slave.rdAddrQ, t.cycles.length⟩
  cycles := t.cycles ++ [t.slave.regCycle i]

/-- Both sides keep to the protocol: what the master has valid it keeps valid and unchanged until
it is accepted, and the sub-window answers only what it has accepted. -/
structure Allowed : Prop where
  aw : Handshake.Latch.Holds t.awHeld i.awvalid i.awaddr
  w : Handshake.Latch.Holds t.wHeld i.wvalid (i.wdata, i.wstrb)
  ar : Handshake.Latch.Holds t.arHeld i.arvalid i.araddr
  dmaB : i.dmaBvalid = true →
    t.subBs.length < (t.step i).subAws.length ∧ t.subBs.length < (t.step i).subWs.length
  dmaR : i.dmaRvalid = true → t.subRs.length < (t.step i).subArs.length

instance : Decidable (t.Allowed i) :=
  decidable_of_iff (Handshake.Latch.Holds t.awHeld i.awvalid i.awaddr ∧
      Handshake.Latch.Holds t.wHeld i.wvalid (i.wdata, i.wstrb) ∧
      Handshake.Latch.Holds t.arHeld i.arvalid i.araddr ∧
      (i.dmaBvalid = true → t.subBs.length < (t.step i).subAws.length ∧
        t.subBs.length < (t.step i).subWs.length) ∧
      (i.dmaRvalid = true → t.subRs.length < (t.step i).subArs.length))
    ⟨fun ⟨haw, hw, har, hb, hr⟩ => ⟨haw, hw, har, hb, hr⟩,
      fun ⟨haw, hw, har, hb, hr⟩ => ⟨haw, hw, har, hb, hr⟩⟩

/-- The accepted writes: the `n`th address belongs to the `n`th word. -/
def pairs : List AxilWrite := List.zipWith (fun a w => ⟨a, w.1, w.2⟩) t.aws t.ws

/-- The writes taken up so far, with one that the sub-window has not answered yet. -/
def served : List AxilWrite := t.writes ++ present t.slave.dmaBPending t.slave.wrReq

def servedReads : List (BitVec 12) :=
  t.reads.map AxilRead.addr ++ present t.slave.dmaRPending t.slave.rdAddrQ

end

/-- What the write channels keep. -/
structure WriteSide (t : AxilTraffic) : Prop where
  addr : t.slave.addrLatch.Tracks t.awHeld t.aws (t.writes.map AxilWrite.addr)
  data : t.slave.dataLatch.Tracks t.wHeld t.ws (t.writes.map AxilWrite.payload)
  whole : t.slave.dmaBPending = true → (t.slave.wrAddrSeen = true ∧ t.slave.awreadyR = false) ∧
    (t.slave.wrDataSeen = true ∧ t.slave.wreadyR = false) ∧ t.slave.wrReq.passed = true
  parts : t.slave.dmaAwPending = true ∨ t.slave.dmaWPending = true → t.slave.dmaBPending = true
  free : t.slave.bvalidR = true → t.slave.dmaBPending = false
  b : Handshake.Offers t.slave.bvalidR t.slave.brespR t.bs
    (Handshake.answers AxilWrite.passed AxilWrite.resp t.writes t.subBs)
  subAw : Handshake.Offers t.slave.dmaAwPending (subAddr t.slave.wrAddrQ) t.subAws
    ((t.served.filter AxilWrite.passed).map fun w => subAddr w.addr)
  subW : Handshake.Offers t.slave.dmaWPending t.slave.wrReq.payload t.subWs
    ((t.served.filter AxilWrite.passed).map AxilWrite.payload)
  subB : t.subBs.length = (t.writes.filter AxilWrite.passed).length

end AxilTraffic

/-! What the conditions of the write channels say. -/

namespace AxiLiteRegs
variable {s : AxiLiteRegs} {i : AxilInput}

theorem commitsWrite_iff : s.commitsWrite = true ↔
    ((s.wrAddrSeen = true ∧ s.wrDataSeen = true) ∧ s.bvalidR = false ∧ s.dmaBPending = false) ∧
      s.dmaAwPending = false ∧ s.dmaWPending = false := by
  simp only [commitsWrite, Bool.and_eq_true, Bool.not_eq_true']
  tauto

theorem forwardsWrite_iff :
    s.forwardsWrite = true ↔ s.commitsWrite = true ∧ s.wrReq.passed = true :=
  Bool.and_eq_true _ _ ▸ Iff.rfl

theorem answersWrite_iff :
    s.answersWrite = true ↔ s.commitsWrite = true ∧ s.wrReq.passed = false := by
  rw [answersWrite, Bool.and_eq_true, Bool.not_eq_true']
  rfl

theorem dmaAnswersWrite_iff :
    s.dmaAnswersWrite i = true ↔ s.dmaBPending = true ∧ i.dmaBvalid = true := by
  rw [dmaAnswersWrite, Bool.and_eq_true]

theorem answersWrite_of_pending (h : s.dmaBPending = true) : s.answersWrite = false := by
  rw [Bool.eq_false_iff]
  intro ha
  obtain ⟨⟨⟨-, -, hb⟩, -⟩, -⟩ := (answersWrite_iff.1 ha).imp_left commitsWrite_iff.1
  rw [h] at hb
  cases hb

theorem commitsWrite_of_valid (h : s.bvalidR = true) : s.commitsWrite = false := by
  rw [Bool.eq_false_iff]
  intro hc
  obtain ⟨⟨-, hb, -⟩, -⟩ := commitsWrite_iff.1 hc
  rw [h] at hb
  cases hb

theorem forwardsWrite_free (h : s.forwardsWrite = true) :
    s.dmaBPending = false ∧ s.answersWrite = false ∧ s.wrReq.passed = true := by
  obtain ⟨hc, hp⟩ := forwardsWrite_iff.1 h
  obtain ⟨⟨-, -, hb⟩, -⟩ := commitsWrite_iff.1 hc
  refine ⟨hb, ?_, hp⟩
  rw [Bool.eq_false_iff]
  intro ha
  rw [(answersWrite_iff.1 ha).2] at hp
  cases hp

theorem addrLatch_step : (s.step i).addrLatch =
    s.addrLatch.step true i.awvalid i.awaddr (s.endsWrite i) := by
  have htakes : s.takesAddr i = s.addrLatch.takes true i.awvalid := by
    rw [takesAddr, Handshake.Latch.takes, Bool.true_and, Bool.and_comm i.awvalid]
    rfl
  rw [Handshake.Latch.step, ← htakes]
  rfl

theorem dataLatch_step : (s.step i).dataLatch =
    s.dataLatch.step true i.wvalid (i.wdata, i.wstrb) (s.endsWrite i) := by
  have htakes : s.takesData i = s.dataLatch.takes true i.wvalid := by
    rw [takesData, Handshake.Latch.takes, Bool.true_and, Bool.and_comm i.wvalid]
    rfl
  rw [Handshake.Latch.step, ← htakes]
  simp only [dataLatch, step, endsWrite]
  cases s.takesData i <;> rfl

/-- A write in both latches stays there as it is. -/
theorem wrReq_step (ha : s.wrAddrSeen = true) (hd : s.wrDataSeen = true) :
    (s.step i).wrReq = s.wrReq ∧ (s.step i).awreadyR = false ∧ (s.step i).wreadyR = false := by
  have hta : s.takesAddr i = false := by
    rw [takesAddr, ha, Bool.not_true, Bool.and_false]
  have htd : s.takesData i = false := by
    rw [takesData, hd, Bool.not_true, Bool.and_false]
  simp [wrReq, step, hta, htd]

end AxiLiteRegs

/-! One edge keeps what the write channels keep. -/

namespace AxilTraffic
variable {t : AxilTraffic} {i : AxilInput}

/-- The sub-window has both parts of a write when it answers. -/
theorem WriteSide.delivered (h : t.WriteSide) (ha : t.Allowed i)
    (hd : t.slave.dmaAnswersWrite i = true) :
    (t.step i).slave.dmaAwPending = false ∧ (t.step i).slave.dmaWPending = false := by
  obtain ⟨hb, hvalid⟩ := AxiLiteRegs.dmaAnswersWrite_iff.1 hd
  have hlaunch : t.slave.forwardsWrite = false := by
    rw [Bool.eq_false_iff]
    intro hf
    rw [(AxiLiteRegs.forwardsWrite_free hf).1] at hb
    cases hb
  have hlength : (t.served.filter AxilWrite.passed).length = t.subBs.length + 1 := by
    rw [served, hb, List.filter_append, List.length_append, h.subB, Handshake.present_true,
      List.filter_cons_of_pos (h.whole hb).2.2]
    rfl
  obtain ⟨haw, hw⟩ := ha.dmaB hvalid
  constructor
  · exact Handshake.part_taken hlaunch (h.subAw.ready ((List.length_map _).trans hlength) haw)
  · exact Handshake.part_taken hlaunch (h.subW.ready ((List.length_map _).trans hlength) hw)

theorem WriteSide.step_whole (h : t.WriteSide) (hb : (t.step i).slave.dmaBPending = true) :
    ((t.step i).slave.wrAddrSeen = true ∧ (t.step i).slave.awreadyR = false) ∧
      ((t.step i).slave.wrDataSeen = true ∧ (t.step i).slave.wreadyR = false) ∧
        (t.step i).slave.wrReq.passed = true := by
  change (if t.slave.dmaAnswersWrite i then false
    else t.slave.forwardsWrite || t.slave.dmaBPending) = true at hb
  cases hd : t.slave.dmaAnswersWrite i with
  | true =>
    rw [hd] at hb
    cases hb
  | false =>
    rw [hd, if_neg Bool.false_ne_true, Bool.or_eq_true] at hb
    have hnow : (t.slave.wrAddrSeen = true ∧ t.slave.wrDataSeen = true) ∧
        t.slave.answersWrite = false ∧ t.slave.wrReq.passed = true := by
      rcases hb with hf | hb
      · have hc := AxiLiteRegs.commitsWrite_iff.1 (AxiLiteRegs.forwardsWrite_iff.1 hf).1
        exact ⟨hc.1.1, (AxiLiteRegs.forwardsWrite_free hf).2⟩
      · have hw := h.whole hb
        exact ⟨⟨hw.1.1, hw.2.1.1⟩, AxiLiteRegs.answersWrite_of_pending hb, hw.2.2⟩
    obtain ⟨⟨hsa, hsd⟩, hl, hp⟩ := hnow
    obtain ⟨hreq, hra, hrd⟩ := AxiLiteRegs.wrReq_step (i := i) hsa hsd
    refine ⟨⟨?_, hra⟩, ⟨?_, hrd⟩, ?_⟩
    · change (if _ then false else _ || t.slave.wrAddrSeen) = true
      rw [hd, hl, hsa, Bool.or_true]
      rfl
    · change (if _ then false else _ || t.slave.wrDataSeen) = true
      rw [hd, hl, hsd, Bool.or_true]
      rfl
    · exact hreq ▸ hp

theorem WriteSide.step_parts (h : t.WriteSide) (ha : t.Allowed i)
    (hp : (t.step i).slave.dmaAwPending = true ∨ (t.step i).slave.dmaWPending = true) :
    (t.step i).slave.dmaBPending = true := by
  cases hd : t.slave.dmaAnswersWrite i with
  | true =>
    obtain ⟨haw, hw⟩ := h.delivered ha hd
    rw [haw, hw] at hp
    rcases hp with hp | hp <;> cases hp
  | false =>
    change (if _ then false else _ || _) = true
    rw [hd]
    rcases hp with hp | hp
    · exact Handshake.part_step (fun hq => h.parts (Or.inl hq)) hp
    · exact Handshake.part_step (fun hq => h.parts (Or.inr hq)) hp

theorem WriteSide.step_free (h : t.WriteSide) (hv : (t.step i).slave.bvalidR = true) :
    (t.step i).slave.dmaBPending = false := by
  refine Handshake.free_step (fun hl => ?_) (fun hb => ?_) hv
  · obtain ⟨hc, hp⟩ := AxiLiteRegs.answersWrite_iff.1 hl
    refine ⟨?_, (AxiLiteRegs.commitsWrite_iff.1 hc).1.2.2⟩
    rw [Bool.eq_false_iff]
    intro hf
    rw [(AxiLiteRegs.forwardsWrite_iff.1 hf).2] at hp
    cases hp
  · refine ⟨?_, h.free hb⟩
    rw [AxiLiteRegs.forwardsWrite, AxiLiteRegs.commitsWrite_of_valid hb, Bool.false_and]

theorem WriteSide.step_b (h : t.WriteSide)
    (hback : t.slave.dmaAnswersWrite i = true → t.slave.wrReq.passed = true)
    (hown : t.slave.answersWrite = true → t.slave.wrReq.passed = false) :
    Handshake.Offers (t.step i).slave.bvalidR (t.step i).slave.brespR (t.step i).bs
      (Handshake.answers AxilWrite.passed AxilWrite.resp (t.step i).writes (t.step i).subBs) := by
  have hresp : present (t.slave.endsWrite i) (if t.slave.dmaAnswersWrite i then i.dmaBresp
      else t.slave.wrReq.resp) = present (t.slave.endsWrite i) (t.step i).slave.brespR := by
    cases hd : t.slave.dmaAnswersWrite i with
    | true =>
      change _ = present _ (if t.slave.dmaAnswersWrite i then i.dmaBresp else _)
      rw [hd, if_pos rfl, if_pos rfl]
    | false =>
      cases hl : t.slave.answersWrite with
      | true =>
        change _ = present _ (if t.slave.dmaAnswersWrite i then _
          else if t.slave.commitsWrite then t.slave.wrReq.resp else _)
        rw [hd, (AxiLiteRegs.answersWrite_iff.1 hl).1]
        rfl
      | false => rw [AxiLiteRegs.endsWrite, hd, hl]; rfl
  have hanswers : Handshake.answers AxilWrite.passed AxilWrite.resp (t.step i).writes
      (t.step i).subBs = Handshake.answers AxilWrite.passed AxilWrite.resp t.writes t.subBs ++
        present (t.slave.endsWrite i) (if t.slave.dmaAnswersWrite i then i.dmaBresp
          else t.slave.wrReq.resp) :=
    Handshake.answers_step h.subB hback hown
  rw [hresp] at hanswers
  refine hanswers ▸ ?_
  have hfree : t.slave.endsWrite i = true → t.slave.bvalidR = false := by
    intro he
    rcases Bool.or_eq_true_iff.1 he with hd | hl
    · cases hv : t.slave.bvalidR with
      | false => rfl
      | true => rw [← h.free hv, (AxiLiteRegs.dmaAnswersWrite_iff.1 hd).1]
    · exact (AxiLiteRegs.commitsWrite_iff.1 (AxiLiteRegs.answersWrite_iff.1 hl).1).1.2.1
  refine h.b.step (Handshake.raise_around hfree) hfree fun he hv _ => ?_
  obtain ⟨hd, -⟩ := Bool.or_eq_false_iff.1 he
  change (if _ then _ else if _ then _ else _) = _
  rw [hd, AxiLiteRegs.commitsWrite_of_valid hv]
  rfl

theorem WriteSide.step (h : t.WriteSide) (ha : t.Allowed i) : (t.step i).WriteSide := by
  have hseen : t.slave.endsWrite i = true →
      t.slave.wrAddrSeen = true ∧ t.slave.wrDataSeen = true := by
    intro he
    rcases Bool.or_eq_true_iff.1 he with hd | hl
    · have hw := h.whole (AxiLiteRegs.dmaAnswersWrite_iff.1 hd).1
      exact ⟨hw.1.1, hw.2.1.1⟩
    · exact (AxiLiteRegs.commitsWrite_iff.1 (AxiLiteRegs.answersWrite_iff.1 hl).1).1.1
  have hback : t.slave.dmaAnswersWrite i = true → t.slave.wrReq.passed = true := fun hd =>
    (h.whole (AxiLiteRegs.dmaAnswersWrite_iff.1 hd).1).2.2
  have hown : t.slave.answersWrite = true → t.slave.wrReq.passed = false := fun hl =>
    (AxiLiteRegs.answersWrite_iff.1 hl).2
  have hserved : (t.step i).served.filter AxilWrite.passed =
      t.served.filter AxilWrite.passed ++
        present t.slave.forwardsWrite (t.step i).slave.wrReq := by
    refine Handshake.filter_step (fun hd => (AxiLiteRegs.dmaAnswersWrite_iff.1 hd).1) hown
      (fun hf => ?_) fun hb => ?_
    · obtain ⟨hb, hl, hp⟩ := AxiLiteRegs.forwardsWrite_free hf
      have hc := AxiLiteRegs.commitsWrite_iff.1 (AxiLiteRegs.forwardsWrite_iff.1 hf).1
      exact ⟨hb, hl, (AxiLiteRegs.wrReq_step hc.1.1.1 hc.1.1.2).1 ▸ hp⟩
    · have hw := h.whole hb
      exact ⟨AxiLiteRegs.answersWrite_of_pending hb, (AxiLiteRegs.wrReq_step hw.1.1 hw.2.1.1).1⟩
  have hfree : t.slave.forwardsWrite = true →
      t.slave.dmaAwPending = false ∧ t.slave.dmaWPending = false := fun hf =>
    (AxiLiteRegs.commitsWrite_iff.1 (AxiLiteRegs.forwardsWrite_iff.1 hf).1).2
  have hstay (hp : t.slave.dmaAwPending = true ∨ t.slave.dmaWPending = true) :
      (t.step i).slave.wrReq = t.slave.wrReq := by
    have hw := h.whole (h.parts hp)
    exact (AxiLiteRegs.wrReq_step hw.1.1 hw.2.1.1).1
  refine ⟨?_, ?_, h.step_whole, ?_, ?_, ?_, ?_, ?_, ?_⟩
  · rw [AxilTraffic.step, AxiLiteRegs.addrLatch_step, List.map_append, Handshake.map_present]
    exact h.addr.step ha.aw fun he => (hseen he).1
  · rw [AxilTraffic.step, AxiLiteRegs.dataLatch_step, List.map_append, Handshake.map_present]
    exact h.data.step ha.w fun he => (hseen he).2
  · exact h.step_parts ha
  · exact h.step_free
  · exact h.step_b hback hown
  · rw [hserved, List.map_append, Handshake.map_present]
    refine h.subAw.step (Handshake.clear_last fun hf => (hfree hf).1) (fun hf => (hfree hf).1)
      fun _ hp _ => ?_
    exact congrArg (fun w => subAddr w.addr) (hstay (Or.inl hp))
  · rw [hserved, List.map_append, Handshake.map_present]
    refine h.subW.step (Handshake.clear_last fun hf => (hfree hf).2) (fun hf => (hfree hf).2)
      fun _ hp _ => ?_
    exact congrArg AxilWrite.payload (hstay (Or.inr hp))
  · exact Handshake.answers_step_length h.subB hback hown

theorem WriteSide.start : AxilTraffic.start.WriteSide where
  addr := Handshake.Latch.tracks_empty _
  data := Handshake.Latch.tracks_empty _
  whole h := absurd h Bool.false_ne_true
  parts h := absurd h (by decide)
  free h := absurd h Bool.false_ne_true
  b := rfl
  subAw := rfl
  subW := rfl
  subB := rfl

end AxilTraffic
end TetraBs.Infra
