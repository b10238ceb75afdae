import TetraBs.Infra.AxiLiteReads
import Mathlib.Data.List.Range
import Mathlib.Order.Monotone.Basic

/-! The register slave over runs without end: what its registers hold, which accepted requests
it has dealt with, and that it deals with every one of them. -/
namespace TetraBs.Infra
open Handshake (present)

namespace LiveRegs

/-- All but the interrupt status, which the hardware writes too. -/
def config (r : LiveRegs) : LiveRegs := { r with irqStatus := 0 }

def apply (r : LiveRegs) (w : AxilWrite) : LiveRegs := r.write w.addr w.data w.strb

theorem config_write (r : LiveRegs) (w : AxilWrite) :
    (r.apply w).config = (r.config.apply w).config := by
  simp only [apply, write, config]
  cases inSlotTable w.addr <;> (split <;> rfl)

theorem foldl_config (ws : List AxilWrite) (r : LiveRegs) :
    (ws.foldl apply r).config = (ws.foldl apply r.config).config := by
  induction ws generalizing r with
  | nil => rfl
  | cons w ws ih =>
    rw [List.foldl_cons, List.foldl_cons, ih, config_write, ← ih]

/-- What an update clears in the interrupt status: bits written one at 0x10C. -/
def cleared (w : AxilWrite) : BitVec 5 := if w.addr = 0x10C then w.data.setWidth 5 else 0

theorem irqStatus_write (r : LiveRegs) (w : AxilWrite) :
    (r.apply w).irqStatus = r.irqStatus &&& ~~~cleared w := by
  rw [cleared]
  by_cases hw : w.addr = 0x10C
  · rw [if_pos hw, apply, hw]
    rfl
  · have hne : w.addr.toNat ≠ 0x10C := fun h => hw (BitVec.eq_of_toNat_eq h)
    rw [if_neg hw, apply, write]
    rw [show ~~~(0 : BitVec 5) = BitVec.allOnes 5 from rfl, BitVec.and_allOnes]
    cases inSlotTable w.addr <;> (split <;> first | rfl | contradiction)

theorem edge_irqStatus (r : LiveRegs) (c : RegCycle) :
    (r.edge c).irqStatus = r.irqStatus &&& ~~~c.write.elim 0 cleared ||| c.pulse := by
  obtain ⟨w, p⟩ := c
  cases w with
  | none =>
    change r.irqStatus ||| p = r.irqStatus &&& ~~~(0 : BitVec 5) ||| p
    rw [show ~~~(0 : BitVec 5) = BitVec.allOnes 5 from rfl, BitVec.and_allOnes]
  | some w => exact congrArg (· ||| p) (irqStatus_write r w)

theorem edge_config (r : LiveRegs) (c : RegCycle) :
    (r.edge c).config = (c.write.toList.foldl apply r.config).config := by
  obtain ⟨w, p⟩ := c
  cases w with
  | none => rfl
  | some w => exact config_write r w

/-- Pulses apart, the registers are the writes in their order. -/
theorem config_foldl (cs : List RegCycle) (r : LiveRegs) :
    (cs.foldl edge r).config = ((cs.filterMap RegCycle.write).foldl apply r.config).config := by
  induction cs generalizing r with
  | nil => rfl
  | cons c cs ih =>
    rw [List.foldl_cons, ih, edge_config]
    obtain ⟨w, p⟩ := c
    cases w with
    | none => rfl
    | some w => exact (foldl_config _ (r.config.apply w)).symm

end LiveRegs

theorem AxilWrite.isLocal_eq (w : AxilWrite) :
    w.isLocal = (!w.passed && !isMisaligned w.addr) := by
  rw [isLocal, passed, AxiLiteRegs.forwards]
  cases isMisaligned w.addr <;> cases isDmaSubwin w.addr <;> rfl

/-! The registers of a run. -/

namespace AxilTraffic
variable {t : AxilTraffic} {i : AxilInput}

structure RegisterSide (t : AxilTraffic) : Prop where
  regs : t.slave.regs = t.cycles.foldl LiveRegs.edge {}
  writes : t.cycles.filterMap RegCycle.write = t.writes.filter AxilWrite.isLocal

theorem RegisterSide.step (h : t.RegisterSide) (hw : t.WriteSide) :
    (t.step i).RegisterSide := by
  constructor
  · change t.slave.nextRegs i = (t.cycles ++ [t.slave.regCycle i]).foldl LiveRegs.edge {}
    rw [List.foldl_append, ← h.regs, AxiLiteRegs.nextRegs]
    change _ = t.slave.regs.edge (t.slave.regCycle i)
    rw [AxiLiteRegs.regCycle, LiveRegs.edge]
    cases t.slave.writesLocal <;> rfl
  · change (t.cycles ++ [t.slave.regCycle i]).filterMap RegCycle.write =
      (t.writes ++ present (t.slave.endsWrite i) t.slave.wrReq).filter AxilWrite.isLocal
    rw [List.filterMap_append, List.filter_append, h.writes]
    congr 1
    have hlogged : [t.slave.regCycle i].filterMap RegCycle.write =
        present t.slave.writesLocal t.slave.wrReq := by
      rw [AxiLiteRegs.regCycle]
      cases t.slave.writesLocal <;> rfl
    rw [hlogged, AxiLiteRegs.writesLocal, AxiLiteRegs.endsWrite]
    cases hl : t.slave.answersWrite with
    | true =>
      have hlocal : t.slave.wrReq.isLocal = !isMisaligned t.slave.wrAddrQ := by
        rw [AxilWrite.isLocal_eq, (AxiLiteRegs.answersWrite_iff.1 hl).2]
        rfl
      rw [Bool.or_true, Bool.true_and, ← hlocal]
      cases hc : t.slave.wrReq.isLocal <;> simp [hc]
    | false =>
      cases hd : t.slave.dmaAnswersWrite i with
      | true =>
        have hb := (AxiLiteRegs.dmaAnswersWrite_iff.1 hd).1
        simp [AxilWrite.isLocal_eq, (hw.whole hb).2.2]
      | false => rfl

/-! The accepted requests against the ones dealt with. -/

theorem WriteSide.pairs_eq (h : t.WriteSide) :
    t.pairs = t.writes ++ present ((t.slave.wrAddrSeen && !t.slave.awreadyR) &&
      (t.slave.wrDataSeen && !t.slave.wreadyR)) t.slave.wrReq := by
  have hmap (ws : List AxilWrite) : List.zipWith (fun a w => (⟨a, w.1, w.2⟩ : AxilWrite))
      (ws.map AxilWrite.addr) (ws.map AxilWrite.payload) = ws := by
    induction ws with
    | nil => rfl
    | cons w ws ih => exact congrArg (w :: ·) ih
  rw [pairs, h.addr.accepted_eq, h.data.accepted_eq, List.zipWith_append (by simp), hmap]
  congr 1
  change List.zipWith _ (present (t.slave.wrAddrSeen && !t.slave.awreadyR) _)
    (present (t.slave.wrDataSeen && !t.slave.wreadyR) _) = _
  cases t.slave.wrAddrSeen && !t.slave.awreadyR <;>
    cases t.slave.wrDataSeen && !t.slave.wreadyR <;> rfl

theorem WriteSide.served_prefix (h : t.WriteSide) : t.served <+: t.pairs := by
  rw [h.pairs_eq, served, List.prefix_append_right_inj]
  cases hb : t.slave.dmaBPending with
  | false => exact List.nil_prefix
  | true =>
    obtain ⟨⟨hsa, hra⟩, ⟨hsd, hrd⟩, -⟩ := h.whole hb
    rw [hsa, hra, hsd, hrd]
    exact List.prefix_rfl

theorem WriteSide.pairs_length (h : t.WriteSide) : t.pairs.length ≤ t.writes.length + 1 := by
  rw [h.pairs_eq, List.length_append]
  refine Nat.add_le_add_left ?_ _
  exact Handshake.present_length_le _ _

theorem ReadSide.served_prefix {own : AxilRead → BitVec 2 × BitVec 32} (h : t.ReadSide own) :
    t.servedReads <+: t.ars := by
  rw [h.addr.accepted_eq, servedReads, List.prefix_append_right_inj]
  cases hb : t.slave.dmaRPending with
  | false => exact List.nil_prefix
  | true =>
    obtain ⟨⟨hs, hr⟩, -⟩ := h.whole hb
    change _ <+: present (t.slave.rdAddrSeen && !t.slave.arreadyR) _
    rw [hs, hr]
    exact List.prefix_rfl

theorem ReadSide.reads_length {own : AxilRead → BitVec 2 × BitVec 32} (h : t.ReadSide own) :
    t.ars.length ≤ t.reads.length + 1 := by
  rw [h.addr.accepted_eq, List.length_append, List.length_map]
  exact Nat.add_le_add_left (Handshake.present_length_le _ _) _

end AxilTraffic

/-! Runs. -/

section
variable (i : ℕ → AxilInput)

def traffic : ℕ → AxilTraffic
  | 0 => AxilTraffic.start
  | n + 1 => (traffic n).step (i n)

/-- Master and sub-window keep to the protocol in every cycle. -/
def Conforms : Prop := ∀ n, (traffic i n).Allowed (i n)

/-- The master takes every answer in the end, and the sub-window gives its own. -/
structure Responsive : Prop where
  b : ∀ n, (traffic i n).slave.bvalidR = true → ∃ m ≥ n, (i m).bready = true
  r : ∀ n, (traffic i n).slave.rvalidR = true → ∃ m ≥ n, (i m).rready = true
  dmaB : ∀ n, (traffic i n).slave.dmaBPending = true → ∃ m ≥ n, (i m).dmaBvalid = true
  dmaR : ∀ n, (traffic i n).slave.dmaRPending = true → ∃ m ≥ n, (i m).dmaRvalid = true

/-- A read that the slave serves itself: SLVERR and zero, or the word as it was at its `time`. -/
def ownAnswer (r : AxilRead) : BitVec 2 × BitVec 32 :=
  if isMisaligned r.addr then (2, 0)
  else (0, (traffic i r.time).slave.regs.read (i r.time).telemetry r.addr)

variable {i}

theorem traffic_cycles (n : ℕ) : (traffic i n).cycles.length = n := by
  induction n with
  | zero => rfl
  | succ n ih =>
    change ((traffic i n).cycles ++ [_]).length = n + 1
    rw [List.length_append, ih]
    rfl

theorem traffic_writeSide (h : Conforms i) (n : ℕ) : (traffic i n).WriteSide := by
  induction n with
  | zero => exact AxilTraffic.WriteSide.start
  | succ n ih => exact ih.step (h n)

theorem traffic_readSide (h : Conforms i) (n : ℕ) : (traffic i n).ReadSide (ownAnswer i) := by
  induction n with
  | zero => exact AxilTraffic.ReadSide.start _
  | succ n ih =>
    refine ih.step (h n) ?_
    rw [ownAnswer, traffic_cycles]
    rfl

theorem traffic_registers (h : Conforms i) (n : ℕ) : (traffic i n).RegisterSide := by
  induction n with
  | zero => exact ⟨rfl, rfl⟩
  | succ n ih => exact ih.step (traffic_writeSide h n)

theorem traffic_regs (n : ℕ) : (traffic i (n + 1)).slave.regs =
    (traffic i n).slave.regs.edge ((traffic i n).slave.regCycle (i n)) := by
  change (traffic i n).slave.nextRegs (i n) = _
  rw [AxiLiteRegs.nextRegs, AxiLiteRegs.regCycle, LiveRegs.edge]
  cases (traffic i n).slave.writesLocal <;> rfl

/-! Progress. -/

theorem bs_mono : Monotone fun n => (traffic i n).bs.length :=
  monotone_nat_of_le_succ fun n => Handshake.append_present_length (traffic i n).bs _ _

theorem rs_mono : Monotone fun n => (traffic i n).rs.length :=
  monotone_nat_of_le_succ fun n => Handshake.append_present_length (traffic i n).rs _ _

theorem ars_mono : Monotone fun n => (traffic i n).ars.length :=
  monotone_nat_of_le_succ fun n => Handshake.append_present_length (traffic i n).ars _ _

theorem pairs_mono : Monotone fun n => (traffic i n).pairs.length :=
  monotone_nat_of_le_succ fun n => by
    have haws : (traffic i n).aws.length ≤ (traffic i (n + 1)).aws.length :=
      Handshake.append_present_length _ _ _
    have hws : (traffic i n).ws.length ≤ (traffic i (n + 1)).ws.length :=
      Handshake.append_present_length _ _ _
    rw [AxilTraffic.pairs, AxilTraffic.pairs, List.length_zipWith, List.length_zipWith]
    omega

theorem bvalid_stays (s : AxiLiteRegs) (x : AxilInput) (hv : s.bvalidR = true)
    (hready : x.bready = false) : (s.step x).bvalidR = true := by
  change (if _ then true else if _ then false else if _ then true else _) = true
  simp [hv, hready]

theorem rvalid_stays (s : AxiLiteRegs) (x : AxilInput) (hv : s.rvalidR = true)
    (hready : x.rready = false) : (s.step x).rvalidR = true := by
  change (if _ then true else if _ then false else if _ then true else _) = true
  simp [hv, hready]

theorem b_delivered (hr : Responsive i) {n : ℕ}
    (hv : ∃ m ≥ n, (traffic i m).slave.bvalidR = true) :
    ∃ m ≥ n, (traffic i n).bs.length < (traffic i m).bs.length := by
  refine Handshake.delivered bs_mono (fun n => bvalid_stays (traffic i n).slave (i n))
    (fun n hv hready => ?_) hr.b hv
  change _ < ((traffic i n).bs ++ present (_ && _) _).length
  rw [hv, hready, List.length_append]
  exact Nat.lt_succ_self _

theorem r_delivered (hr : Responsive i) {n : ℕ}
    (hv : ∃ m ≥ n, (traffic i m).slave.rvalidR = true) :
    ∃ m ≥ n, (traffic i n).rs.length < (traffic i m).rs.length := by
  refine Handshake.delivered rs_mono (fun n => rvalid_stays (traffic i n).slave (i n))
    (fun n hv hready => ?_) hr.r hv
  change _ < ((traffic i n).rs ++ present (_ && _) _).length
  rw [hv, hready, List.length_append]
  exact Nat.lt_succ_self _

/-- A write that the sub-window has gets answered. -/
theorem dmaB_answered (hr : Responsive i) {n : ℕ}
    (hb : (traffic i n).slave.dmaBPending = true) :
    ∃ m ≥ n, (traffic i m).slave.bvalidR = true := by
  have hstay (n : ℕ) (hb : (traffic i n).slave.dmaBPending = true)
      (hno : (i n).dmaBvalid = false) : (traffic i (n + 1)).slave.dmaBPending = true := by
    change (if (traffic i n).slave.dmaAnswersWrite (i n) then false else _ || _) = true
    rw [AxiLiteRegs.dmaAnswersWrite, hno, Bool.and_false, hb, Bool.or_true]
    rfl
  obtain ⟨m, hm, hbm, hvalid⟩ := Handshake.waits hstay hb (hr.dmaB n hb)
  refine ⟨m + 1, Nat.le_succ_of_le hm, ?_⟩
  change (if (traffic i m).slave.dmaAnswersWrite (i m) then true else _) = true
  rw [AxiLiteRegs.dmaAnswersWrite_iff.2 ⟨hbm, hvalid⟩]
  rfl

/-- A read that the sub-window has gets answered. -/
theorem dmaR_answered (hr : Responsive i) {n : ℕ}
    (hb : (traffic i n).slave.dmaRPending = true) :
    ∃ m ≥ n, (traffic i m).slave.rvalidR = true := by
  have hstay (n : ℕ) (hb : (traffic i n).slave.dmaRPending = true)
      (hno : (i n).dmaRvalid = false) : (traffic i (n + 1)).slave.dmaRPending = true := by
    change (if (traffic i n).slave.dmaAnswersRead (i n) then false else _ || _) = true
    rw [AxiLiteRegs.dmaAnswersRead, hno, Bool.and_false, hb, Bool.or_true]
    rfl
  obtain ⟨m, hm, hbm, hvalid⟩ := Handshake.waits hstay hb (hr.dmaR n hb)
  refine ⟨m + 1, Nat.le_succ_of_le hm, ?_⟩
  change (if (traffic i m).slave.dmaAnswersRead (i m) then true else _) = true
  rw [AxiLiteRegs.dmaAnswersRead_iff.2 ⟨hbm, hvalid⟩]
  rfl

/-- A write in both latches that nothing holds up is answered or passed on at this edge. -/
theorem commits_write {s : AxiLiteRegs} (hc : s.commitsWrite = true) (x : AxilInput) :
    (s.step x).bvalidR = true ∨ (s.step x).dmaBPending = true := by
  have hidle := AxiLiteRegs.commitsWrite_iff.1 hc
  have hd : s.dmaAnswersWrite x = false := by
    rw [AxiLiteRegs.dmaAnswersWrite, hidle.1.2.2, Bool.false_and]
  cases hp : s.wrReq.passed with
  | true =>
    refine Or.inr ?_
    change (if s.dmaAnswersWrite x then false else s.forwardsWrite || _) = true
    rw [hd, AxiLiteRegs.forwardsWrite_iff.2 ⟨hc, hp⟩]
    rfl
  | false =>
    refine Or.inl ?_
    change (if s.dmaAnswersWrite x then true else if s.bvalidR && _ then false
      else if s.answersWrite then true else _) = true
    rw [hd, hidle.1.2.1, AxiLiteRegs.answersWrite_iff.2 ⟨hc, hp⟩]
    rfl

theorem commits_read {s : AxiLiteRegs} (hc : s.commitsRead = true) (x : AxilInput) :
    (s.step x).rvalidR = true ∨ (s.step x).dmaRPending = true := by
  have hidle := AxiLiteRegs.commitsRead_iff.1 hc
  have hd : s.dmaAnswersRead x = false := by
    rw [AxiLiteRegs.dmaAnswersRead, hidle.1.2.2, Bool.false_and]
  cases hp : AxiLiteRegs.forwards s.rdAddrQ with
  | true =>
    refine Or.inr ?_
    change (if s.dmaAnswersRead x then false else s.forwardsRead || _) = true
    rw [hd, AxiLiteRegs.forwardsRead_iff.2 ⟨hc, hp⟩]
    rfl
  | false =>
    refine Or.inl ?_
    change (if s.dmaAnswersRead x then true else if s.rvalidR && _ then false
      else if s.answersRead then true else _) = true
    rw [hd, hidle.1.2.1, AxiLiteRegs.answersRead_iff.2 ⟨hc, hp⟩]
    rfl

/-- While an accepted write has no answer, another answer is on its way. -/
theorem write_gains (h : Conforms i) (hr : Responsive i) (n : ℕ)
    (hlt : (traffic i n).bs.length < (traffic i n).pairs.length) :
    ∃ m ≥ n, (traffic i n).bs.length < (traffic i m).bs.length := by
  have hw := traffic_writeSide h n
  refine b_delivered hr ?_
  cases hv : (traffic i n).slave.bvalidR with
  | true => exact ⟨n, Nat.le_refl n, hv⟩
  | false =>
    have hlen : (traffic i n).bs.length = (traffic i n).writes.length := by
      have hb := hw.b
      rw [Handshake.Offers, hv, Handshake.present_false, List.append_nil] at hb
      rw [hb, Handshake.answers_length hw.subB]
    rw [hlen, hw.pairs_eq, List.length_append] at hlt
    have hwaits := Handshake.present_pos (Nat.pos_of_lt_add_right hlt)
    obtain ⟨ha, hd⟩ := (Bool.and_eq_true_iff.1 hwaits).imp
      (fun h => (Bool.and_eq_true_iff.1 h).1) fun h => (Bool.and_eq_true_iff.1 h).1
    cases hb : (traffic i n).slave.dmaBPending with
    | true => exact dmaB_answered hr hb
    | false =>
      have hparts : (traffic i n).slave.dmaAwPending = false ∧
          (traffic i n).slave.dmaWPending = false := by
        rw [Bool.eq_false_iff, Bool.eq_false_iff, ← not_or]
        intro hp
        rw [hw.parts hp] at hb
        cases hb
      have hc := AxiLiteRegs.commitsWrite_iff.2 ⟨⟨⟨ha, hd⟩, hv, hb⟩, hparts⟩
      rcases commits_write hc (i n) with hnext | hnext
      · exact ⟨n + 1, Nat.le_succ n, hnext⟩
      · obtain ⟨m, hm, hvm⟩ := dmaB_answered (n := n + 1) hr hnext
        exact ⟨m, Nat.le_of_succ_le hm, hvm⟩

theorem read_gains (h : Conforms i) (hr : Responsive i) (n : ℕ)
    (hlt : (traffic i n).rs.length < (traffic i n).ars.length) :
    ∃ m ≥ n, (traffic i n).rs.length < (traffic i m).rs.length := by
  have hw := traffic_readSide h n
  refine r_delivered hr ?_
  cases hv : (traffic i n).slave.rvalidR with
  | true => exact ⟨n, Nat.le_refl n, hv⟩
  | false =>
    have hlen : (traffic i n).rs.length = (traffic i n).reads.length := by
      have hb := hw.r
      rw [Handshake.Offers, hv, Handshake.present_false, List.append_nil] at hb
      rw [hb, Handshake.answers_length hw.subR]
    rw [hlen, hw.addr.accepted_eq, List.length_append, List.length_map] at hlt
    have hwaits := Handshake.present_pos (Nat.pos_of_lt_add_right hlt)
    have hs := (Bool.and_eq_true_iff.1 hwaits).1
    cases hb : (traffic i n).slave.dmaRPending with
    | true => exact dmaR_answered hr hb
    | false =>
      have hpart : (traffic i n).slave.dmaArPending = false := by
        rw [Bool.eq_false_iff]
        intro hp
        rw [hw.part hp] at hb
        cases hb
      have hc := AxiLiteRegs.commitsRead_iff.2 ⟨⟨hs, hv, hb⟩, hpart⟩
      rcases commits_read hc (i n) with hnext | hnext
      · exact ⟨n + 1, Nat.le_succ n, hnext⟩
      · obtain ⟨m, hm, hvm⟩ := dmaR_answered (n := n + 1) hr hnext
        exact ⟨m, Nat.le_of_succ_le hm, hvm⟩

end
end TetraBs.Infra

/-! The contract of the register slave: every request is answered once and in order, and the
registers are what the accepted writes and the pulses made them. -/
namespace TetraBs.Infra
open Handshake (present)

/-- What holds between any two edges. -/
structure AxilContract (own : AxilRead → BitVec 2 × BitVec 32) (t : AxilTraffic) : Prop where
  /-- The accepted writes are dealt with in their order, one at a time. -/
  served : t.served <+: t.pairs
  pairs : t.pairs.length ≤ t.writes.length + 1
  b : Handshake.Offers t.slave.bvalidR t.slave.brespR t.bs
    (Handshake.answers AxilWrite.passed AxilWrite.resp t.writes t.subBs)
  /-- A sub-window write is passed on once, and its response is the sub-window's. -/
  subAw : Handshake.Offers t.slave.dmaAwPending (subAddr t.slave.wrAddrQ) t.subAws
    ((t.served.filter AxilWrite.passed).map fun w => subAddr w.addr)
  subW : Handshake.Offers t.slave.dmaWPending t.slave.wrReq.payload t.subWs
    ((t.served.filter AxilWrite.passed).map AxilWrite.payload)
  subB : t.subBs.length = (t.writes.filter AxilWrite.passed).length
  servedReads : t.servedReads <+: t.ars
  ars : t.ars.length ≤ t.reads.length + 1
  r : Handshake.Offers t.slave.rvalidR (t.slave.rrespR, t.slave.rdataR) t.rs
    (Handshake.answers AxilRead.passed own t.reads t.subRs)
  subAr : Handshake.Offers t.slave.dmaArPending (subAddr t.slave.rdAddrQ) t.subArs
    ((t.servedReads.filter AxiLiteRegs.forwards).map subAddr)
  subR : t.subRs.length = (t.reads.filter AxilRead.passed).length
  /-- The registers are the fold of the aligned writes outside the sub-window. -/
  config : t.slave.regs.config =
    ((t.writes.filter AxilWrite.isLocal).foldl LiveRegs.apply {}).config
  regs : t.slave.regs = t.cycles.foldl LiveRegs.edge {}
  cycles : t.cycles.filterMap RegCycle.write = t.writes.filter AxilWrite.isLocal

structure SlaveContract (i : ℕ → AxilInput) : Prop where
  always : ∀ n, AxilContract (ownAnswer i) (traffic i n)
  pulses : ∀ n, (traffic i n).cycles.map RegCycle.pulse =
    (List.range n).map fun k => (i k).irqSetPulse
  irqSet : ∀ n k, (i n).irqSetPulse.getLsbD k = true →
    (traffic i (n + 1)).slave.regs.irqStatus.getLsbD k = true
  /-- Only a one written to 0x10C, with no pulse in that cycle, drops a bit. -/
  irqKept : ∀ n k, (traffic i n).slave.regs.irqStatus.getLsbD k = true →
    (traffic i (n + 1)).slave.regs.irqStatus.getLsbD k = false →
      ((traffic i n).slave.writesLocal = true ∧ (traffic i n).slave.wrAddrQ = 0x10C ∧
        (traffic i n).slave.wrDataQ.getLsbD k = true) ∧ (i n).irqSetPulse.getLsbD k = false
  /-- Every accepted request is answered in the end. -/
  writesAnswered : Responsive i → ∀ n k, k < (traffic i n).pairs.length →
    ∃ m, k < (traffic i m).bs.length
  readsAnswered : Responsive i → ∀ n k, k < (traffic i n).ars.length →
    ∃ m, k < (traffic i m).rs.length

section
variable {i : ℕ → AxilInput}

theorem traffic_contract (h : Conforms i) (n : ℕ) :
    AxilContract (ownAnswer i) (traffic i n) := by
  have hw := traffic_writeSide h n
  have hr := traffic_readSide h n
  have hregs := traffic_registers h n
  refine ⟨hw.served_prefix, hw.pairs_length, hw.b, hw.subAw, hw.subW, hw.subB, hr.served_prefix,
    hr.reads_length, hr.r, hr.subAr, hr.subR, ?_, hregs.regs, hregs.writes⟩
  rw [hregs.regs, LiveRegs.config_foldl, hregs.writes]
  rfl

theorem traffic_pulses (n : ℕ) : (traffic i n).cycles.map RegCycle.pulse =
    (List.range n).map fun k => (i k).irqSetPulse := by
  induction n with
  | zero => rfl
  | succ n ih =>
    change ((traffic i n).cycles ++ [(traffic i n).slave.regCycle (i n)]).map RegCycle.pulse = _
    rw [List.map_append, ih, List.range_succ, List.map_append]
    rfl

theorem traffic_irqSet (n k : ℕ) (h : (i n).irqSetPulse.getLsbD k = true) :
    (traffic i (n + 1)).slave.regs.irqStatus.getLsbD k = true := by
  rw [traffic_regs, LiveRegs.edge_irqStatus, BitVec.getLsbD_or]
  exact Bool.or_eq_true_iff.2 (Or.inr h)

theorem traffic_irqKept (n k : ℕ) (h : (traffic i n).slave.regs.irqStatus.getLsbD k = true)
    (hfall : (traffic i (n + 1)).slave.regs.irqStatus.getLsbD k = false) :
    ((traffic i n).slave.writesLocal = true ∧ (traffic i n).slave.wrAddrQ = 0x10C ∧
      (traffic i n).slave.wrDataQ.getLsbD k = true) ∧ (i n).irqSetPulse.getLsbD k = false := by
  have hk : k < 5 := BitVec.lt_of_getLsbD h
  rw [traffic_regs, LiveRegs.edge_irqStatus, BitVec.getLsbD_or, Bool.or_eq_false_iff,
    BitVec.getLsbD_and, h, Bool.true_and, BitVec.getLsbD_not, decide_eq_true hk, Bool.true_and,
    Bool.not_eq_false'] at hfall
  obtain ⟨hcleared, hpulse⟩ := hfall
  refine ⟨?_, hpulse⟩
  rw [AxiLiteRegs.regCycle] at hcleared
  cases hl : (traffic i n).slave.writesLocal with
  | false =>
    rw [hl] at hcleared
    exact absurd hcleared (by simp)
  | true =>
    rw [hl] at hcleared
    change (LiveRegs.cleared (traffic i n).slave.wrReq).getLsbD k = true at hcleared
    rw [LiveRegs.cleared] at hcleared
    split at hcleared
    · rename_i haddr
      rw [BitVec.getLsbD_setWidth, decide_eq_true hk, Bool.true_and] at hcleared
      exact ⟨rfl, haddr, hcleared⟩
    · exact absurd hcleared (by simp)

/-- For every order and delay of the handshakes, by a master and a sub-window that keep to the
protocol. -/
theorem axiLiteRegs_contract (h : Conforms i) : SlaveContract i where
  always := traffic_contract h
  pulses := traffic_pulses
  irqSet := traffic_irqSet
  irqKept := traffic_irqKept
  writesAnswered hr _ _ hk := Handshake.catches_up pairs_mono (write_gains h hr) hk
  readsAnswered hr _ _ hk := Handshake.catches_up ars_mono (read_gains h hr) hk

end

def AxilInput.idle : AxilInput :=
  ⟨0, false, 0, 0, false, true, 0, false, true, true, true, 0, false, true, 0, 0, false, 0, {}⟩

/-- A write of the scratch register, then a sub-window write beside a misaligned read. -/
def sampleBus : ℕ → AxilInput
  | 0 | 1 => { AxilInput.idle with
      awaddr := 0x200, awvalid := true, wdata := 0xDEADBEEF, wstrb := 15, wvalid := true }
  | 2 | 3 => { AxilInput.idle with
      awaddr := 0x0A4, awvalid := true, wdata := 1, wstrb := 15, wvalid := true,
      araddr := 0x201, arvalid := true }
  | 5 => { AxilInput.idle with dmaBvalid := true, dmaBresp := 2 }
  | _ => AxilInput.idle

theorem sampleBus_conforms : Conforms sampleBus := by
  intro n
  by_cases hn : n < 7
  · have hall : ∀ n < 7, (traffic sampleBus n).Allowed (sampleBus n) := by decide
    exact hall n hn
  · obtain ⟨m, rfl⟩ : ∃ m, n = m + 7 := ⟨n - 7, by omega⟩
    -- The bus is idle from here on, and was one cycle before.
    exact ⟨Handshake.Latch.holds_none _ _, Handshake.Latch.holds_none _ _,
      Handshake.Latch.holds_none _ _, fun h => absurd h Bool.false_ne_true,
      fun h => absurd h Bool.false_ne_true⟩

theorem axiLiteRegs_contract_sample : SlaveContract sampleBus ∧
    (traffic sampleBus 7).bs = [0, 2] ∧ (traffic sampleBus 7).rs = [(2, 0)] ∧
      (traffic sampleBus 7).slave.regs.scratch = 0xDEADBEEF :=
  ⟨axiLiteRegs_contract sampleBus_conforms, by decide, by decide, by decide⟩

end TetraBs.Infra
