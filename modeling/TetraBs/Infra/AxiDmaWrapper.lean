import TetraBs.Infra.Axis
import TetraBs.Lib.Latch
import TetraBs.Lib.Run

/-! The register window of `tetra_axi_dma_wrapper`: the AXI4-Lite slave and the sticky
completion bits of the four DMA channels. One step is one rising edge of `clk_axi`. -/
namespace TetraBs.Infra.AxiDma
open TetraBs.Run TetraBs.Latch

structure Input where
  awaddr : BitVec 4
  awvalid : Bool
  wdata : Word
  wstrb : BitVec 4
  wvalid : Bool
  bready : Bool
  araddr : BitVec 4
  arvalid : Bool
  rready : Bool
  chIrqPulse : BitVec 4

structure State where
  regChEnable : BitVec 4
  regChReset : BitVec 4
  regIrqEnable : BitVec 4
  regIrqStatus : BitVec 4
  axilAwreadyR : Bool
  axilWreadyR : Bool
  axilBvalidR : Bool
  axilBrespR : BitVec 2
  axilArreadyR : Bool
  axilRvalidR : Bool
  axilRdataR : Word
  axilRrespR : BitVec 2
  wrAddrSeen : Bool
  wrDataSeen : Bool
  wrAddrQ : BitVec 4
  rdAddrQ : BitVec 4
  wrDataQ : Word
  wrStrbQ : BitVec 4
  chResetPulse : BitVec 4

def reset : State :=
  ⟨0, 0, 0, 0, false, false, false, 0, false, false, 0, 0, false, false, 0, 0, 0, 0, 0⟩

/-- `addr[LITE_ADDR_WIDTH-1:2]`. -/
def regIndex (addr : BitVec 4) : BitVec 2 := addr.extractLsb' 2 2

def REG_DMA_CH_ENABLE : BitVec 2 := 0
def REG_DMA_CH_RESET : BitVec 2 := 1
def REG_DMA_IRQ_ENABLE : BitVec 2 := 2
def REG_DMA_IRQ_STATUS : BitVec 2 := 3

/-! Conditions of the clocked block. They read the registers before the edge. -/

def takesAddr (s : State) (i : Input) : Bool := !s.axilAwreadyR && i.awvalid && !s.wrAddrSeen

def takesData (s : State) (i : Input) : Bool := !s.axilWreadyR && i.wvalid && !s.wrDataSeen

def commits (s : State) : Bool := s.wrAddrSeen && s.wrDataSeen && !s.axilBvalidR

/-! The phases of the clocked block, in the order of the source: `s` holds the registers
before the edge, `n` the assignments made so far. -/

def latchPhase (i : Input) (s : State) : State :=
  { s with
    regIrqStatus := s.regIrqStatus ||| i.chIrqPulse
    chResetPulse := s.regChReset
    regChReset := 0 }

def awPhase (s : State) (i : Input) (n : State) : State :=
  if takesAddr s i then { n with wrAddrQ := i.awaddr, wrAddrSeen := true, axilAwreadyR := true }
  else { n with axilAwreadyR := false }

def wPhase (s : State) (i : Input) (n : State) : State :=
  if takesData s i then
    { n with wrDataQ := i.wdata, wrStrbQ := i.wstrb, wrDataSeen := true, axilWreadyR := true }
  else { n with axilWreadyR := false }

def writeRegister (s : State) (i : Input) (n : State) : State :=
  if regIndex s.wrAddrQ = REG_DMA_CH_ENABLE then
    { n with
      regChEnable := if s.wrStrbQ.getLsbD 0 then s.wrDataQ.extractLsb' 0 4 else n.regChEnable
      axilBrespR := 0 }
  else if regIndex s.wrAddrQ = REG_DMA_CH_RESET then
    { n with
      regChReset := if s.wrStrbQ.getLsbD 0 then s.wrDataQ.extractLsb' 0 4 else n.regChReset
      axilBrespR := 0 }
  else if regIndex s.wrAddrQ = REG_DMA_IRQ_ENABLE then
    { n with
      regIrqEnable := if s.wrStrbQ.getLsbD 0 then s.wrDataQ.extractLsb' 0 4 else n.regIrqEnable
      axilBrespR := 0 }
  else
    -- REG_DMA_IRQ_STATUS: the mask also removes the bits latched by this very edge
    { n with
      regIrqStatus :=
        if s.wrStrbQ.getLsbD 0 then
          (s.regIrqStatus ||| i.chIrqPulse) &&& ~~~ s.wrDataQ.extractLsb' 0 4
        else n.regIrqStatus
      axilBrespR := 0 }

def commitPhase (s : State) (i : Input) (n : State) : State :=
  if commits s then
    { writeRegister s i n with axilBvalidR := true, wrAddrSeen := false, wrDataSeen := false }
  else n

def bPhase (s : State) (i : Input) (n : State) : State :=
  if s.axilBvalidR && i.bready then { n with axilBvalidR := false } else n

def arPhase (s : State) (i : Input) (n : State) : State :=
  if !s.axilArreadyR && i.arvalid && !s.axilRvalidR then
    { n with rdAddrQ := i.araddr, axilArreadyR := true }
  else { n with axilArreadyR := false }

def readRegister (s : State) : Word :=
  if regIndex s.rdAddrQ = REG_DMA_CH_ENABLE then s.regChEnable.setWidth 32
  else if regIndex s.rdAddrQ = REG_DMA_CH_RESET then 0
  else if regIndex s.rdAddrQ = REG_DMA_IRQ_ENABLE then s.regIrqEnable.setWidth 32
  else s.regIrqStatus.setWidth 32

def rPhase (s : State) (i : Input) (n : State) : State :=
  let n :=
    if s.axilArreadyR && !s.axilRvalidR then
      { n with axilRdataR := readRegister s, axilRrespR := 0, axilRvalidR := true }
    else n
  if s.axilRvalidR && i.rready then { n with axilRvalidR := false } else n

def step (s : State) (i : Input) : State :=
  rPhase s i <| arPhase s i <| bPhase s i <| commitPhase s i <| wPhase s i <| awPhase s i <|
    latchPhase i s

/-! What one edge does to the write side. -/

theorem regIndex_eq_status {r : BitVec 2} (h0 : r ≠ REG_DMA_CH_ENABLE)
    (h1 : r ≠ REG_DMA_CH_RESET) (h2 : r ≠ REG_DMA_IRQ_ENABLE) : r = REG_DMA_IRQ_STATUS := by
  revert r
  decide

/-- The completion bits that a write committed by this edge clears. -/
def clearMask (s : State) : BitVec 4 :=
  if commits s ∧ regIndex s.wrAddrQ = REG_DMA_IRQ_STATUS ∧ s.wrStrbQ.getLsbD 0 then
    s.wrDataQ.extractLsb' 0 4
  else 0#4

theorem and_not_zero (x : BitVec 4) : x &&& ~~~ 0#4 = x := BitVec.and_allOnes

theorem writeRegister_status {s : State} (h : regIndex s.wrAddrQ = REG_DMA_IRQ_STATUS)
    (i : Input) (n : State) :
    (writeRegister s i n).regIrqStatus =
      if s.wrStrbQ.getLsbD 0 then
        (s.regIrqStatus ||| i.chIrqPulse) &&& ~~~ s.wrDataQ.extractLsb' 0 4
      else n.regIrqStatus := by
  rw [writeRegister, h, if_neg (by decide), if_neg (by decide), if_neg (by decide)]

theorem writeRegister_other {s : State} (h : regIndex s.wrAddrQ ≠ REG_DMA_IRQ_STATUS)
    (i : Input) (n : State) : (writeRegister s i n).regIrqStatus = n.regIrqStatus := by
  rw [writeRegister]
  by_cases h0 : regIndex s.wrAddrQ = REG_DMA_CH_ENABLE
  · rw [if_pos h0]
  · by_cases h1 : regIndex s.wrAddrQ = REG_DMA_CH_RESET
    · rw [if_neg h0, if_pos h1]
    · by_cases h2 : regIndex s.wrAddrQ = REG_DMA_IRQ_ENABLE
      · rw [if_neg h0, if_neg h1, if_pos h2]
      · exact absurd (regIndex_eq_status h0 h1 h2) h

theorem commitPhase_regIrqStatus {s n : State} {i : Input}
    (hn : n.regIrqStatus = s.regIrqStatus ||| i.chIrqPulse) :
    (commitPhase s i n).regIrqStatus = (s.regIrqStatus ||| i.chIrqPulse) &&& ~~~ clearMask s := by
  rw [commitPhase, clearMask]
  by_cases hc : commits s
  · by_cases hr : regIndex s.wrAddrQ = REG_DMA_IRQ_STATUS
    · by_cases hb : s.wrStrbQ.getLsbD 0
      · rw [if_pos hc, if_pos ⟨hc, hr, hb⟩]
        exact (writeRegister_status hr i n).trans (if_pos hb)
      · rw [if_pos hc, if_neg fun h => hb h.2.2, and_not_zero, ← hn]
        exact (writeRegister_status hr i n).trans (if_neg hb)
    · rw [if_pos hc, if_neg fun h => hr h.2.1, and_not_zero, ← hn]
      exact writeRegister_other hr i n
  · rw [if_neg hc, if_neg fun h => hc h.1, and_not_zero, hn]

/-- The pulses of an edge are latched before the committed write clears, so the write wins. -/
theorem step_regIrqStatus (s : State) (i : Input) :
    (step s i).regIrqStatus = (s.regIrqStatus ||| i.chIrqPulse) &&& ~~~ clearMask s := by
  simp only [step, rPhase, arPhase, bPhase, apply_ite State.regIrqStatus, ite_self]
  apply commitPhase_regIrqStatus
  simp only [wPhase, awPhase, latchPhase, apply_ite State.regIrqStatus, ite_self]

theorem step_wrAddrSeen (s : State) (i : Input) :
    (step s i).wrAddrSeen =
      if commits s then false else if takesAddr s i then true else s.wrAddrSeen := by
  simp only [step, rPhase, arPhase, bPhase, commitPhase, wPhase, awPhase, latchPhase,
    apply_ite State.wrAddrSeen, ite_self]

theorem step_wrDataSeen (s : State) (i : Input) :
    (step s i).wrDataSeen =
      if commits s then false else if takesData s i then true else s.wrDataSeen := by
  simp only [step, rPhase, arPhase, bPhase, commitPhase, wPhase, awPhase, latchPhase,
    apply_ite State.wrDataSeen, ite_self]

theorem writeRegister_write (s : State) (i : Input) (n : State) :
    (writeRegister s i n).wrAddrQ = n.wrAddrQ ∧ (writeRegister s i n).wrDataQ = n.wrDataQ ∧
      (writeRegister s i n).wrStrbQ = n.wrStrbQ := by
  rw [writeRegister]
  split_ifs <;> exact ⟨rfl, rfl, rfl⟩

theorem step_wrAddrQ (s : State) (i : Input) :
    (step s i).wrAddrQ = if takesAddr s i then i.awaddr else s.wrAddrQ := by
  simp only [step, rPhase, arPhase, bPhase, commitPhase, wPhase, awPhase, latchPhase,
    apply_ite State.wrAddrQ, ite_self, (writeRegister_write _ _ _).1]

theorem step_wrDataQ (s : State) (i : Input) :
    (step s i).wrDataQ = if takesData s i then i.wdata else s.wrDataQ := by
  simp only [step, rPhase, arPhase, bPhase, commitPhase, wPhase, awPhase, latchPhase,
    apply_ite State.wrDataQ, ite_self, (writeRegister_write _ _ _).2.1]

theorem step_wrStrbQ (s : State) (i : Input) :
    (step s i).wrStrbQ = if takesData s i then i.wstrb else s.wrStrbQ := by
  simp only [step, rPhase, arPhase, bPhase, commitPhase, wPhase, awPhase, latchPhase,
    apply_ite State.wrStrbQ, ite_self, (writeRegister_write _ _ _).2.2]

/-! Runs from reset. -/

section
variable (inp : Nat → Input)

def stateAt (n : Nat) : State := clocked (fun _ => step) reset inp n

def pulse (n : Nat) (ch : Fin 4) : Prop := (inp n).chIrqPulse.getLsbD ch = true

def irqStatus (n : Nat) (ch : Fin 4) : Prop := (stateAt inp n).regIrqStatus.getLsbD ch = true

instance (n : Nat) (ch : Fin 4) : Decidable (pulse inp n ch) :=
  inferInstanceAs (Decidable ((inp n).chIrqPulse.getLsbD ch = true))

instance (n : Nat) (ch : Fin 4) : Decidable (irqStatus inp n ch) :=
  inferInstanceAs (Decidable ((stateAt inp n).regIrqStatus.getLsbD ch = true))

/-- The write committed in cycle `n`: its address and its data were taken from the bus in
earlier cycles, and no other write was committed since. -/
def CommitsWrite (addr : BitVec 4 → Prop) (data : Word × BitVec 4 → Prop) (n : Nat) : Prop :=
  (stateAt inp n).axilBvalidR = false ∧
    (∃ k, Waiting (fun m => takesAddr (stateAt inp m) (inp m))
      (fun m => commits (stateAt inp m)) n k ∧ addr (inp k).awaddr) ∧
    ∃ k, Waiting (fun m => takesData (stateAt inp m) (inp m))
      (fun m => commits (stateAt inp m)) n k ∧ data ((inp k).wdata, (inp k).wstrb)

/-- Cycle `n` commits a write of one to completion bit `ch`. -/
def WritesOne (n : Nat) (ch : Fin 4) : Prop :=
  CommitsWrite inp (fun addr => regIndex addr = REG_DMA_IRQ_STATUS)
    (fun w => w.2.getLsbD 0 = true ∧ w.1.getLsbD ch = true) n

theorem holds_addr : Holds (fun n => (stateAt inp n).wrAddrSeen = true)
    (fun n => (stateAt inp n).wrAddrQ) (fun n => takesAddr (stateAt inp n) (inp n))
    (fun n => commits (stateAt inp n)) fun n => (inp n).awaddr where
  init := Bool.false_ne_true
  taken n ht := by
    have hseen : (stateAt inp n).wrAddrSeen = false := by
      simp only [takesAddr, Bool.and_eq_true] at ht
      simpa using ht.2
    have hnc : ¬ commits (stateAt inp n) := by simp [commits, hseen]
    refine ⟨by simp [hseen], ?_, ?_⟩
    · exact (step_wrAddrSeen _ _).trans ((if_neg hnc).trans (if_pos ht))
    · exact (step_wrAddrQ _ _).trans (if_pos ht)
  drained n _ hc hfull := by
    have hnot := (step_wrAddrSeen (stateAt inp n) (inp n)).trans (if_pos hc)
    exact Bool.false_ne_true (hnot.symm.trans hfull)
  kept n ht hc := by
    have hsame := (step_wrAddrSeen (stateAt inp n) (inp n)).trans ((if_neg hc).trans (if_neg ht))
    exact ⟨by rw [← hsame]; rfl, (step_wrAddrQ _ _).trans (if_neg ht)⟩

theorem holds_data : Holds (fun n => (stateAt inp n).wrDataSeen = true)
    (fun n => ((stateAt inp n).wrDataQ, (stateAt inp n).wrStrbQ))
    (fun n => takesData (stateAt inp n) (inp n)) (fun n => commits (stateAt inp n))
    fun n => ((inp n).wdata, (inp n).wstrb) where
  init := Bool.false_ne_true
  taken n ht := by
    have hseen : (stateAt inp n).wrDataSeen = false := by
      simp only [takesData, Bool.and_eq_true] at ht
      simpa using ht.2
    have hnc : ¬ commits (stateAt inp n) := by simp [commits, hseen]
    refine ⟨by simp [hseen], ?_, ?_⟩
    · exact (step_wrDataSeen _ _).trans ((if_neg hnc).trans (if_pos ht))
    · have hdata := (step_wrDataQ (stateAt inp n) (inp n)).trans (if_pos ht)
      have hstrb := (step_wrStrbQ (stateAt inp n) (inp n)).trans (if_pos ht)
      exact Prod.ext hdata hstrb
  drained n _ hc hfull := by
    have hnot := (step_wrDataSeen (stateAt inp n) (inp n)).trans (if_pos hc)
    exact Bool.false_ne_true (hnot.symm.trans hfull)
  kept n ht hc := by
    have hsame := (step_wrDataSeen (stateAt inp n) (inp n)).trans ((if_neg hc).trans (if_neg ht))
    have hdata := (step_wrDataQ (stateAt inp n) (inp n)).trans (if_neg ht)
    have hstrb := (step_wrStrbQ (stateAt inp n) (inp n)).trans (if_neg ht)
    exact ⟨by rw [← hsame]; rfl, Prod.ext hdata hstrb⟩

/-- What the registers say about the committed write is what the bus offered. -/
theorem commitsWrite_iff (addr : BitVec 4 → Prop) (data : Word × BitVec 4 → Prop) (n : Nat) :
    CommitsWrite inp addr data n ↔ commits (stateAt inp n) ∧ addr (stateAt inp n).wrAddrQ ∧
      data ((stateAt inp n).wrDataQ, (stateAt inp n).wrStrbQ) := by
  rw [CommitsWrite, ← (holds_addr inp).full_iff addr, ← (holds_data inp).full_iff data]
  simp only [commits, Bool.and_eq_true, Bool.not_eq_true']
  tauto

theorem clearMask_iff (s : State) (ch : Fin 4) :
    (clearMask s).getLsbD ch = true ↔ commits s ∧ regIndex s.wrAddrQ = REG_DMA_IRQ_STATUS ∧
      s.wrStrbQ.getLsbD 0 ∧ s.wrDataQ.getLsbD ch := by
  rw [clearMask]
  split_ifs with h
  · simp [h, ch.isLt]
  · simp only [BitVec.getLsbD_zero, Bool.false_eq_true, false_iff]
    exact fun hall => h ⟨hall.1, hall.2.1, hall.2.2.1⟩

theorem writesOne_iff (n : Nat) (ch : Fin 4) :
    WritesOne inp n ch ↔ (clearMask (stateAt inp n)).getLsbD ch = true := by
  rw [WritesOne, commitsWrite_iff, clearMask_iff]

/-- As built, the software clear beats the hardware set. -/
theorem clearWins : ClearWins (irqStatus inp) (pulse inp) (WritesOne inp) := by
  intro n ch
  have hstep : (stateAt inp (n + 1)).regIrqStatus = _ := step_regIrqStatus (stateAt inp n) (inp n)
  rw [writesOne_iff, irqStatus, hstep, irqStatus, pulse]
  simp [ch.isLt]

/-- The sticky completion bits follow the documented rule, hardware set over software clear,
exactly in the runs where no write of one to a bit is committed in a cycle with its pulse. -/
theorem sticky_irq_iff :
    SetWins (irqStatus inp) (pulse inp) (WritesOne inp) ↔
      ∀ n ch, pulse inp n ch → ¬ WritesOne inp n ch :=
  (clearWins inp).setWins_iff

end

/-- A completion of `tma_rx` in cycle 0, its acknowledge on the bus in cycles 1 and 2, the next
completion in cycle 2. -/
def acknowledgeMeetsCompletion (n : Nat) : Input where
  awaddr := 0xC
  awvalid := n = 1 ∨ n = 2
  wdata := 1
  wstrb := 0b1111
  wvalid := n = 1 ∨ n = 2
  bready := true
  araddr := 0
  arvalid := false
  rready := true
  chIrqPulse := if n = 0 ∨ n = 2 then 0b0001 else 0

theorem second_completion_lost :
    ¬ ∀ inp, SetWins (irqStatus inp) (pulse inp) (WritesOne inp) := by
  intro h
  have hset : pulse acknowledgeMeetsCompletion 2 0 := by decide
  have hlost : ¬ irqStatus acknowledgeMeetsCompletion 3 0 := by decide +kernel
  exact hlost ((h acknowledgeMeetsCompletion).shows 2 0 hset)

end TetraBs.Infra.AxiDma
