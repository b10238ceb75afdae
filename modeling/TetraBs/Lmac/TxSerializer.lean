import TetraBs.Lmac.RcpcEncoder
import Mathlib.Data.List.Chain

/-! The transmit path of `tetra_lmac` between the encoder and the interleaver: the puncture
serializer. One step is one rising clock edge. -/
namespace TetraBs.Lmac.TxSerializer
open TetraBs.Lmac.Rcpc TetraBs.Run TetraBs.Serial TetraBs.ConvCode

structure State where
  enc : Rcpc.State
  txSerPending : Bool
  txSerBit : Bool

def reset : State := ⟨Rcpc.reset, false, false⟩

def txSerOut (s : State) : Bool :=
  if s.txSerPending then s.txSerBit else s.enc.punctOutBits.getLsbD 0

def txSerValid (s : State) : Bool := s.txSerPending || s.enc.punctValid

/-- Two bits are there and the buffer is free. -/
def buffers (s : State) : Bool := !s.txSerPending && (s.enc.punctValid && !s.enc.punctOutCnt)

def step (s : State) (i : Input) : State where
  enc := Rcpc.step s.enc i
  txSerPending := buffers s
  txSerBit := if buffers s then s.enc.punctOutBits.getLsbD 1 else s.txSerBit

/-- The bits that enter the interleaver. -/
def interleaverIn : Reader State Input Bool :=
  ⟨step, fun s _ => if txSerValid s then [txSerOut s] else []⟩

/-! What the registers hold, and when an edge loses some of it. -/

def held (s : State) : List Bool := if s.txSerPending then [s.txSerBit] else []

def owed (s : State) : List Bool := held s ++ punctured s.enc

/-- The buffer is full when new bits arrive. -/
def Collides (s : State) : Prop := s.txSerPending = true ∧ s.enc.punctValid = true

theorem step_exact {s : State} (h : ¬ Collides s) (i : Input) :
    interleaverIn.out s i ++ owed (step s i) = owed s ++ coded.out s.enc i := by
  have hheld : interleaverIn.out s i ++ held (step s i) = owed s := by
    cases hp : s.txSerPending with
    | true =>
      have hv : s.enc.punctValid = false := by simpa [Collides, hp] using h
      simp [interleaverIn, txSerValid, txSerOut, owed, held, punctured, step, buffers, hp, hv]
    | false =>
      cases hv : s.enc.punctValid with
      | false => simp [interleaverIn, txSerValid, owed, held, punctured, step, buffers, hp, hv]
      | true =>
        cases hc : s.enc.punctOutCnt <;>
          simp [interleaverIn, txSerValid, txSerOut, owed, held, punctured, step, buffers, hp, hv,
            hc]
  rw [owed, ← List.append_assoc, hheld]
  rfl

theorem step_loss {s : State} (h : Collides s) (i : Input) :
    (interleaverIn.out s i ++ owed (step s i)).length < (owed s ++ coded.out s.enc i).length := by
  obtain ⟨hp, hv⟩ := h
  have hnext : owed (step s i) = coded.out s.enc i := by
    simp [owed, held, step, buffers, hp, coded]
  have hout : (interleaverIn.out s i).length < (owed s).length := by
    cases hc : s.enc.punctOutCnt <;>
      simp [interleaverIn, txSerValid, owed, held, punctured, hp, hv, hc]
  rw [hnext, List.length_append, List.length_append]
  exact Nat.add_lt_add_right hout _

theorem after_exec (s : State) (is : List Input) :
    interleaverIn.after s is = exec step s is :=
  interleaverIn.after_eq_exec s is

theorem enc_exec (s : State) (is : List Input) :
    (exec step s is).enc = exec Rcpc.step s.enc is := by
  induction is generalizing s with
  | nil => rfl
  | cons i is ih => exact ih (step s i)

theorem coded_after (s : State) (is : List Input) :
    coded.after s.enc is = (exec step s is).enc := by
  rw [enc_exec]
  exact coded.after_eq_exec s.enc is

/-- No edge makes bits. -/
theorem length_le (s : State) (is : List Input) :
    (interleaverIn.outputs s is ++ owed (exec step s is)).length ≤
      (owed s ++ coded.outputs s.enc is).length := by
  induction is generalizing s with
  | nil => simp [Reader.outputs, exec]
  | cons i is ih =>
    have hstep : (interleaverIn.out s i ++ owed (step s i)).length ≤
        (owed s ++ coded.out s.enc i).length := by
      by_cases h : Collides s
      · exact Nat.le_of_lt (step_loss h i)
      · exact Nat.le_of_eq (congrArg _ (step_exact h i))
    have hrest := ih (step s i)
    have hself : interleaverIn.next s i = step s i := rfl
    have henc : coded.next s.enc i = (step s i).enc := rfl
    simp only [Reader.outputs, exec, hself, henc, List.length_append] at hstep hrest ⊢
    omega

/-- A collision on the way costs a bit. -/
theorem length_lt {s : State} {pre : List Input} (i : Input) (post : List Input)
    (h : Collides (exec step s pre)) :
    (interleaverIn.outputs s (pre ++ i :: post)).length <
      (owed s ++ coded.outputs s.enc (pre ++ i :: post)).length := by
  have hpre := length_le s pre
  have hloss := step_loss h i
  have hpost := length_le (step (exec step s pre) i) post
  have hself : interleaverIn.next (exec step s pre) i = step (exec step s pre) i := rfl
  have henc : coded.next (exec step s pre).enc i = (step (exec step s pre) i).enc := rfl
  simp only [Reader.outputs_append, Reader.outputs, after_exec, coded_after, hself, henc,
    List.length_append] at hpre hloss hpost ⊢
  omega

/-! The tail bits come one a cycle, and one of the first three collides. -/

/-- `done` tail bits went in and this edge takes one more. -/
structure Flushing (s : State) (done : BitVec 2) : Prop where
  active : s.enc.flushActive = true
  count : s.enc.flushCnt = done

variable {s : State} {i : Input} {done : BitVec 2}

theorem Flushing.enabled (h : Flushing s done) (i : Input) : enableEnc s.enc i = true := by
  rw [enableEnc, h.active, Bool.or_true]

theorem Flushing.valid (h : Flushing s done) (hrate : i.punctPattern = RATE_2_3) :
    (step s i).enc.punctValid = true ∧ (step s i).enc.punctOutCnt = s.enc.bitPhase ∧
      (step s i).enc.bitPhase = !s.enc.bitPhase := by
  simp [step, Rcpc.step, h.enabled i, hrate]

theorem Flushing.next (h : Flushing s done) (hlast : done ≠ TAIL_LAST) (i : Input) :
    Flushing (step s i) (done + 1) where
  active := by simp [step, Rcpc.step, h.active, h.count, hlast]
  count := by simp [step, Rcpc.step, h.active, h.count]

/-- A tail bit at an even place collides with the one after it. -/
theorem Flushing.even_collides (h : Flushing s done) (hlast : done ≠ TAIL_LAST)
    (heven : s.enc.bitPhase = false) {i j : Input} (hi : i.punctPattern = RATE_2_3)
    (hj : j.punctPattern = RATE_2_3) (hfree : (step s i).txSerPending = false) :
    Collides (step (step s i) j) := by
  obtain ⟨hvalid, hcnt, -⟩ := h.valid hi
  have hnext := (h.next hlast i).valid hj
  refine ⟨?_, hnext.1⟩
  have hbuffers : buffers (step s i) = true := by
    rw [buffers, hfree, hvalid, hcnt, heven]
    rfl
  exact hbuffers

/-- Four edges from the start of the tail. -/
theorem Flushing.collides (h : Flushing s 0) {a b c : Input} (d : Input)
    (ha : a.punctPattern = RATE_2_3) (hb : b.punctPattern = RATE_2_3)
    (hc : c.punctPattern = RATE_2_3) :
    ∃ pre i post, [a, b, c, d] = pre ++ i :: post ∧ Collides (exec step s pre) := by
  obtain ⟨hvalid, hcnt, hphase⟩ := h.valid ha
  cases hp : s.enc.bitPhase with
  | false =>
    cases hpend : (step s a).txSerPending with
    | true => exact ⟨[a], b, [c, d], rfl, hpend, hvalid⟩
    | false => exact ⟨[a, b], c, [d], rfl, h.even_collides (by decide) hp ha hb hpend⟩
  | true =>
    -- the odd bit is alone, so the buffer is free at the even one that follows
    have heven : (step s a).enc.bitPhase = false := by rw [hphase, hp]; rfl
    have hfree : (step (step s a) b).txSerPending = false := by
      have hbuffers : buffers (step s a) = false := by
        rw [buffers, hcnt, hp, Bool.not_true, Bool.and_false, Bool.and_false]
      exact hbuffers
    have hcoll := (h.next (by decide) a).even_collides (by decide) heven hb hc hfree
    exact ⟨[a, b, c], d, [], rfl, hcoll⟩

/-! A block and its tail. -/

/-- Strobes at least two cycles apart, a flush pulse, and then nothing more, all at rate 2/3. -/
structure Transmission (data : List Input) (pulse : Input) (idle : List Input) : Prop where
  rate : ∀ i ∈ data ++ pulse :: idle, i.punctPattern = RATE_2_3
  spaced : data.IsChain fun i j => ¬ (i.dataValid = true ∧ j.dataValid = true)
  data : ∀ i ∈ data, i.flush = false
  pulse : pulse.flush = true ∧ pulse.dataValid = false
  idle : ∀ i ∈ idle, i.flush = false ∧ i.dataValid = false

def dataBits (data : List Input) : List Bool := (data.filter (·.dataValid)).map (·.dataIn)

/-- The punctured bits of the data and of four tail bits. -/
def puncturedBlock (data : List Input) : List Bool :=
  encode g1Taps g2Taps [] (dataBits data ++ List.replicate 4 false)

theorem entered_data {e : Rcpc.State} (he : e.flushActive = false) {data : List Input}
    (hdata : ∀ i ∈ data, i.flush = false) :
    entered.outputs e data = dataBits data ∧ (entered.after e data).flushActive = false := by
  induction data generalizing e with
  | nil => exact ⟨rfl, he⟩
  | cons i is ih =>
    have hflush := hdata i List.mem_cons_self
    have hnext : (Rcpc.step e i).flushActive = false := by simp [Rcpc.step, he, hflush]
    have hout : entered.out e i = if i.dataValid then [i.dataIn] else [] := by
      simp [entered, enableEnc, dataInEff, he]
    obtain ⟨hrest, hafter⟩ := ih hnext fun j hj => hdata j (List.mem_cons_of_mem i hj)
    refine ⟨?_, hafter⟩
    have hself : entered.next e i = Rcpc.step e i := rfl
    rw [Reader.outputs, hout, hself, hrest]
    cases hv : i.dataValid <;> simp [dataBits, hv]

theorem entered_idle {e : Rcpc.State} (he : e.flushActive = false) {idle : List Input}
    (hidle : ∀ i ∈ idle, i.flush = false ∧ i.dataValid = false) :
    entered.outputs e idle = [] := by
  rw [(entered_data he fun i hi => (hidle i hi).1).1, dataBits,
    List.filter_eq_nil_iff.2 fun i hi => by rw [(hidle i hi).2]; exact Bool.false_ne_true]
  rfl

theorem entered_length (e : Rcpc.State) (is : List Input) :
    (entered.outputs e is).length ≤ is.length := by
  induction is generalizing e with
  | nil => exact Nat.le_refl 0
  | cons i is ih =>
    have hout : (entered.out e i).length ≤ 1 := by
      cases he : enableEnc e i <;> simp [entered, he]
    have hrest := ih (entered.next e i)
    rw [Reader.outputs, List.length_append, List.length_cons]
    omega

theorem count_succ {done : BitVec 2} (h : done ≠ TAIL_LAST) :
    (done + 1).toNat = done.toNat + 1 := by
  revert done
  decide

/-- The tail has no more than its four bits. -/
theorem Flushing.tail_length {s : State} {done : BitVec 2} (h : Flushing s done)
    {idle : List Input} (hidle : ∀ i ∈ idle, i.flush = false ∧ i.dataValid = false) :
    (entered.outputs s.enc idle).length ≤ 4 - done.toNat := by
  induction idle generalizing s done with
  | nil => exact Nat.zero_le _
  | cons i is ih =>
    have hrest := fun j hj => hidle j (List.mem_cons_of_mem i hj)
    have hout : (entered.out s.enc i).length = 1 := by simp [entered, h.enabled i]
    rw [Reader.outputs, List.length_append, hout]
    by_cases hlast : done = TAIL_LAST
    · have hend : (entered.next s.enc i).flushActive = false := by
        simp [entered, Rcpc.step, h.active, h.count, hlast]
      rw [entered_idle hend hrest, hlast]
      decide
    · have htail := ih (h.next hlast i) hrest
      have hnext := count_succ hlast
      have hlt : done.toNat < 4 := done.isLt
      have hself : entered.next s.enc i = (step s i).enc := rfl
      rw [hnext] at htail
      rw [hself]
      omega

/-- The registers after an edge of the data: new bits come from the input just taken. -/
structure Taken (s : State) (i : Input) : Prop where
  quiet : s.enc.flushActive = false
  valid : s.enc.punctValid = i.dataValid
  free : ¬ Collides s

theorem taken_reset : Taken reset ⟨false, false, RATE_2_3, false⟩ :=
  ⟨rfl, rfl, fun h => Bool.false_ne_true h.1⟩

theorem Taken.step {s : State} {i j : Input} (h : Taken s i)
    (hspaced : ¬ (i.dataValid = true ∧ j.dataValid = true)) (hrate : j.punctPattern = RATE_2_3)
    (hflush : j.flush = false) : Taken (step s j) j where
  quiet := by simp [TxSerializer.step, Rcpc.step, h.quiet, hflush]
  valid := by simp [TxSerializer.step, Rcpc.step, enableEnc, h.quiet, hrate]
  free := by
    rintro ⟨hpending, hvalid⟩
    have hi : i.dataValid = true := by
      rw [← h.valid]
      simp only [TxSerializer.step, buffers, Bool.and_eq_true] at hpending
      exact hpending.2.1
    have hj : j.dataValid = true := by
      simpa [TxSerializer.step, Rcpc.step, enableEnc, h.quiet, hrate] using hvalid
    exact hspaced ⟨hi, hj⟩

theorem Taken.exact {s : State} {i : Input} (h : Taken s i) {data : List Input}
    (hspaced : (i :: data).IsChain fun i j => ¬ (i.dataValid = true ∧ j.dataValid = true))
    (hrate : ∀ j ∈ data, j.punctPattern = RATE_2_3) (hflush : ∀ j ∈ data, j.flush = false) :
    interleaverIn.outputs s data ++ owed (exec TxSerializer.step s data) =
      owed s ++ coded.outputs s.enc data := by
  induction data generalizing s i with
  | nil => simp [Reader.outputs, exec]
  | cons j js ih =>
    obtain ⟨hij, hjs⟩ := List.isChain_cons_cons.1 hspaced
    have hnext := h.step hij (hrate j List.mem_cons_self) (hflush j List.mem_cons_self)
    have hrest := ih hnext hjs (fun k hk => hrate k (List.mem_cons_of_mem j hk))
      fun k hk => hflush k (List.mem_cons_of_mem j hk)
    have hself : interleaverIn.next s j = TxSerializer.step s j := rfl
    have henc : coded.next s.enc j = (TxSerializer.step s j).enc := rfl
    rw [Reader.outputs, Reader.outputs, exec, List.append_assoc, hself, henc, hrest,
      ← List.append_assoc, step_exact h.free, List.append_assoc]

section
variable {data : List Input} {pulse : Input} {idle : List Input}

theorem Transmission.data_enc (h : Transmission data pulse idle) :
    (exec Rcpc.step Rcpc.reset data).flushActive = false := by
  have hafter := (entered_data (e := Rcpc.reset) rfl h.data).2
  rwa [entered.after_eq_exec] at hafter

theorem Transmission.flushing (h : Transmission data pulse idle) :
    Flushing (exec step reset (data ++ [pulse])) 0 := by
  have hactive := h.data_enc
  rw [exec_snoc]
  have henc : (exec step reset data).enc = exec Rcpc.step Rcpc.reset data := enc_exec reset data
  constructor
  · simp [step, Rcpc.step, henc, hactive, h.pulse.1, h.pulse.2]
  · simp [step, Rcpc.step, henc, hactive]

/-- The bits that went in by the end: the data, and at most four tail bits. -/
theorem Transmission.tail (h : Transmission data pulse idle) :
    ∃ tail, entered.outputs Rcpc.reset (data ++ pulse :: idle) = dataBits data ++ tail ∧
      tail.length ≤ idle.length ∧ tail.length ≤ 4 := by
  have hpulse : entered.out (exec Rcpc.step Rcpc.reset data) pulse = [] := by
    simp [entered, enableEnc, h.data_enc, h.pulse.2]
  have hflushing := h.flushing
  have hflush : (exec step reset (data ++ [pulse])).enc =
      Rcpc.step (exec Rcpc.step Rcpc.reset data) pulse := by
    rw [enc_exec, exec_snoc]
    rfl
  refine ⟨entered.outputs (exec step reset (data ++ [pulse])).enc idle, ?_, ?_,
    hflushing.tail_length h.idle⟩
  · rw [Reader.outputs_append, (entered_data rfl h.data).1, entered.after_eq_exec, Reader.outputs]
    exact congrArg (dataBits data ++ ·) (by rw [hflush]; exact congrArg (· ++ _) hpulse)
  · exact entered_length _ idle

/-- Up to the pulse nothing is lost: what has entered and what the registers hold make up the
punctured bits of the data. -/
theorem Transmission.data_exact (h : Transmission data pulse idle) :
    interleaverIn.outputs reset data ++ owed (exec step reset data) =
      encode g1Taps g2Taps [] (dataBits data) := by
  have hrate := fun i hi => h.rate i (List.mem_append_left _ hi)
  have hchain : (⟨false, false, RATE_2_3, false⟩ :: data).IsChain fun i j : Input =>
      ¬ (i.dataValid = true ∧ j.dataValid = true) := by
    refine List.isChain_cons.2 ⟨fun j _ hij => ?_, h.spaced⟩
    exact Bool.false_ne_true hij.1
  rw [taken_reset.exact hchain hrate h.data]
  have henc : reset.enc = Rcpc.reset := rfl
  rw [henc, coded_run tracks_reset data hrate, (entered_data rfl h.data).1]
  rfl

theorem Transmission.coded (h : Transmission data pulse idle) :
    (Rcpc.coded.outputs Rcpc.reset (data ++ pulse :: idle)).length ≤
      (puncturedBlock data).length ∧
    (idle.length < 4 → (Rcpc.coded.outputs Rcpc.reset (data ++ pulse :: idle)).length <
      (puncturedBlock data).length) := by
  obtain ⟨tail, hentered, hshort, hfour⟩ := h.tail
  rw [coded_run tracks_reset _ h.rate, hentered, puncturedBlock, encode_length, encode_length]
  simp only [List.length_append, List.length_replicate, List.length_nil]
  omega

/-- Four edges after the pulse a bit is lost. -/
theorem Transmission.collides (h : Transmission data pulse idle) (hidle : 4 ≤ idle.length) :
    ∃ pre i post, data ++ pulse :: idle = pre ++ i :: post ∧ Collides (exec step reset pre) := by
  obtain ⟨a, b, c, d, rest, rfl⟩ : ∃ a b c d rest, idle = a :: b :: c :: d :: rest := by
    match idle, hidle with
    | a :: b :: c :: d :: rest, _ => exact ⟨a, b, c, d, rest, rfl⟩
  have hrate : ∀ i ∈ [a, b, c, d], i.punctPattern = RATE_2_3 := fun i hi =>
    h.rate i (List.mem_append_right _ (List.mem_cons_of_mem _
      (List.mem_append_left rest hi : i ∈ [a, b, c, d] ++ rest)))
  obtain ⟨pre, i, post, hsplit, hcoll⟩ := h.flushing.collides d (hrate a (by simp))
    (hrate b (by simp)) (hrate c (by simp))
  refine ⟨data ++ [pulse] ++ pre, i, post ++ rest, ?_, ?_⟩
  · have hidle : a :: b :: c :: d :: rest = pre ++ i :: (post ++ rest) := by
      have := congrArg (· ++ rest) hsplit
      simpa using this
    rw [hidle]
    simp
  · rwa [exec_append]

/-- The interleaver never gets the punctured block: the tail always loses a bit. -/
theorem interleaver_input_ne (h : Transmission data pulse idle) :
    interleaverIn.outputs reset (data ++ pulse :: idle) ≠ puncturedBlock data := by
  refine fun heq => absurd (congrArg List.length heq) (Nat.ne_of_lt ?_)
  obtain ⟨hle, hlt⟩ := h.coded
  have howed : owed reset = [] := rfl
  have henc : reset.enc = Rcpc.reset := rfl
  by_cases hidle : idle.length < 4
  · -- the tail is not through yet
    have hbound := length_le reset (data ++ pulse :: idle)
    rw [howed, henc, List.nil_append, List.length_append] at hbound
    have := hlt hidle
    omega
  · obtain ⟨pre, i, post, hsplit, hcoll⟩ := h.collides (Nat.le_of_not_lt hidle)
    have hloss := length_lt i post hcoll
    rw [← hsplit, howed, henc, List.nil_append] at hloss
    exact Nat.lt_of_lt_of_le hloss hle

end

/-! Two strobes, two cycles apart, and room for the whole tail. -/

def strobe : Input := ⟨true, true, RATE_2_3, false⟩
def gap : Input := ⟨false, false, RATE_2_3, false⟩
def flushPulse : Input := ⟨false, false, RATE_2_3, true⟩

theorem twoStrobes :
    Transmission [strobe, gap, strobe] flushPulse (List.replicate 8 gap) where
  rate := by decide
  spaced := by decide
  data := by decide
  pulse := by decide
  idle := by decide

theorem interleaver_input_ne_twoStrobes :
    interleaverIn.outputs reset ([strobe, gap, strobe] ++ flushPulse :: List.replicate 8 gap) ≠
      puncturedBlock [strobe, gap, strobe] :=
  interleaver_input_ne twoStrobes

/-- Both odd tail bits are missing: seven bits for nine. -/
theorem tail_bits_lost :
    Transmission [strobe, gap, strobe] flushPulse (List.replicate 8 gap) ∧
      interleaverIn.outputs reset ([strobe, gap, strobe] ++ flushPulse :: List.replicate 8 gap) =
        [true, true, true, false, false, false, true] ∧
      puncturedBlock [strobe, gap, strobe] =
        [true, true, true, false, false, true, false, true, true] ∧
      interleaverIn.outputs reset ([strobe, gap, strobe] ++ flushPulse :: List.replicate 8 gap) ≠
        puncturedBlock [strobe, gap, strobe] := by
  refine ⟨twoStrobes, ?_, ?_, ?_⟩
  · decide +kernel
  · decide +kernel
  · decide +kernel

end TetraBs.Lmac.TxSerializer
