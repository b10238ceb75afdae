import TetraBs.Lmac.BlockEncoder
import TetraBs.Lmac.RcpcEncoder

/-! The standalone encoder against the stage of the integrated ones. The standalone module reads
the generators with the newest bit at the high end, the others with the oldest. -/
namespace TetraBs.Lmac
open TetraBs.Bits TetraBs.BitRegister TetraBs.ConvCode TetraBs.Run TetraBs.Serial

/-! Two code words over one bit string. -/

/-- On one bit the encoders agree exactly if the bits one and three places back do. -/
theorem emit_agree_iff (hist : List Bool) (b : Bool) :
    emit Rcpc.g1Taps Rcpc.g2Taps hist b = emit ConvStage.g1Taps ConvStage.g2Taps hist b ↔
      hist.getD 0 false = hist.getD 2 false := by
  simp only [emit, tapSum, Rcpc.g1Taps, Rcpc.g2Taps, ConvStage.g1Taps, ConvStage.g2Taps,
    List.foldr_cons, List.foldr_nil, List.getD_cons_zero, List.getD_cons_succ, Bool.xor_false]
  generalize hist.getD 0 false = h0
  generalize hist.getD 1 false = h1
  generalize hist.getD 2 false = h2
  generalize hist.getD 3 false = h3
  split
  · cases b <;> cases h0 <;> cases h1 <;> cases h2 <;> cases h3 <;> decide
  · cases b <;> cases h0 <;> cases h1 <;> cases h2 <;> cases h3 <;> decide

theorem emit_agree_zeros (n : Nat) (b : Bool) :
    emit Rcpc.g1Taps Rcpc.g2Taps (List.replicate n false) b =
      emit ConvStage.g1Taps ConvStage.g2Taps (List.replicate n false) b := by
  rw [emit_agree_iff]
  simp

/-- After a 1 that follows only zeros the next bit tells the encoders apart. -/
theorem encode_agree_iff (n : Nat) (bs : List Bool) :
    encode Rcpc.g1Taps Rcpc.g2Taps (List.replicate n false) bs =
        encode ConvStage.g1Taps ConvStage.g2Taps (List.replicate n false) bs ↔
      ∀ b ∈ bs.dropLast, b = false := by
  induction bs generalizing n with
  | nil => simp [encode]
  | cons b bs ih =>
    rw [encode_cons_eq_iff, and_iff_right (emit_agree_zeros n b)]
    cases bs with
    | nil => simp [encode]
    | cons c bs =>
      rw [List.dropLast_cons_cons, List.forall_mem_cons]
      cases b with
      | false => exact (ih (n + 1)).trans (and_iff_right rfl).symm
      | true =>
        rw [encode_cons_eq_iff, emit_agree_iff]
        have hthird : (true :: List.replicate n false).getD 2 false = false := by
          simp
        rw [hthird]
        simp

theorem zero_of_msbBits {m : Nat} (x : BitVec m) :
    (∀ b ∈ msbBits x m, b = false) ↔ x = 0#m := by
  constructor
  · intro h
    refine BitVec.eq_of_getLsbD_eq fun j hj => ?_
    have hmem : x.getLsbD j ∈ msbBits x m :=
      List.mem_map.2 ⟨m - 1 - j, List.mem_range.2 (by omega), congrArg _ (by omega)⟩
    rw [h _ hmem, BitVec.getLsbD_zero]
  · rintro rfl b hb
    obtain ⟨k, -, rfl⟩ := List.mem_map.1 hb
    exact BitVec.getLsbD_zero

theorem msbBits_succ {m : Nat} (x : BitVec m) (n : Nat) :
    msbBits x (n + 1) = (List.range n).map (fun i => x.getLsbD (n - i)) ++ [x.getLsbD 0] := by
  rw [msbBits, List.range_succ, List.map_append]
  simp

/-- The last tail bit is 0 anyway. -/
theorem typeTwo_dropLast {k : Nat} (pdu : BitVec k) (crc : BitVec 16) :
    (∀ b ∈ (msbBits (typeTwo pdu crc) (k + 16 + 4)).dropLast, b = false) ↔
      typeTwo pdu crc = 0 := by
  have hlast : (typeTwo pdu crc).getLsbD 0 = false := by
    rw [typeTwo, BitVec.getLsbD_append]
    rfl
  refine Iff.trans ?_ (zero_of_msbBits (typeTwo pdu crc))
  rw [msbBits_succ, List.dropLast_concat, List.forall_mem_append, hlast]
  simp

/-! `S_BUILD` is entered from `S_CRC`, with a counter of 0. -/

theorem SchEncoder.cnt_of_step_build (a : Nat) {k n : Nat} (s : SchEncoder k n) (i : SchInput k)
    (hb : (SchEncoder.step a s i).state = .build) : (SchEncoder.step a s i).cnt = 0 := by
  cases hs : s.state with
  | idle =>
    simp only [SchEncoder.step, hs] at hb
    split at hb <;> cases hb
  | crc =>
    simp only [SchEncoder.step, hs] at hb ⊢
    split
    · rfl
    · simp_all
  | build => simp [SchEncoder.step, hs] at hb
  | rcpc =>
    simp only [SchEncoder.step, hs] at hb
    split at hb <;> simp_all
  | scram =>
    simp only [SchEncoder.step, hs] at hb
    split at hb <;> simp_all
  | finish => simp [SchEncoder.step, hs] at hb

theorem Sb1Encoder.cnt_of_step_build (s : Sb1Encoder) (i : Sb1Input)
    (hb : (Sb1Encoder.step s i).state = .build) : (Sb1Encoder.step s i).cnt = 0 := by
  cases hs : s.state with
  | idle =>
    simp only [Sb1Encoder.step, hs] at hb
    split at hb <;> simp_all
  | crc =>
    simp only [Sb1Encoder.step, hs] at hb ⊢
    split
    · rfl
    · simp_all
  | build => simp [Sb1Encoder.step, hs] at hb
  | rcpc =>
    simp only [Sb1Encoder.step, hs] at hb
    split at hb <;> simp_all
  | finish => simp [Sb1Encoder.step, hs] at hb

theorem SchEncoder.cnt_build (a k n : Nat) (is : List (SchInput k))
    (hb : (exec (step a) (reset k n) is).state = .build) :
    (exec (step a) (reset k n) is).cnt = 0 := by
  have hreset : (reset k n).state = .build → (reset k n).cnt = 0 := fun _ => rfl
  exact exec_invariant (P := fun _ _ => True)
    (fun s : SchEncoder k n => s.state = .build → s.cnt = 0)
    (fun s i _ _ => cnt_of_step_build a s i) hreset (along_true _ _ _) hb

theorem Sb1Encoder.cnt_build (is : List Sb1Input) (hb : (exec step reset is).state = .build) :
    (exec step reset is).cnt = 0 := by
  have hreset : reset.state = .build → reset.cnt = 0 := fun _ => rfl
  exact exec_invariant (P := fun _ _ => True) (fun s : Sb1Encoder => s.state = .build → s.cnt = 0)
    (fun s i _ _ => cnt_of_step_build s i) hreset (along_true _ _ _) hb

/-! The standalone encoder on a given string. -/

/-- The inputs, from reset on, bring exactly `bits` into the shift register, at rate 2/3. -/
structure Rcpc.Enters (bits : List Bool) (js : List Rcpc.Input) : Prop where
  rate : ∀ j ∈ js, j.punctPattern = Rcpc.RATE_2_3
  bits : Rcpc.entered.outputs Rcpc.reset js = bits

/-- One strobe a cycle. -/
def Rcpc.strobes (bits : List Bool) : List Rcpc.Input :=
  bits.map fun b => ⟨b, true, Rcpc.RATE_2_3, false⟩

theorem Rcpc.enters_strobes (bits : List Bool) : Rcpc.Enters bits (Rcpc.strobes bits) where
  rate j hj := by
    obtain ⟨b, -, rfl⟩ := List.mem_map.1 hj
    rfl
  bits := by
    have hrun : ∀ s : Rcpc.State, s.flushActive = false →
        Rcpc.entered.outputs s (Rcpc.strobes bits) = bits := by
      induction bits with
      | nil => intro s _; rfl
      | cons b bs ih =>
        intro s hs
        have hnext : (Rcpc.step s ⟨b, true, Rcpc.RATE_2_3, false⟩).flushActive = false := by
          simp [Rcpc.step, hs]
        have hout : Rcpc.entered.out s ⟨b, true, Rcpc.RATE_2_3, false⟩ = [b] := by
          simp [Rcpc.entered, Rcpc.enableEnc, Rcpc.dataInEff, hs]
        rw [Rcpc.strobes, List.map_cons, Reader.outputs, hout, List.singleton_append]
        exact congrArg _ (ih _ hnext)
    exact hrun Rcpc.reset rfl

/-- Both code words of a type-2 string agree exactly if it is zero throughout. -/
theorem coded_eq_iff {k : Nat} (pdu : BitVec k) (crc : BitVec 16) {js : List Rcpc.Input}
    (hjs : Rcpc.Enters (msbBits (typeTwo pdu crc) (k + 16 + 4)) js) :
    Rcpc.coded.outputs Rcpc.reset js =
        encode ConvStage.g1Taps ConvStage.g2Taps [] (msbBits (typeTwo pdu crc) (k + 16 + 4)) ↔
      typeTwo pdu crc = 0 := by
  rw [Rcpc.coded_run Rcpc.tracks_reset js hjs.rate, hjs.bits]
  exact (encode_agree_iff 0 _).trans (typeTwo_dropLast pdu crc)

/-- From `S_BUILD` on, the RCPC stage leaves what the standalone encoder puts out for the same
type-2 string exactly if that string is zero. -/
theorem rcpc_encoders_agree_iff (js : List Rcpc.Input) :
    (∀ (s : SchEncoder 268 432) (i : SchInput 268) (is : List (SchInput 268)),
      s.state = .build → s.cnt = 0 → is.length = 288 →
      Rcpc.Enters (msbBits (typeTwo s.pdu s.crc) 288) js →
      (Rcpc.coded.outputs Rcpc.reset js = msbBits (exec schFStep s (i :: is)).conv.rcpc 432 ↔
        typeTwo s.pdu s.crc = 0)) ∧
    (∀ (s : SchEncoder 124 216) (i : SchInput 124) (is : List (SchInput 124)),
      s.state = .build → s.cnt = 0 → is.length = 144 →
      Rcpc.Enters (msbBits (typeTwo s.pdu s.crc) 144) js →
      (Rcpc.coded.outputs Rcpc.reset js = msbBits (exec schHdStep s (i :: is)).conv.rcpc 216 ↔
        typeTwo s.pdu s.crc = 0)) ∧
    (∀ (s : Sb1Encoder) (i : Sb1Input) (is : List Sb1Input),
      s.state = .build → s.cnt = 0 → is.length = 80 →
      Rcpc.Enters (msbBits (typeTwo s.pdu s.crc) 80) js →
      (Rcpc.coded.outputs Rcpc.reset js =
          msbBits (exec Sb1Encoder.step s (i :: is)).conv.rcpc 120 ↔
        typeTwo s.pdu s.crc = 0)) := by
  refine ⟨?_, ?_, ?_⟩
  · intro s i is hs hcnt hlen hjs
    rw [schFStep, SchEncoder.rcpc_word 103 hs hcnt (by decide) i hlen]
    exact coded_eq_iff s.pdu s.crc hjs
  · intro s i is hs hcnt hlen hjs
    rw [schHdStep, SchEncoder.rcpc_word 101 hs hcnt (by decide) i hlen]
    exact coded_eq_iff s.pdu s.crc hjs
  · intro s i is hs hcnt hlen hjs
    rw [Sb1Encoder.rcpc_word hs hcnt i hlen]
    exact coded_eq_iff s.pdu s.crc hjs

/-! Blocks of zeros, started from reset, at `S_BUILD`. -/

def zeroBlockF : SchEncoder 268 432 :=
  exec schFStep (SchEncoder.reset 268 432) (List.replicate 269 ⟨true, 0, 0⟩)

def zeroBlockHd : SchEncoder 124 216 :=
  exec schHdStep (SchEncoder.reset 124 216) (List.replicate 125 ⟨true, 0, 0⟩)

/-- No request. -/
def noRequest {k : Nat} : SchInput k := ⟨false, 0, 0⟩

def syncStart : Sb1Input := ⟨0, 0, 0, 0, false, false, 0, 0, 0, 0, false, true, 0, 0, 0⟩

def zeroSync : Sb1Encoder :=
  exec Sb1Encoder.step Sb1Encoder.reset (List.replicate 61 syncStart)

theorem zeroBlockF_build : zeroBlockF.state = .build := by decide +kernel
theorem zeroBlockHd_build : zeroBlockHd.state = .build := by decide +kernel
theorem zeroSync_build : zeroSync.state = .build := by decide +kernel

theorem zeroBlockF_cnt : zeroBlockF.cnt = 0 :=
  SchEncoder.cnt_build 103 268 432 _ zeroBlockF_build

theorem zeroBlockHd_cnt : zeroBlockHd.cnt = 0 :=
  SchEncoder.cnt_build 101 124 216 _ zeroBlockHd_build

theorem zeroSync_cnt : zeroSync.cnt = 0 := Sb1Encoder.cnt_build _ zeroSync_build

/-- The bits both encoders are given. -/
abbrev blockBits {k : Nat} (pdu : BitVec k) (crc : BitVec 16) : List Bool :=
  msbBits (typeTwo pdu crc) (k + 16 + 4)

theorem rcpc_encoders_agree_iff_zeros :
    (Rcpc.coded.outputs Rcpc.reset (Rcpc.strobes (blockBits zeroBlockF.pdu zeroBlockF.crc)) =
        msbBits
          (exec schFStep zeroBlockF (noRequest :: List.replicate 288 noRequest)).conv.rcpc 432 ↔
      typeTwo zeroBlockF.pdu zeroBlockF.crc = 0) ∧
    (Rcpc.coded.outputs Rcpc.reset (Rcpc.strobes (blockBits zeroBlockHd.pdu zeroBlockHd.crc)) =
        msbBits
          (exec schHdStep zeroBlockHd (noRequest :: List.replicate 144 noRequest)).conv.rcpc 216 ↔
      typeTwo zeroBlockHd.pdu zeroBlockHd.crc = 0) ∧
    (Rcpc.coded.outputs Rcpc.reset (Rcpc.strobes (blockBits zeroSync.pdu zeroSync.crc)) =
        msbBits
          (exec Sb1Encoder.step zeroSync (syncStart :: List.replicate 80 syncStart)).conv.rcpc 120 ↔
      typeTwo zeroSync.pdu zeroSync.crc = 0) := by
  refine ⟨?_, ?_, ?_⟩
  · exact (rcpc_encoders_agree_iff _).1 zeroBlockF noRequest (List.replicate 288 noRequest)
      zeroBlockF_build zeroBlockF_cnt (List.length_replicate) (Rcpc.enters_strobes _)
  · exact (rcpc_encoders_agree_iff _).2.1 zeroBlockHd noRequest (List.replicate 144 noRequest)
      zeroBlockHd_build zeroBlockHd_cnt (List.length_replicate) (Rcpc.enters_strobes _)
  · exact (rcpc_encoders_agree_iff _).2.2 zeroSync syncStart (List.replicate 80 syncStart)
      zeroSync_build zeroSync_cnt (List.length_replicate) (Rcpc.enters_strobes _)

/-- The encoders disagree on every one of the three. -/
theorem rcpc_encoders_differ :
    Rcpc.coded.outputs Rcpc.reset (Rcpc.strobes (blockBits zeroBlockF.pdu zeroBlockF.crc)) ≠
        msbBits
          (exec schFStep zeroBlockF (noRequest :: List.replicate 288 noRequest)).conv.rcpc 432 ∧
    Rcpc.coded.outputs Rcpc.reset (Rcpc.strobes (blockBits zeroBlockHd.pdu zeroBlockHd.crc)) ≠
        msbBits
          (exec schHdStep zeroBlockHd (noRequest :: List.replicate 144 noRequest)).conv.rcpc 216 ∧
    Rcpc.coded.outputs Rcpc.reset (Rcpc.strobes (blockBits zeroSync.pdu zeroSync.crc)) ≠
        msbBits
          (exec Sb1Encoder.step zeroSync (syncStart :: List.replicate 80 syncStart)).conv.rcpc 120 := by
  refine ⟨?_, ?_, ?_⟩
  · decide +kernel
  · decide +kernel
  · decide +kernel

end TetraBs.Lmac
