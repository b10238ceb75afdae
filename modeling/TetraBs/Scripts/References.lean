import TetraBs.Lmac.BlockReference
import TetraBs.Umac.MacResourceBlocks

/-! The reference models of the test benches, `scripts/ref_sch_f_encode.py` and
`scripts/ref_mac_resource_dl.py`, against the modules they stand for. -/
namespace TetraBs.References
open TetraBs.Bits TetraBs.BitReader TetraBs.Lmac TetraBs.MacResourceDl TetraBs.Run

/-! `ref_sch_f_encode.py`. -/

/-- `crc16_ccitt`. -/
def crc16Ccitt (bits : List Bool) : List Bool :=
  let crc := bits.foldl
    (fun (crc : BitVec 16) b => (crc <<< 1) ^^^ (if b ^^ crc.getLsbD 15 then 0x1021 else 0)) 0xFFFF
  msbBits (~~~crc) 16

/-- The registers of `rcpc_r23`. -/
structure Rcpc where
  out : List Bool
  sr0 : Bool
  sr1 : Bool
  sr2 : Bool
  sr3 : Bool
  bitPhase : Bool

def Rcpc.push (r : Rcpc) (din : Bool) : Rcpc :=
  let g1 := r.sr3 ^^ r.sr0 ^^ din
  let g2 := r.sr3 ^^ r.sr2 ^^ r.sr1 ^^ din
  { out := r.out ++ if r.bitPhase then [g1] else [g1, g2]
    sr0 := din, sr1 := r.sr0, sr2 := r.sr1, sr3 := r.sr2
    bitPhase := !r.bitPhase }

/-- `rcpc_r23`. -/
def rcpcR23 (t3Bits : List Bool) : List Bool :=
  (t3Bits.foldl Rcpc.push ⟨[], false, false, false, false, false⟩).out

/-- `interleave_a103`. -/
def interleaveA103 (rcpc : List Bool) : List Bool :=
  let a := 103
  let n := 432
  (List.range' 1 n).foldl
    (fun out k =>
      let j := 1 + (a * k) % n
      out.set (j - 1) (rcpc.getD (k - 1) false))
    (List.replicate n false)

/-- `scramble`. -/
def scramble : List Bool → BitVec 32 → List Bool
  | [], _ => []
  | b :: bits, lfsr =>
    let taps := [0, 6, 9, 10, 16, 20, 21, 22, 24, 25, 27, 28, 30, 31]
    let fb := taps.foldl (fun fb t => fb ^^ lfsr.getLsbD t) false
    (b ^^ fb) :: scramble bits ((BitVec.ofBool fb).setWidth 32 <<< 31 ||| lfsr >>> 1)

/-- `sch_f_encode`. -/
def schFEncode (infoBits : List Bool) (scrambleInit : BitVec 32) : List Bool :=
  let t3 := infoBits ++ crc16Ccitt infoBits ++ [false, false, false, false]
  scramble (interleaveA103 (rcpcR23 t3)) scrambleInit

theorem crc16Ccitt_eq (bits : List Bool) : bits ++ crc16Ccitt bits = Crc16.checked bits := rfl

/-- The register holds the newest four of the bits that went in. -/
structure Rcpc.Holds (r : Rcpc) (hist : List Bool) : Prop where
  sr0 : r.sr0 = hist.getD 0 false
  sr1 : r.sr1 = hist.getD 1 false
  sr2 : r.sr2 = hist.getD 2 false
  sr3 : r.sr3 = hist.getD 3 false
  phase : r.bitPhase = decide (hist.length % 2 = 1)

theorem Rcpc.Holds.push {r : Rcpc} {hist : List Bool} (h : r.Holds hist) (b : Bool) :
    (r.push b).Holds (b :: hist) ∧
      (r.push b).out = r.out ++ ConvCode.emit ConvStage.g1Taps ConvStage.g2Taps hist b := by
  refine ⟨⟨rfl, h.sr0, h.sr1, h.sr2, ?_⟩, ?_⟩
  · show (!r.bitPhase) = _
    rw [h.phase, List.length_cons, ← decide_not]
    exact decide_eq_decide.2 (by omega)
  · have hg1 : (r.sr3 ^^ r.sr0 ^^ b) = ConvCode.tapSum ConvStage.g1Taps (b :: hist) := by
      simp [ConvCode.tapSum, ConvStage.g1Taps, h.sr0, h.sr3]
      cases hist[0]?.getD false <;> cases hist[3]?.getD false <;> cases b <;> rfl
    have hg2 : (r.sr3 ^^ r.sr2 ^^ r.sr1 ^^ b) =
        ConvCode.tapSum ConvStage.g2Taps (b :: hist) := by
      simp [ConvCode.tapSum, ConvStage.g2Taps, h.sr1, h.sr2, h.sr3]
      cases hist[1]?.getD false <;> cases hist[2]?.getD false <;>
        cases hist[3]?.getD false <;> cases b <;> rfl
    show r.out ++ (if r.bitPhase then [r.sr3 ^^ r.sr0 ^^ b]
      else [r.sr3 ^^ r.sr0 ^^ b, r.sr3 ^^ r.sr2 ^^ r.sr1 ^^ b]) = _
    rw [ConvCode.emit, hg1, hg2, h.phase]
    by_cases heven : hist.length % 2 = 0
    · rw [if_pos heven, if_neg (by rw [decide_eq_true_eq]; omega)]
    · rw [if_neg heven, if_pos (by rw [decide_eq_true_eq]; omega)]

theorem foldl_push {r : Rcpc} {hist : List Bool} (h : r.Holds hist) (bits : List Bool) :
    (bits.foldl Rcpc.push r).out =
      r.out ++ ConvCode.encode ConvStage.g1Taps ConvStage.g2Taps hist bits := by
  induction bits generalizing r hist with
  | nil => exact (List.append_nil _).symm
  | cons b bits ih =>
    obtain ⟨hnext, hout⟩ := h.push b
    rw [List.foldl_cons, ih hnext, hout, ConvCode.encode, List.append_assoc]

theorem rcpcR23_eq (bits : List Bool) :
    rcpcR23 bits = ConvCode.encode ConvStage.g1Taps ConvStage.g2Taps [] bits :=
  foldl_push ⟨rfl, rfl, rfl, rfl, rfl⟩ bits

theorem interleaveA103_eq {rcpc : List Bool} (h : rcpc.length = 432) :
    interleaveA103 rcpc = MulPerm.spread 103 false rcpc := by
  rw [interleaveA103, MulPerm.spread, h, List.range'_eq_map_range, List.foldl_map]
  simp only [MulPerm.place, Nat.add_comm 1, Nat.add_sub_cancel]

theorem scramble_eq (bits : List Bool) (lfsr : BitVec 32) :
    scramble bits lfsr = List.zipWith xor bits (cellSequence bits.length lfsr) := by
  induction bits generalizing lfsr with
  | nil => rfl
  | cons b bits ih =>
    have hfb : [0, 6, 9, 10, 16, 20, 21, 22, 24, 25, 27, 28, 30, 31].foldl
        (fun fb t => fb ^^ lfsr.getLsbD t) false = lfsrFb lfsr := by
      simp [lfsrFb, Lfsr.tapped, lfsrTaps]
    have hnext : (BitVec.ofBool (lfsrFb lfsr)).setWidth 32 <<< 31 ||| lfsr >>> 1 =
        lfsrNext lfsr := by
      refine BitVec.eq_of_getLsbD_eq fun j hj => ?_
      rw [lfsrNext, Lfsr.fibStep, ← lfsrFb.eq_def, BitVec.getLsbD_cons]
      by_cases htop : j = 31
      · subst htop
        simp
      · have hlow : j < 31 := by omega
        simp [htop, hlow, Nat.add_comm 1 j]
    rw [scramble, hfb, hnext, ih]
    rfl

/-- The encoder of a full slot against the reference. -/
theorem schFEncode_eq {info : List Bool} (hinfo : info.length = 268) (seed : BitVec 32) :
    schFEncode info seed = blockReference 103 432 seed info := by
  have hlen : (rcpcR23 (Crc16.checked info ++ [false, false, false, false])).length = 432 := by
    rw [rcpcR23_eq, ConvCode.encode_length, checked_length, hinfo]
    rfl
  have hspread : (MulPerm.spread 103 false
      (rcpcR23 (Crc16.checked info ++ [false, false, false, false]))).length = 432 := by
    have hcoprime : (rcpcR23 (Crc16.checked info ++
        [false, false, false, false])).length.Coprime 103 := by
      rw [hlen]
      decide
    rw [(MulPerm.permuted_spread hcoprime false).length, hlen]
  rw [schFEncode]
  simp only [crc16Ccitt_eq]
  rw [interleaveA103_eq hlen, scramble_eq, hspread, rcpcR23_eq, blockReference]

/-- What the encoder puts out of a block is what the reference computes of it. -/
theorem schF_reference {s : SchEncoder 268 432} (hs : s.state = .idle) {x : SchInput 268}
    (hx : x.encodeStart = true) {is : List (SchInput 268)} (hlen : is.length = 990) :
    (exec schFStep s (x :: is)).codedValid = true ∧
      msbBits (exec schFStep s (x :: is)).codedBits 432 =
        schFEncode (msbBits x.infoBits 268) x.scrambleInit := by
  obtain ⟨-, hvalid, hbits⟩ := SchEncoder.block 103 (by decide) (by decide) hs hx hlen
  rw [schFEncode_eq (msbBits_length _ _)]
  exact ⟨hvalid, hbits⟩

theorem schF_reference_ones :
    (exec schFStep (.reset 268 432) (List.replicate 991 ⟨true, BitVec.allOnes 268, 3⟩)).codedValid =
        true ∧
      msbBits (exec schFStep (.reset 268 432)
        (List.replicate 991 ⟨true, BitVec.allOnes 268, 3⟩)).codedBits 432 =
        schFEncode (msbBits (BitVec.allOnes 268) 268) 3 :=
  schF_reference (s := .reset 268 432) rfl (x := ⟨true, BitVec.allOnes 268, 3⟩) rfl
    (List.length_replicate (n := 990))

/-! `ref_mac_resource_dl.py`. -/

inductive RefError where
  | indexError
  | assertion
  | notImplemented (llcPduType : Nat)

/-- `buf[pos + i] = b` for the bits in turn. -/
def setBits (pos : Nat) : List Bool → List Bool → Except RefError (List Bool)
  | [], buf => pure buf
  | b :: bits, buf =>
    if pos < buf.length then setBits (pos + 1) bits (buf.set pos b) else throw .indexError

def fieldBits (width value : Nat) : List Bool :=
  (List.range width).map fun i => value.testBit (width - 1 - i)

/-- `write_field`. -/
def writeField (buf : List Bool) (start width value : Nat) : Except RefError (List Bool) :=
  setBits start (fieldBits width value) buf

/-- The arguments of `build_mac_resource_dl`. -/
structure MacArgs where
  ssi : Nat
  addrType : Nat := 1
  nr : Nat := 0
  ns : Nat := 0
  llcPduType : Nat := 0
  randomAccessFlag : Nat := 0
  powerControlFlag : Nat := 0
  powerControlElement : Nat := 0
  slotGrantingFlag : Nat := 0
  slotGrantingElement : Nat := 0
  chanAllocFlag : Nat := 0
  chanAllocElement : Nat := 0
  chanAllocElementLen : Nat := 0
  mmBits : List Bool := []

/-- What is returned beside the bits. -/
structure MacMeta where
  macHdrBits : Nat
  macTotalBits : Nat
  macTotalOctets : Nat
  lengthInd : Nat
  fillBitInd : Nat
deriving DecidableEq

/-- The buffer and the position in it. -/
abbrev Writer := StateT (List Bool × Nat) (Except RefError) Unit

/-- A field at the position. -/
def putField (width value : Nat) : Writer := fun s => do
  return ((), ← writeField s.1 s.2 width value, s.2 + width)

def putBase (fillBitInd : Bool) (lengthInd : Nat) (a : MacArgs) (buf : List Bool) :
    Except RefError (List Bool) := do
  let buf ← writeField buf 0 2 0
  let buf ← writeField buf 2 1 (if fillBitInd then 1 else 0)
  let buf ← writeField buf 3 1 0
  let buf ← writeField buf 4 2 0
  let buf ← writeField buf 6 1 a.randomAccessFlag
  let buf ← writeField buf 7 6 lengthInd
  let buf ← writeField buf 13 3 a.addrType
  writeField buf 16 24 a.ssi

/-- A flag, and the field behind it if it is set. -/
def putFlagged (flag width value : Nat) : Writer := do
  putField 1 flag
  if flag ≠ 0 then putField width value

def putElements (a : MacArgs) : Writer := do
  putFlagged a.powerControlFlag 4 a.powerControlElement
  putFlagged a.slotGrantingFlag 8 a.slotGrantingElement
  putFlagged a.chanAllocFlag a.chanAllocElementLen a.chanAllocElement

/-- The LLC header with its protocol discriminator. -/
def putLlc (a : MacArgs) : Writer :=
  if a.llcPduType = 0 then do
    putField 1 0
    putField 1 0
    putField 2 0
    putField 1 a.nr
    putField 1 a.ns
    putField 3 1
  else do
    putField 1 0
    putField 1 0
    putField 2 1
    putField 1 a.ns
    putField 3 1

def require (c : Prop) [Decidable c] : Except RefError Unit :=
  if c then pure () else throw .assertion

/-- The length of the LLC header by its type. -/
def llcHdrBits : Nat → Except RefError Nat
  | 0 => pure 6
  | 1 => pure 5
  | t => throw (.notImplemented t)

def putFill (fillBitInd : Bool) (pos : Nat) (buf : List Bool) : Except RefError (List Bool) :=
  if fillBitInd then setBits pos [true] buf else pure buf

/-- `build_mac_resource_dl`. -/
def buildMacResourceDl (a : MacArgs) : Except RefError (List Bool × MacMeta) := do
  let mmLen := a.mmBits.length
  let macHdrBits := 40 + 3 + (if a.powerControlFlag ≠ 0 then 4 else 0) +
    (if a.slotGrantingFlag ≠ 0 then 8 else 0) +
    (if a.chanAllocFlag ≠ 0 then a.chanAllocElementLen else 0)
  let llcHdrBits ← llcHdrBits a.llcPduType
  let llcCovLen := llcHdrBits + 3 + mmLen
  let macTotalBits := macHdrBits + llcCovLen
  let macTotalOctets := (macTotalBits + 7) / 8
  let fillBitInd := decide (macTotalBits % 8 ≠ 0)
  let buf ← putBase fillBitInd macTotalOctets a (List.replicate 268 false)
  let (_, buf, pos) ← putElements a (buf, 40)
  require (pos = macHdrBits)
  let (_, buf, pos) ← putLlc a (buf, pos)
  let buf ← setBits pos a.mmBits buf
  let pos := pos + mmLen
  require (pos = macTotalBits)
  let buf ← putFill fillBitInd pos buf
  return (buf, ⟨macHdrBits, macTotalBits, macTotalOctets, macTotalOctets, fillBitInd.toNat⟩)

/-! The buffer from its front. -/

/-- A buffer of 268 bits that begins with `bs`, with zeros behind. -/
def written (bs : List Bool) : List Bool := bs ++ List.replicate (268 - bs.length) false

/-- The zero behind `pre`, and a one in its place. -/
theorem written_next (pre : List Bool) (hfit : pre.length < 268) (b : Bool) :
    (written pre).set pre.length b = pre ++ b :: List.replicate (268 - pre.length - 1) false ∧
      written (pre ++ [b]) = pre ++ b :: List.replicate (268 - pre.length - 1) false := by
  have hcount : 268 - pre.length = 268 - pre.length - 1 + 1 := by omega
  constructor
  · rw [written, hcount, List.set_append_right _ _ (Nat.le_refl _), Nat.sub_self,
      List.replicate_succ, List.set_cons_zero]
    rfl
  · rw [written, List.length_append, List.append_assoc]
    rfl

theorem setBits_written {pos : Nat} {pre : List Bool} (hpos : pre.length = pos) (bits : List Bool)
    (hfit : (pre ++ bits).length ≤ 268) :
    setBits pos bits (written pre) = .ok (written (pre ++ bits)) := by
  induction bits generalizing pos pre with
  | nil =>
    rw [List.append_nil]
    rfl
  | cons b bits ih =>
    have hless : pre.length < 268 := by
      rw [List.length_append, List.length_cons] at hfit
      omega
    have hset : (written pre).set pos b = written (pre ++ [b]) := by
      rw [← hpos, (written_next pre hless b).1, (written_next pre hless b).2]
    have hroom : pos < (written pre).length := by
      rw [written, List.length_append, List.length_replicate]
      omega
    have hsplit : pre ++ b :: bits = pre ++ [b] ++ bits := by simp
    rw [setBits, if_pos hroom, hset, ih (by rw [List.length_append, hpos]; rfl)
      (by rw [← hsplit]; exact hfit), hsplit]

theorem fieldBits_toNat {w : Nat} (width : Nat) (v : BitVec w) :
    fieldBits width v.toNat = msbBits v width := rfl

/-- A writer that puts `bs` at its position. -/
def Writes (m : Writer) (bs : List Bool) : Prop :=
  ∀ pre : List Bool, (pre ++ bs).length ≤ 268 →
    m (written pre, pre.length) = .ok ((), written (pre ++ bs), (pre ++ bs).length)

theorem writes_field (width value : Nat) :
    Writes (putField width value) (fieldBits width value) := by
  intro pre hfit
  have hlen : (fieldBits width value).length = width := by
    rw [fieldBits, List.length_map, List.length_range]
  rw [putField, writeField, setBits_written rfl _ hfit, List.length_append, hlen]
  rfl

theorem writes_value {w : Nat} (width : Nat) (v : BitVec w) {value : Nat} (hv : value = v.toNat) :
    Writes (putField width value) (msbBits v width) := by
  rw [hv, ← fieldBits_toNat]
  exact writes_field width v.toNat

theorem writes_pure : Writes (pure ()) [] := by
  intro pre _
  rw [List.append_nil]
  rfl

theorem Writes.bind {m : Writer} {f : Unit → Writer} {bs cs : List Bool} (h : Writes m bs)
    (h' : Writes (f ()) cs) : Writes (m >>= f) (bs ++ cs) := by
  intro pre hfit
  have hfirst : (pre ++ bs).length ≤ 268 := by
    simp only [List.length_append] at hfit ⊢
    omega
  rw [← List.append_assoc] at hfit ⊢
  have hrun : (m >>= f) (written pre, pre.length) =
      (m (written pre, pre.length) >>= fun r => f r.1 r.2) := rfl
  rw [hrun, h pre hfirst]
  exact h' (pre ++ bs) hfit

/-- A flag, and its element if it is set. -/
theorem writes_flagged {w : Nat} (c : Bool) (v : BitVec w) (width : Nat) :
    Writes (putFlagged c.toNat width v.toNat) (flagged c v width) := by
  cases c with
  | false =>
    have hflag := (writes_value 1 0#1 rfl).bind (f := fun _ => pure ()) writes_pure
    exact hflag
  | true =>
    have hflag := (writes_value 1 1#1 rfl).bind (f := fun _ => putField width v.toNat)
      (writes_value width v rfl)
    exact hflag

/-! Against the builder. -/

/-- The arguments that ask for the first PDU of a request. -/
def Request.macArgs (r : Request) : MacArgs where
  ssi := r.first.ssi.toNat
  addrType := r.first.addrType.toNat
  nr := r.nr.toNat
  ns := r.ns.toNat
  llcPduType := r.llcPduType.toNat
  randomAccessFlag := r.first.randomAccessFlag.toNat
  powerControlFlag := r.first.pcFlag.toNat
  powerControlElement := r.first.pcElement.toNat
  slotGrantingFlag := r.first.sgFlag.toNat
  slotGrantingElement := r.first.sgElement.toNat
  chanAllocFlag := r.first.caFlag.toNat
  chanAllocElement := r.first.caElement.toNat
  chanAllocElementLen := r.first.caElementLen.toNat
  mmBits := r.mm

/-- The lengths of the builder, as the reference returns them. -/
def Lengths.macMeta (l : Lengths) : MacMeta where
  macHdrBits := l.macHdrBits.toNat
  macTotalBits := l.macTotalBits.toNat
  macTotalOctets := l.macTotalOctets.toNat
  lengthInd := l.lengthInd.toNat
  fillBitInd := l.fillBitInd.toNat

/-- The 40 bits in front of the flags. -/
def baseBits (fillBit : Bool) (lengthInd : BitVec 6) (h : Header) : List Bool :=
  msbBits 0#2 2 ++ (msbBits (BitVec.ofBool fillBit) 1 ++ (msbBits 0#1 1 ++ (msbBits 0#2 2 ++
    (msbBits (BitVec.ofBool h.randomAccessFlag) 1 ++ (msbBits lengthInd 6 ++
      (msbBits h.addrType 3 ++ msbBits h.ssi 24))))))

def elementBits (h : Header) : List Bool :=
  flagged h.pcFlag h.pcElement 4 ++ (flagged h.sgFlag h.sgElement 8 ++
    flagged h.caFlag h.caElement h.caElementLen.toNat)

theorem header_bits_eq (fillBit : Bool) (lengthInd : BitVec 6) (h : Header) :
    h.bits fillBit lengthInd = baseBits fillBit lengthInd h ++ elementBits h := by
  simp only [Header.bits, baseBits, elementBits, List.append_assoc]

theorem toNat_ofBool (b : Bool) : b.toNat = (BitVec.ofBool b).toNat := by cases b <;> rfl

/-- One field after the other at the positions given. -/
theorem writeField_then {w : Nat} {pre : List Bool} {start width value : Nat} (v : BitVec w)
    (hv : value = v.toNat) (hpos : pre.length = start) (hfit : start + width ≤ 268)
    {f : List Bool → Except RefError (List Bool)} {out : Except RefError (List Bool)}
    (h : f (written (pre ++ msbBits v width)) = out) :
    (writeField (written pre) start width value >>= f) = out := by
  rw [hv, writeField, fieldBits_toNat,
    setBits_written hpos _ (by rw [List.length_append, msbBits_length]; omega)]
  exact h

theorem putBase_eq (r : Request) (fillBit : Bool) {n : Nat} {lengthInd : BitVec 6}
    (hn : n = lengthInd.toNat) :
    putBase fillBit n (Request.macArgs r) (List.replicate 268 false) =
      .ok (written (baseBits fillBit lengthInd r.first)) := by
  have hfill : (if fillBit then 1 else 0) = (BitVec.ofBool fillBit).toNat := by
    cases fillBit <;> rfl
  have hempty : List.replicate 268 false = written [] := rfl
  rw [putBase, hempty]
  refine writeField_then 0#2 rfl (by rfl) (by decide) ?_
  refine writeField_then (BitVec.ofBool fillBit) hfill (by rfl) (by decide) ?_
  refine writeField_then 0#1 rfl (by rfl) (by decide) ?_
  refine writeField_then 0#2 rfl (by rfl) (by decide) ?_
  refine writeField_then (BitVec.ofBool r.first.randomAccessFlag) (toNat_ofBool _) (by rfl)
    (by decide) ?_
  refine writeField_then lengthInd hn (by rfl) (by decide) ?_
  refine writeField_then r.first.addrType rfl (by rfl) (by decide) ?_
  rw [← bind_pure (writeField _ _ _ _)]
  refine writeField_then r.first.ssi rfl (by rfl) (by decide) ?_
  simp only [baseBits, List.append_assoc, List.nil_append]
  rfl

theorem putElements_writes (r : Request) :
    Writes (putElements (Request.macArgs r)) (elementBits r.first) :=
  (writes_flagged r.first.pcFlag r.first.pcElement 4).bind
    ((writes_flagged r.first.sgFlag r.first.sgElement 8).bind
      (writes_flagged r.first.caFlag r.first.caElement r.first.caElementLen.toNat))

/-- The bits of the LLC header. -/
def llcHeaderBits (r : Request) : List Bool :=
  if r.llcPduType = 0 then [false, false, false, false, r.nr, r.ns, false, false, true]
  else [false, false, false, true, r.ns, false, false, true]

theorem putLlc_writes {r : Request} (htype : r.llcPduType = 0 ∨ r.llcPduType = 1) :
    Writes (putLlc (Request.macArgs r)) (llcHeaderBits r) := by
  have hflag : ∀ b : Bool, Writes (putField 1 b.toNat) [b] := by
    intro b
    have hbits : msbBits (BitVec.ofBool b) 1 = [b] := by cases b <;> rfl
    rw [← hbits]
    exact writes_value 1 (BitVec.ofBool b) (toNat_ofBool b)
  have hfront := fun {f : Unit → Writer} {cs : List Bool} (h : Writes (f ()) cs) =>
    (hflag false).bind (f := fun _ => putField 1 false.toNat >>= f) ((hflag false).bind h)
  obtain h0 | h1 := htype
  · have hzero : (Request.macArgs r).llcPduType = 0 := by rw [Request.macArgs, h0]; rfl
    rw [putLlc, llcHeaderBits, if_pos hzero, if_pos h0]
    exact hfront ((writes_value 2 0#2 rfl).bind ((hflag r.nr).bind ((hflag r.ns).bind
      (writes_value 3 1#3 rfl))))
  · have hone : (Request.macArgs r).llcPduType = 1 := by rw [Request.macArgs, h1]; rfl
    have hne : r.llcPduType ≠ 0 := by rw [h1]; decide
    rw [putLlc, llcHeaderBits, if_neg (by rw [hone]; decide), if_neg hne]
    exact hfront ((writes_value 2 1#2 rfl).bind ((hflag r.ns).bind (writes_value 3 1#3 rfl)))

theorem llcBits_split {r : Request} (htype : r.llcPduType = 0 ∨ r.llcPduType = 1) :
    r.llc.bits = llcHeaderBits r ++ r.mm := by
  obtain h0 | h1 := htype
  · rw [Request.llc, llcHeaderBits, h0]
    rfl
  · rw [Request.llc, llcHeaderBits, h1]
    rfl

/-- The reference puts a one behind a PDU that does not end with an octet, and no other. -/
def referenceBits (r : Request) : List Bool :=
  written (r.firstBits ++ if r.fill then [true] else [])

theorem macHdrBits_eq (r : Request) :
    40 + 3 + (if (Request.macArgs r).powerControlFlag ≠ 0 then 4 else 0) +
      (if (Request.macArgs r).slotGrantingFlag ≠ 0 then 8 else 0) +
      (if (Request.macArgs r).chanAllocFlag ≠ 0 then (Request.macArgs r).chanAllocElementLen
        else 0) = r.first.length := by
  rw [Header.length, Request.macArgs]
  cases r.first.pcFlag <;> cases r.first.sgFlag <;> cases r.first.caFlag <;> rfl

theorem llcHdrBits_eq {r : Request} (htype : r.llcPduType = 0 ∨ r.llcPduType = 1) :
    ∃ k, llcHdrBits (Request.macArgs r).llcPduType = .ok k ∧
      k + 3 = (llcHeaderBits r).length := by
  obtain h0 | h1 := htype
  · rw [Request.macArgs, llcHeaderBits, h0]
    exact ⟨6, rfl, rfl⟩
  · rw [Request.macArgs, llcHeaderBits, h1]
    exact ⟨5, rfl, rfl⟩

theorem putFill_eq {r : Request} (hfit : r.total < 268) :
    putFill r.fill r.total (written r.firstBits) = .ok (referenceBits r) := by
  rw [putFill, referenceBits]
  cases r.fill with
  | false =>
    rw [if_neg Bool.false_ne_true, if_neg Bool.false_ne_true, List.append_nil]
    rfl
  | true =>
    rw [if_pos rfl, if_pos rfl]
    exact setBits_written r.firstBits_length _
      (by rw [List.length_append, r.firstBits_length]; exact hfit)

theorem macMeta_eq {r : Request} (hmm : r.mmPduLenBits.toNat ≤ 128) :
    Lengths.macMeta (lengths r) =
      ⟨r.first.length, r.total, octets r.total, octets r.total, r.fill.toNat⟩ := by
  have hhdr : (lengths r).macHdrBits.toNat = r.first.length := r.first.hdrBits_toNat
  have hle := Request.total_le hmm
  have hlength : r.lengthInd.toNat = octets r.total := by
    rw [Request.lengthInd, BitVec.toNat_ofNat, octets]
    omega
  rw [Lengths.macMeta, hhdr, macTotalBits_toNat hmm, macTotalOctets_toNat hmm, lengthInd_eq hmm,
    fillBitInd_eq hmm, hlength]

/-- The reference is defined for the two types of LLC PDU, and its lengths are those of the
builder. -/
theorem buildMacResourceDl_eq {r : Request} (hr : r.InRange)
    (htype : r.llcPduType = 0 ∨ r.llcPduType = 1) :
    buildMacResourceDl (Request.macArgs r) =
      .ok (referenceBits r, Lengths.macMeta (lengths r)) := by
  obtain ⟨k, hllc, hk⟩ := llcHdrBits_eq htype
  have hmm : (Request.macArgs r).mmBits = r.mm := rfl
  have htotal : r.first.length + (k + 3 + r.mm.length) = r.total := by
    rw [hk, Request.total, llcBits_split htype, List.length_append]
  have hoctets : (r.total + 7) / 8 = octets r.total := rfl
  have hfill : decide (r.total % 8 ≠ 0) = r.fill := rfl
  have hle := Request.total_le hr.mm
  -- what stands in front of each part
  generalize hbase : baseBits r.fill r.lengthInd r.first = base
  have hheader : base ++ elementBits r.first = r.first.bits r.fill r.lengthInd := by
    rw [header_bits_eq, hbase]
  have hbits : base ++ elementBits r.first ++ llcHeaderBits r ++ r.mm = r.firstBits := by
    rw [hheader, Request.firstBits, llcBits_split htype, List.append_assoc]
  have hfront : (base ++ elementBits r.first).length = r.first.length := by
    rw [hheader, Header.bits_length]
  have hforty : base.length = 40 := by
    rw [← hbase]
    simp only [baseBits, List.length_append, msbBits_length]
  have hdone : (base ++ elementBits r.first ++ llcHeaderBits r).length + r.mm.length =
      r.total := by
    rw [← List.length_append, hbits, r.firstBits_length]
  -- the parts in turn
  have hbegin := putBase_eq r r.fill (lengthInd_toNat hr).symm
  have helements := putElements_writes r base (by rw [hfront]; omega)
  have hllcHeader := putLlc_writes htype (base ++ elementBits r.first) (by omega)
  have hsdu := setBits_written (rfl : (base ++ elementBits r.first ++ llcHeaderBits r).length = _)
    r.mm (by rw [hbits, r.firstBits_length]; omega)
  rw [hforty, hfront] at helements
  rw [hfront] at hllcHeader
  rw [hbits] at hsdu
  rw [hbase] at hbegin
  have hok : ∀ {α β : Type} (a : α) (f : α → Except RefError β), (Except.ok a >>= f) = f a :=
    fun _ _ => rfl
  rw [buildMacResourceDl, macMeta_eq hr.mm]
  simp only [macHdrBits_eq, hmm, hllc, hok, htotal, hoctets, hfill, hbegin, helements, require,
    if_true, hllcHeader, hsdu, hdone, pure_bind, putFill_eq (by omega : r.total < 268)]
  rfl

/-- Six clocks after the start the builder has the bits of the reference, but for one: it puts its
fill bit also behind a PDU that ends with an octet, where the reference has a zero. -/
theorem built_reference {s : Builder 268 144} (hs : s.state = .idle) {i : Input}
    (hi : i.start = true) (hr : i.request.InRange) (hsecond : i.request.secondValid = false)
    (htype : i.request.llcPduType = 0 ∨ i.request.llcPduType = 1) (a b c d e : Input) :
    ∃ buf, buildMacResourceDl (Request.macArgs i.request) =
        .ok (buf, Lengths.macMeta (lengths i.request)) ∧
      msbBits (exec step s [i, a, b, c, d, e]).pduBits 268 = buf.set i.request.total true ∧
      (msbBits (exec step s [i, a, b, c, d, e]).pduBits 268 = buf ↔
        i.request.total % 8 ≠ 0) := by
  obtain ⟨-, hbits, -⟩ := exec_start hs hi a b c d e
  have hle := Request.total_le hr.mm
  have hfirst := i.request.firstBits_length
  have hextent : i.request.extent ≤ 268 := by
    rw [Request.extent, hsecond, if_neg Bool.false_ne_true]
    omega
  rw [hbits, msbBits_built hr (by decide) (by decide) hextent, Request.block, hsecond,
    if_neg Bool.false_ne_true, fillTo, if_pos (by omega)]
  refine ⟨referenceBits i.request, buildMacResourceDl_eq hr htype, ?_⟩
  have hnext := written_next i.request.firstBits (by omega) true
  rw [hfirst] at hnext
  rw [referenceBits]
  cases hfill : i.request.fill with
  | false =>
    have hwhole : ¬i.request.total % 8 ≠ 0 := of_decide_eq_false hfill
    rw [if_neg Bool.false_ne_true, List.append_nil, hnext.1]
    refine ⟨rfl, iff_of_false (fun h => ?_) hwhole⟩
    have hone := congrArg (fun l : List Bool => l[i.request.total]?) h
    rw [written, List.getElem?_append_right (Nat.le_of_eq hfirst), hfirst, Nat.sub_self,
      List.getElem?_append_right (Nat.le_of_eq hfirst), hfirst, Nat.sub_self,
      List.getElem?_replicate, if_pos (by omega), List.getElem?_cons_zero] at hone
    cases hone
  | true =>
    have hpart : i.request.total % 8 ≠ 0 := of_decide_eq_true hfill
    rw [if_pos rfl, hnext.2]
    refine ⟨?_, iff_of_true rfl hpart⟩
    rw [List.set_append_right _ _ (Nat.le_of_eq hfirst), hfirst, Nat.sub_self, List.set_cons_zero]

/-- 84 bits of MM, and the PDU ends with an octet. -/
def wholeRequest : Request := { acceptRequest with mmPduLenBits := 84, secondValid := false }

def wholeInput : Input := ⟨true, wholeRequest⟩

theorem wholeRequest_inRange : wholeRequest.InRange where
  first := ⟨by decide, by decide⟩
  mm := by decide
  second h := by cases h
  tlSdu h := by cases h
  lengthInd h := by cases h

theorem built_reference_whole :
    ∃ buf, buildMacResourceDl (Request.macArgs wholeRequest) =
        .ok (buf, Lengths.macMeta (lengths wholeRequest)) ∧
      msbBits (exec step (Builder.reset 268 144) (List.replicate 6 wholeInput)).pduBits 268 =
        buf.set wholeRequest.total true ∧
      (msbBits (exec step (Builder.reset 268 144) (List.replicate 6 wholeInput)).pduBits 268 =
        buf ↔ wholeRequest.total % 8 ≠ 0) :=
  built_reference (s := Builder.reset 268 144) rfl (i := wholeInput) rfl wholeRequest_inRange rfl
    (.inl rfl) wholeInput wholeInput wholeInput wholeInput wholeInput

end TetraBs.References
