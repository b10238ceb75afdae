import TetraBs.Core.BitBuffer
import TetraBs.Lib.Crc

/-! LLC PDUs on the air: `llc_pdu_encode`, `llc_pdu_decode` and the frame check sequence. -/
namespace TetraBs
open TetraBs.Bits

inductive LlcPduType where
  | blAdata | blData | blUdata | blAck | blAdataFcs | blDataFcs | blUdataFcs | blAckFcs
  | alSetup | unknown
deriving DecidableEq, Repr

def LlcPduType.value : LlcPduType → BitVec 8
  | .blAdata => 0x0
  | .blData => 0x1
  | .blUdata => 0x2
  | .blAck => 0x3
  | .blAdataFcs => 0x4
  | .blDataFcs => 0x5
  | .blUdataFcs => 0x6
  | .blAckFcs => 0x7
  | .alSetup => 0x8
  | .unknown => 0xFF

/-- The cast `(LlcPduType) v`; every value that is not an enumerator counts as `unknown`. -/
def LlcPduType.ofValue (v : BitVec 8) : LlcPduType :=
  match v.toNat with
  | 0 => .blAdata
  | 1 => .blData
  | 2 => .blUdata
  | 3 => .blAck
  | 4 => .blAdataFcs
  | 5 => .blDataFcs
  | 6 => .blUdataFcs
  | 7 => .blAckFcs
  | 8 => .alSetup
  | _ => .unknown

def llcPduTypeIsValid (v : BitVec 8) : Bool :=
  [LlcPduType.blAdata, .blData, .blUdata, .blAck, .blAdataFcs, .blDataFcs, .blUdataFcs,
    .blAckFcs, .alSetup].any fun t => v == t.value

def llcPduTypeHasFcs (t : LlcPduType) : Bool := (t.value &&& 0x4) != 0 && t.value < 0x8

def llcPduTypeHasNr : LlcPduType → Bool
  | .blAdata | .blAdataFcs | .blAck | .blAckFcs => true
  | _ => false

def llcPduTypeHasNs : LlcPduType → Bool
  | .blAdata | .blAdataFcs | .blData | .blDataFcs => true
  | _ => false

def llcPduBodyMaxBytes : Nat := 32

/-- Fields not given are zero, as after `memset`. -/
structure LlcPdu where
  pduType : LlcPduType := .blAdata
  nr : Byte := 0
  ns : Byte := 0
  bodyLenBits : Nat := 0
  body : List Byte := []
  fcs : BitVec 32 := 0
  fcsValid : Bool := false
deriving DecidableEq, Repr

def llcCrc32Poly : BitVec 32 := 0xEDB88320
def llcCrc32Init : BitVec 32 := 0xFFFFFFFF
def llcCrc32Xorout : BitVec 32 := 0xFFFFFFFF

def crcBit (crc : BitVec 32) (bit : Bool) : BitVec 32 :=
  let feedback := bit != crc.getLsbD 0
  let crc := crc >>> 1
  if feedback then crc ^^^ llcCrc32Poly else crc

/-- The loop over `[startBit, endBit)`; an empty window leaves the preset. -/
def crc32OverBbWindow (bb : BitBuffer) (startBit endBit : Nat) : BitVec 32 :=
  (List.range' startBit (endBit - startBit)).foldl
    (fun crc i => crcBit crc (bitAt bb.buffer i)) llcCrc32Init ^^^ llcCrc32Xorout

/-- The loop of `put_body` over `k` whole bytes from byte `i` on. -/
def putBodyBytes (body : List Byte) : Nat → Nat → BitBuffer → Except Fault BitBuffer
  | 0, _, bb => .ok bb
  | k + 1, i, bb => do
    let bb ← bbPutBits bb ((body.getD i 0).setWidth 32) 8
    putBodyBytes body k (i + 1) bb

def putBody (bb : BitBuffer) (body : List Byte) (bodyLenBits : Nat) : Except Fault BitBuffer := do
  let bb ← putBodyBytes body (bodyLenBits / 8) 0 bb
  let remaining := bodyLenBits % 8
  if 0 < remaining then
    bbPutBits bb (((body.getD (bodyLenBits / 8) 0) >>> (8 - remaining)).setWidth 32 &&&
      lowMask remaining) remaining
  else .ok bb

/-- The loop of `get_body` over `k` whole bytes. -/
def getBodyBytes : Nat → BitBuffer → Except Fault (List Byte × BitBuffer)
  | 0, bb => .ok ([], bb)
  | k + 1, bb => do
    let (v, bb) ← bbGetBits bb 8
    let (rest, bb) ← getBodyBytes k bb
    return (v.setWidth 8 :: rest, bb)

/-- The first `(body_len_bits + 7) / 8` bytes are overwritten, the others stay. -/
def getBody (bb : BitBuffer) (body : List Byte) (bodyLenBits : Nat) :
    Except Fault (List Byte × BitBuffer) := do
  let (full, bb) ← getBodyBytes (bodyLenBits / 8) bb
  let remaining := bodyLenBits % 8
  if 0 < remaining then
    let (v, bb) ← bbGetBits bb remaining
    return (full ++ ((v &&& lowMask remaining) <<< (8 - remaining)).setWidth 8 ::
      body.drop ((bodyLenBits + 7) / 8), bb)
  else return (full ++ body.drop ((bodyLenBits + 7) / 8), bb)

def putIf (c : Bool) (bb : BitBuffer) (v : BitVec 32) (n : Nat) : Except Fault BitBuffer :=
  if c then bbPutBits bb v n else .ok bb

def getIf (c : Bool) (bb : BitBuffer) (n : Nat) : Except Fault (BitVec 32 × BitBuffer) :=
  if c then bbGetBits bb n else .ok (0, bb)

def putBodyIf (bb : BitBuffer) (body : List Byte) (n : Nat) : Except Fault BitBuffer :=
  if 0 < n then putBody bb body n else .ok bb

def getBodyIf (bb : BitBuffer) (body : List Byte) (n : Nat) :
    Except Fault (List Byte × BitBuffer) :=
  if 0 < n then getBody bb body n else .ok (body, bb)

/-- Returns the buffer and the number of bits written. -/
def llcPduEncode (out : BitBuffer) (pdu : LlcPdu) : Except Fault (BitBuffer × Nat) :=
  if llcPduTypeIsValid pdu.pduType.value = false then .error (.errno .EINVAL)
  else if llcPduBodyMaxBytes * 8 < pdu.bodyLenBits then .error (.errno .EINVAL)
  else if pdu.pduType = .alSetup ∧ pdu.bodyLenBits ≠ 0 then .error (.errno .EINVAL)
  else do
    let pduStart := bbPosBits out + out.start
    let out ← bbPutBits out (pdu.pduType.value.setWidth 32 &&& 0xF) 4
    let out ← putIf (llcPduTypeHasNr pdu.pduType) out (pdu.nr.setWidth 32 &&& 0x1) 1
    let out ← putIf (llcPduTypeHasNs pdu.pduType) out (pdu.ns.setWidth 32 &&& 0x1) 1
    let out ← putBodyIf out pdu.body pdu.bodyLenBits
    let pduEnd := bbPosBits out + out.start
    let out ← putIf (llcPduTypeHasFcs pdu.pduType) out
      (crc32OverBbWindow out pduStart pduEnd) 32
    return (out, bbPosBits out + out.start - pduStart)

/-- `out.bodyLenBits` and the old body are inputs: the frame does not carry its length. -/
def llcPduDecode (bb : BitBuffer) (out : LlcPdu) : Except Fault (LlcPdu × BitBuffer) :=
  if llcPduBodyMaxBytes * 8 < out.bodyLenBits then .error (.errno .EINVAL)
  else if bbRemaining bb < 4 then .error (.errno .EPROTO)
  else do
    let pduStart := bbPosBits bb + bb.start
    let (rawType, bb) ← bbGetBits bb 4
    if llcPduTypeIsValid (rawType.setWidth 8) = false then .error (.errno .EPROTO)
    else
      let t := LlcPduType.ofValue (rawType.setWidth 8)
      if t = .alSetup then
        return ({ pduType := t, bodyLenBits := 0, body := out.body }, bb)
      else if bbRemaining bb < (llcPduTypeHasNr t).toNat + (llcPduTypeHasNs t).toNat then
        .error (.errno .EPROTO)
      else
        let (nr, bb) ← getIf (llcPduTypeHasNr t) bb 1
        let (ns, bb) ← getIf (llcPduTypeHasNs t) bb 1
        if 0 < out.bodyLenBits ∧ bbRemaining bb < out.bodyLenBits then .error (.errno .EPROTO)
        else
          let (body, bb) ← getBodyIf bb out.body out.bodyLenBits
          let pdu : LlcPdu :=
            { pduType := t, nr := nr.setWidth 8, ns := ns.setWidth 8,
              bodyLenBits := out.bodyLenBits, body := body }
          if llcPduTypeHasFcs t then
            if bbRemaining bb < 32 then .error (.errno .EPROTO)
            else
              let preFcs := bbPosBits bb + bb.start
              let want := crc32OverBbWindow bb pduStart preFcs
              let (got, bb) ← bbGetBits bb 32
              return ({ pdu with fcs := got, fcsValid := got == want }, bb)
          else return (pdu, bb)

/-! The bits of a PDU, and the codec in terms of them. -/

def ctrlBit (present : Bool) (v : Byte) : List Bool := if present then [v.getLsbD 0] else []

def LlcPdu.header (pdu : LlcPdu) : List Bool :=
  msbBits pdu.pduType.value 4 ++ (ctrlBit (llcPduTypeHasNr pdu.pduType) pdu.nr ++
    ctrlBit (llcPduTypeHasNs pdu.pduType) pdu.ns)

def LlcPdu.bodyBits (pdu : LlcPdu) : List Bool := window pdu.body 0 pdu.bodyLenBits

/-- Everything in front of the FCS. -/
def LlcPdu.covered (pdu : LlcPdu) : List Bool := pdu.header ++ pdu.bodyBits

def LlcPdu.bits (pdu : LlcPdu) : List Bool :=
  pdu.covered ++
    if llcPduTypeHasFcs pdu.pduType then msbBits (Crc.crc llcCrc32Poly pdu.covered) 32 else []

/-- Header length in bits of a type. -/
def headerLen (t : LlcPduType) : Nat :=
  4 + (llcPduTypeHasNr t).toNat + (llcPduTypeHasNs t).toNat

def fcsLen (t : LlcPduType) : Nat := if llcPduTypeHasFcs t then 32 else 0

/-- The PDUs `llc_pdu_encode` does not reject. -/
structure LlcPdu.Encodable (pdu : LlcPdu) : Prop where
  known : pdu.pduType ≠ .unknown
  body_le : pdu.bodyLenBits ≤ llcPduBodyMaxBytes * 8
  alSetup : pdu.pduType = .alSetup → pdu.bodyLenBits = 0

theorem llcPduTypeIsValid_value (t : LlcPduType) :
    llcPduTypeIsValid t.value = decide (t ≠ .unknown) := by
  cases t <;> rfl

@[simp] theorem ofValue_value (t : LlcPduType) : LlcPduType.ofValue t.value = t := by
  cases t <;> rfl

@[simp] theorem ctrlBit_length (present : Bool) (v : Byte) :
    (ctrlBit present v).length = present.toNat := by
  cases present <;> rfl

@[simp] theorem LlcPdu.header_length (pdu : LlcPdu) :
    pdu.header.length = headerLen pdu.pduType := by
  simp [LlcPdu.header, headerLen, Nat.add_assoc]

@[simp] theorem LlcPdu.bodyBits_length (pdu : LlcPdu) :
    pdu.bodyBits.length = pdu.bodyLenBits := by
  simp [LlcPdu.bodyBits]

@[simp] theorem LlcPdu.covered_length (pdu : LlcPdu) :
    pdu.covered.length = headerLen pdu.pduType + pdu.bodyLenBits := by
  simp [LlcPdu.covered]

@[simp] theorem LlcPdu.bits_length (pdu : LlcPdu) :
    pdu.bits.length = headerLen pdu.pduType + pdu.bodyLenBits + fcsLen pdu.pduType := by
  unfold LlcPdu.bits fcsLen
  split <;> simp

theorem crcBit_eq_feed : crcBit = Crc.feed llcCrc32Poly := rfl

theorem foldl_window (f : BitVec 32 → Bool → BitVec 32) (r : BitVec 32) (buf : List Byte)
    (s n : Nat) : (window buf s n).foldl f r =
      (List.range' s n).foldl (fun acc i => f acc (bitAt buf i)) r := by
  induction n generalizing r s with
  | zero => rfl
  | succ n ih => rw [window_succ, List.foldl_cons, ih, List.range'_succ, List.foldl_cons]

theorem crc32OverBbWindow_eq (bb : BitBuffer) (s n : Nat) :
    crc32OverBbWindow bb s (s + n) = Crc.crc llcCrc32Poly (window bb.buffer s n) := by
  rw [crc32OverBbWindow, Nat.add_sub_cancel_left, ← foldl_window, crcBit_eq_feed, Crc.crc,
    ← BitVec.xor_allOnes]
  rfl

theorem bbPosBits_add_start (bb : BitBuffer) : bbPosBits bb + bb.start = bb.pos :=
  Nat.sub_add_cancel bb.start_le

/-! Encoding. -/

theorem putIf_spec (c : Bool) (bb : BitBuffer) {v : BitVec 32} {n : Nat} (hn : 1 ≤ n)
    (hn' : n ≤ 32) (hv : v.toNat < 2 ^ n) (hroom : bb.pos + (if c then n else 0) ≤ bb.limit) :
    ∃ bb', putIf c bb v n = .ok bb' ∧ Put bb bb' (if c then msbBits v n else []) := by
  cases c with
  | false => exact ⟨bb, rfl, Put.refl bb⟩
  | true => simpa [putIf] using bbPutBits_spec bb hn hn' hv hroom

theorem msbBits_byte (body : List Byte) (i : Nat) :
    msbBits ((body.getD i 0).setWidth 32) 8 = window body (8 * i) 8 := by
  refine List.map_congr_left fun k hk => ?_
  have hk8 := List.mem_range.1 hk
  rw [bitAt, BitVec.getLsbD_setWidth, (by omega : (8 * i + k) / 8 = i),
    (by omega : 7 - (8 * i + k) % 8 = 8 - 1 - k)]
  have h32 : 8 - 1 - k < 32 := by omega
  simp [h32]

theorem toNat_setWidth_lt (v : Byte) : (v.setWidth 32).toNat < 2 ^ 8 := by
  rw [BitVec.toNat_setWidth]
  exact Nat.lt_of_le_of_lt (Nat.mod_le _ _) v.isLt

theorem putBodyBytes_spec (body : List Byte) (k i : Nat) (bb : BitBuffer)
    (hroom : bb.pos + 8 * k ≤ bb.limit) :
    ∃ bb', putBodyBytes body k i bb = .ok bb' ∧ Put bb bb' (window body (8 * i) (8 * k)) := by
  induction k generalizing i bb with
  | zero => exact ⟨bb, rfl, Put.refl bb⟩
  | succ k ih =>
    obtain ⟨b1, h1, p1⟩ := bbPutBits_spec bb (by decide) (by decide)
      (toNat_setWidth_lt (body.getD i 0)) (by omega : bb.pos + 8 ≤ bb.limit)
    rw [msbBits_byte] at p1
    have hpos : b1.pos = bb.pos + 8 := by simpa using p1.pos_eq
    have hlim := p1.limit_eq
    obtain ⟨b2, h2, p2⟩ := ih (i + 1) b1 (by omega)
    refine ⟨b2, ?_, ?_⟩
    · rw [putBodyBytes, h1]
      exact h2
    · have h := p1.append p2
      rwa [Nat.mul_add, Nat.mul_one, ← window_add, Nat.add_comm 8] at h

theorem msbBits_tail (body : List Byte) (i : Nat) {r : Nat} (hr : r < 8) :
    msbBits (((body.getD i 0) >>> (8 - r)).setWidth 32 &&& lowMask r) r =
      window body (8 * i) r := by
  refine List.map_congr_left fun k hk => ?_
  have hkr := List.mem_range.1 hk
  rw [bitAt, (by omega : (8 * i + k) / 8 = i), BitVec.getLsbD_and,
    getLsbD_lowMask (by omega), BitVec.getLsbD_setWidth, BitVec.getLsbD_ushiftRight,
    (by omega : 7 - (8 * i + k) % 8 = 8 - r + (r - 1 - k))]
  have h32 : r - 1 - k < 32 := by omega
  have hlt : r - 1 - k < r := by omega
  simp [h32, hlt]

theorem toNat_and_lowMask_lt (v : BitVec 32) {r : Nat} (hr : r < 32) :
    (v &&& lowMask r).toNat < 2 ^ r := by
  refine Nat.lt_pow_two_of_testBit _ fun i hi => ?_
  have : (v &&& lowMask r).getLsbD i = false := by
    rw [BitVec.getLsbD_and, getLsbD_lowMask hr]
    simp [Nat.not_lt.2 hi]
  exact this

theorem putBody_spec (bb : BitBuffer) (body : List Byte) (n : Nat)
    (hroom : bb.pos + n ≤ bb.limit) :
    ∃ bb', putBody bb body n = .ok bb' ∧ Put bb bb' (window body 0 n) := by
  obtain ⟨b1, h1, p1⟩ := putBodyBytes_spec body (n / 8) 0 bb (by omega)
  have hpos : b1.pos = bb.pos + 8 * (n / 8) := by simpa using p1.pos_eq
  have hlim := p1.limit_eq
  have hn : n = 8 * (n / 8) + n % 8 := by omega
  by_cases hr : 0 < n % 8
  · obtain ⟨b2, h2, p2⟩ := bbPutBits_spec b1 hr (by omega)
      (toNat_and_lowMask_lt (((body.getD (n / 8) 0) >>> (8 - n % 8)).setWidth 32)
        (by omega : n % 8 < 32)) (by omega : b1.pos + n % 8 ≤ b1.limit)
    rw [msbBits_tail _ _ (by omega)] at p2
    refine ⟨b2, ?_, ?_⟩
    · simp only [putBody, h1, hr, if_true]
      exact h2
    · have h := p1.append p2
      rw [Nat.mul_zero, ← Nat.zero_add (8 * (n / 8)), Nat.zero_add (8 * (n / 8))] at h
      rw [hn, window_add, Nat.zero_add]
      exact h
  · refine ⟨b1, ?_, ?_⟩
    · simp only [putBody, h1, hr, if_false]
      rfl
    · rwa [Nat.mul_zero, (by omega : 8 * (n / 8) = n)] at p1

theorem putBodyIf_spec (bb : BitBuffer) (body : List Byte) (n : Nat)
    (hroom : bb.pos + n ≤ bb.limit) :
    ∃ bb', putBodyIf bb body n = .ok bb' ∧ Put bb bb' (window body 0 n) := by
  unfold putBodyIf
  by_cases hn : 0 < n
  · rw [if_pos hn]
    exact putBody_spec bb body n hroom
  · rw [if_neg hn, (by omega : n = 0)]
    exact ⟨bb, rfl, Put.refl bb⟩

theorem typeBits_lt (t : LlcPduType) : (t.value.setWidth 32 &&& 0xF).toNat < 2 ^ 4 := by
  cases t <;> decide

theorem msbBits_typeBits (t : LlcPduType) :
    msbBits (t.value.setWidth 32 &&& 0xF) 4 = msbBits t.value 4 := by
  cases t <;> rfl

theorem seqBit_eq (v : Byte) : v.setWidth 32 &&& 0x1 = if v.getLsbD 0 then 1 else 0 := by
  revert v
  decide

theorem seqBit_lt (v : Byte) : (v.setWidth 32 &&& 0x1).toNat < 2 ^ 1 := by
  rw [seqBit_eq]
  split <;> decide

theorem msbBits_seqBit (present : Bool) (v : Byte) :
    (if present then msbBits (v.setWidth 32 &&& 0x1) 1 else []) = ctrlBit present v := by
  rw [seqBit_eq]
  cases present
  · rfl
  · unfold ctrlBit
    cases v.getLsbD 0 <;> rfl

theorem ite_toNat (c : Bool) : (if c then 1 else 0) = c.toNat := by
  cases c <;> rfl

theorem llcPduEncode_spec (out : BitBuffer) (pdu : LlcPdu) (he : pdu.Encodable)
    (hroom : out.pos + pdu.bits.length ≤ out.limit) :
    ∃ out', llcPduEncode out pdu = .ok (out', pdu.bits.length) ∧ Put out out' pdu.bits := by
  have hvalid : ¬llcPduTypeIsValid pdu.pduType.value = false := by
    simp [llcPduTypeIsValid_value, he.known]
  have halSetup : ¬(pdu.pduType = .alSetup ∧ pdu.bodyLenBits ≠ 0) := fun h => h.2 (he.alSetup h.1)
  have hlen := LlcPdu.bits_length pdu
  unfold headerLen fcsLen at hlen
  obtain ⟨b1, h1, p1⟩ := bbPutBits_spec out (by decide) (by decide) (typeBits_lt pdu.pduType)
    (by omega)
  rw [msbBits_typeBits] at p1
  have e1 : b1.pos = out.pos + 4 := by simpa using p1.pos_eq
  have l1 := p1.limit_eq
  obtain ⟨b2, h2, p2⟩ := putIf_spec (llcPduTypeHasNr pdu.pduType) b1 (by decide) (by decide)
    (seqBit_lt pdu.nr) (by rw [ite_toNat]; omega)
  rw [msbBits_seqBit] at p2
  have e2 : b2.pos = b1.pos + (llcPduTypeHasNr pdu.pduType).toNat := by simpa using p2.pos_eq
  have l2 := p2.limit_eq
  obtain ⟨b3, h3, p3⟩ := putIf_spec (llcPduTypeHasNs pdu.pduType) b2 (by decide) (by decide)
    (seqBit_lt pdu.ns) (by rw [ite_toNat]; omega)
  rw [msbBits_seqBit] at p3
  have e3 : b3.pos = b2.pos + (llcPduTypeHasNs pdu.pduType).toNat := by simpa using p3.pos_eq
  have l3 := p3.limit_eq
  obtain ⟨b4, h4, p4⟩ := putBodyIf_spec b3 pdu.body pdu.bodyLenBits (by omega)
  have pc : Put out b4 pdu.covered := by
    have := ((p1.append p2).append p3).append p4
    simpa [LlcPdu.covered, LlcPdu.header, LlcPdu.bodyBits] using this
  have hcrc : crc32OverBbWindow b4 (bbPosBits out + out.start) (bbPosBits b4 + b4.start) =
      Crc.crc llcCrc32Poly pdu.covered := by
    rw [bbPosBits_add_start, bbPosBits_add_start, pc.pos_eq, crc32OverBbWindow_eq, pc.window_eq]
  have hc := pc.pos_eq
  have lc := pc.limit_eq
  obtain ⟨b5, h5, p5⟩ := putIf_spec (llcPduTypeHasFcs pdu.pduType) b4 (by decide) (by decide)
    (Crc.crc llcCrc32Poly pdu.covered).isLt (by
      rw [LlcPdu.covered_length, headerLen] at hc
      omega)
  have pall := pc.append p5
  refine ⟨b5, ?_, pall⟩
  rw [llcPduEncode, if_neg hvalid, if_neg (Nat.not_lt.2 he.body_le), if_neg halSetup]
  simp only [h1, h2, h3, h4, hcrc, h5, bind, Except.bind, pure, Except.pure]
  rw [bbPosBits_add_start, bbPosBits_add_start, pall.pos_eq, Nat.add_sub_cancel_left]
  rfl

theorem llcPduEncode_rejects (out : BitBuffer) {pdu : LlcPdu} (he : ¬pdu.Encodable) :
    llcPduEncode out pdu = .error (.errno .EINVAL) := by
  unfold llcPduEncode
  by_cases hvalid : llcPduTypeIsValid pdu.pduType.value = false
  · rw [if_pos hvalid]
  · by_cases hbody : llcPduBodyMaxBytes * 8 < pdu.bodyLenBits
    · rw [if_neg hvalid, if_pos hbody]
    · by_cases hal : pdu.pduType = .alSetup ∧ pdu.bodyLenBits ≠ 0
      · rw [if_neg hvalid, if_neg hbody, if_pos hal]
      · have hknown : pdu.pduType ≠ .unknown := by
          rw [llcPduTypeIsValid_value] at hvalid
          simpa using hvalid
        have hlen : pdu.pduType = .alSetup → pdu.bodyLenBits = 0 := fun h => by
          by_contra hne
          exact hal ⟨h, hne⟩
        exact absurd ⟨hknown, Nat.le_of_not_lt hbody, hlen⟩ he

/-! Decoding. -/

theorem getIf_spec (c : Bool) (bb : BitBuffer) {n : Nat} (hn : 1 ≤ n) (hn' : n ≤ 32)
    (hroom : bb.pos + (if c then n else 0) ≤ bb.endBits) :
    ∃ v bb', getIf c bb n = .ok (v, bb') ∧ Skip bb bb' (if c then n else 0) ∧
      Holds v bb.buffer bb.pos (bb.pos + if c then n else 0) := by
  cases c with
  | false => exact ⟨0, bb, rfl, Skip.refl bb, holds_zero _ _⟩
  | true =>
    obtain ⟨v, bb', h, hv, hs⟩ := bbGetBits_spec bb hn hn' (by simpa using hroom)
    exact ⟨v, bb', h, hs, hv⟩

theorem msbBits_setWidth_byte (v : BitVec 32) : msbBits (v.setWidth 8) 8 = msbBits v 8 := by
  refine List.map_congr_left fun k hk => ?_
  have := List.mem_range.1 hk
  have hlt : 8 - 1 - k < 8 := by omega
  simp [hlt]

theorem getBodyBytes_spec (k : Nat) (bb : BitBuffer) (hroom : bb.pos + 8 * k ≤ bb.endBits) :
    ∃ b bb', getBodyBytes k bb = .ok (b, bb') ∧ b.length = k ∧
      window b 0 (8 * k) = window bb.buffer bb.pos (8 * k) ∧ Skip bb bb' (8 * k) := by
  induction k generalizing bb with
  | zero => exact ⟨[], bb, rfl, rfl, rfl, Skip.refl bb⟩
  | succ k ih =>
    obtain ⟨v, b1, h1, hv, s1⟩ := bbGetBits_spec bb (by decide : 1 ≤ 8) (by decide) (by omega)
    have e1 := s1.pos_eq
    have n1 := s1.end_eq
    obtain ⟨b, b2, h2, hlen, hw, s2⟩ := ih b1 (by omega)
    have hk : 8 * (k + 1) = 8 + 8 * k := by omega
    refine ⟨v.setWidth 8 :: b, b2, ?_, by simp [hlen], ?_, hk ▸ s1.trans s2⟩
    · simp only [getBodyBytes, h1, h2, bind, Except.bind, pure, Except.pure]
    · rw [hk, window_cons_byte, window_add, hw, msbBits_setWidth_byte, hv.msbBits_eq (by decide),
        s1.buffer_eq, e1]

theorem msbBits_shifted_tail (v : BitVec 32) {r : Nat} (hr : r < 8) (rest : List Byte) :
    window (((v &&& lowMask r) <<< (8 - r)).setWidth 8 :: rest) 0 r = msbBits v r := by
  refine List.map_congr_left fun k hk => ?_
  have hkr := List.mem_range.1 hk
  rw [Nat.zero_add, bitAt_cons, if_pos (by omega), BitVec.getLsbD_setWidth,
    BitVec.getLsbD_shiftLeft, BitVec.getLsbD_and, getLsbD_lowMask (by omega),
    (by omega : 7 - k - (8 - r) = r - 1 - k)]
  have h1 : 7 - k < 8 := by omega
  have h2 : 7 - k < 32 := by omega
  have h3 : ¬7 - k < 8 - r := by omega
  have h4 : r - 1 - k < r := by omega
  simp [h1, h2, h3, h4]

theorem getBody_spec (bb : BitBuffer) (body : List Byte) (n : Nat)
    (hroom : bb.pos + n ≤ bb.endBits) :
    ∃ b bb', getBody bb body n = .ok (b, bb') ∧
      window b 0 n = window bb.buffer bb.pos n ∧ Skip bb bb' n := by
  obtain ⟨full, b1, h1, hlen, hw, s1⟩ := getBodyBytes_spec (n / 8) bb (by omega)
  have e1 := s1.pos_eq
  have n1 := s1.end_eq
  have hn : n = 8 * (n / 8) + n % 8 := by omega
  by_cases hr : 0 < n % 8
  · obtain ⟨v, b2, h2, hv, s2⟩ := bbGetBits_spec b1 hr (by omega) (by omega)
    have h := window_append_bytes full (((v &&& lowMask (n % 8)) <<< (8 - n % 8)).setWidth 8 ::
      body.drop ((n + 7) / 8)) hlen (n % 8)
    rw [hw, msbBits_shifted_tail _ (by omega), hv.msbBits_eq (by omega), s1.buffer_eq, e1,
      ← window_add, ← hn] at h
    have hs := s1.trans s2
    rw [← hn] at hs
    refine ⟨_, b2, ?_, h, hs⟩
    simp only [getBody, h1, hr, h2, bind, Except.bind, pure, Except.pure, if_true]
  · have h8 : 8 * (n / 8) + 0 = n := by omega
    have h := window_append_bytes full (body.drop ((n + 7) / 8)) hlen 0
    rw [hw, window_zero, List.append_nil, h8, (by omega : 8 * (n / 8) = n)] at h
    rw [(by omega : 8 * (n / 8) = n)] at s1
    refine ⟨_, b1, ?_, h, s1⟩
    simp only [getBody, h1, hr, bind, Except.bind, pure, Except.pure, if_false]

theorem getBodyIf_spec (bb : BitBuffer) (body : List Byte) (n : Nat)
    (hroom : bb.pos + n ≤ bb.endBits) :
    ∃ b bb', getBodyIf bb body n = .ok (b, bb') ∧
      window b 0 n = window bb.buffer bb.pos n ∧ Skip bb bb' n := by
  unfold getBodyIf
  by_cases hn : 0 < n
  · rw [if_pos hn]
    exact getBody_spec bb body n hroom
  · rw [if_neg hn, (by omega : n = 0)]
    exact ⟨body, bb, rfl, rfl, Skip.refl bb⟩

/-- The PDU type the four bits at the cursor stand for. -/
def typeAt (bb : BitBuffer) : LlcPduType :=
  LlcPduType.ofValue ((bbReadAt bb.buffer bb.pos 4).setWidth 8)

theorem llcPduTypeIsValid_eq (v : BitVec 8) :
    llcPduTypeIsValid v = decide (LlcPduType.ofValue v ≠ .unknown) := by
  revert v
  decide

/-- The frames `llc_pdu_decode` accepts when told that the body has `len` bits. -/
structure Fits (bb : BitBuffer) (len : Nat) : Prop where
  body_le : len ≤ llcPduBodyMaxBytes * 8
  type_fits : 4 ≤ bbRemaining bb
  known : typeAt bb ≠ .unknown
  fits : typeAt bb ≠ .alSetup →
    headerLen (typeAt bb) + len + fcsLen (typeAt bb) ≤ bbRemaining bb

/-- `pdu` holds exactly the bits at the cursor of `bb`, taken as a PDU with a body of
`len` bits. -/
structure DecodesTo (bb : BitBuffer) (len : Nat) (pdu : LlcPdu) : Prop where
  type_eq : pdu.pduType = typeAt bb
  len_eq : pdu.bodyLenBits = len
  nr_bit : pdu.nr = 0 ∨ pdu.nr = 1
  ns_bit : pdu.ns = 0 ∨ pdu.ns = 1
  covered_eq : pdu.covered = window bb.buffer bb.pos (headerLen (typeAt bb) + len)
  fcs_bits : llcPduTypeHasFcs (typeAt bb) = true →
    msbBits pdu.fcs 32 = window bb.buffer (bb.pos + (headerLen (typeAt bb) + len)) 32
  fcs_valid : pdu.fcsValid =
    (llcPduTypeHasFcs (typeAt bb) && pdu.fcs == Crc.crc llcCrc32Poly pdu.covered)

theorem holds_lt {v : BitVec 32} {buf : List Byte} {s n : Nat} (h : Holds v buf s (s + n)) :
    v.toNat < 2 ^ n := by
  refine Nat.lt_pow_two_of_testBit _ fun i hi => ?_
  by_cases h32 : i < 32
  · have := h i h32
    rwa [decide_eq_false (by omega), Bool.false_and] at this
  · exact BitVec.getLsbD_of_ge _ _ (Nat.le_of_not_lt h32)

theorem typeAt_bits (bb : BitBuffer) (h : typeAt bb ≠ .unknown) :
    msbBits (typeAt bb).value 4 = window bb.buffer bb.pos 4 := by
  have hv := holds_bbReadAt bb.buffer bb.pos 4
  have hback : ∀ v : BitVec 8, LlcPduType.ofValue v ≠ .unknown →
      (LlcPduType.ofValue v).value = v := by decide
  have hval : (typeAt bb).value = (bbReadAt bb.buffer bb.pos 4).setWidth 8 := hback _ h
  rw [hval, ← hv.msbBits_eq (by decide)]
  refine List.map_congr_left fun k hk => ?_
  have := List.mem_range.1 hk
  have h8 : 4 - 1 - k < 8 := by omega
  simp [h8]

theorem typeAt_eq (bb : BitBuffer) {t : LlcPduType} (ht : t ≠ .unknown)
    (h : window bb.buffer bb.pos 4 = msbBits t.value 4) : typeAt bb = t := by
  have hlt : (t.value.setWidth 32).toNat < 2 ^ 4 := by
    revert ht
    cases t <;> decide
  have hraw : bbReadAt bb.buffer bb.pos 4 = t.value.setWidth 32 := by
    refine (holds_bbReadAt bb.buffer bb.pos 4).eq_of_msbBits (by decide) hlt (h.trans ?_)
    cases t <;> rfl
  rw [typeAt]
  rw [hraw]
  cases t <;> rfl

/-- A sequence number field: absent it reads as 0, present it is one bit. -/
theorem ctrlBit_of_holds {v : BitVec 32} {buf : List Byte} {s : Nat} (c : Bool)
    (h : Holds v buf s (s + if c then 1 else 0)) :
    (v.setWidth 8 = 0 ∨ v.setWidth 8 = 1) ∧
      ctrlBit c (v.setWidth 8) = window buf s (if c then 1 else 0) := by
  have hlt : v.toNat < 2 := by
    have := holds_lt h
    cases c <;> simp at this <;> omega
  refine ⟨?_, ?_⟩
  · have hnat : (v.setWidth 8).toNat = v.toNat := by
      rw [BitVec.toNat_setWidth]
      omega
    obtain h0 | h1 : v.toNat = 0 ∨ v.toNat = 1 := by omega
    · exact Or.inl (BitVec.eq_of_toNat_eq (hnat.trans h0))
    · exact Or.inr (BitVec.eq_of_toNat_eq (hnat.trans h1))
  · cases c with
    | false => rfl
    | true =>
      have h0 := h 0 (by decide)
      simp only [if_true] at h0 ⊢
      rw [window_succ, window_zero]
      simpa [ctrlBit] using h0

/-- A sequence number that the type does not carry reads as 0. -/
structure LlcPdu.Clean (pdu : LlcPdu) : Prop where
  nr : llcPduTypeHasNr pdu.pduType = false → pdu.nr = 0
  ns : llcPduTypeHasNs pdu.pduType = false → pdu.ns = 0

theorem zero_of_holds {v : BitVec 32} {buf : List Byte} {s : Nat} {c : Bool}
    (h : Holds v buf s (s + if c then 1 else 0)) (hc : c = false) : v.setWidth 8 = 0 := by
  subst hc
  have hlt := holds_lt h
  rw [if_neg Bool.false_ne_true, Nat.pow_zero] at hlt
  have hzero : v = 0 := BitVec.eq_of_toNat_eq (Nat.lt_one_iff.1 hlt)
  rw [hzero]
  rfl

/-- `llc_pdu_decode` either rejects a frame that does not fit, or consumes an AL-SETUP, or
returns the bits of the frame and moves past them. -/
theorem llcPduDecode_moves (bb : BitBuffer) (out : LlcPdu) :
    (∃ e, llcPduDecode bb out = .error e ∧ ¬Fits bb out.bodyLenBits) ∨
      (∃ bb', llcPduDecode bb out = .ok ({ pduType := .alSetup, body := out.body }, bb') ∧
        Fits bb out.bodyLenBits ∧ typeAt bb = .alSetup ∧ Skip bb bb' 4) ∨
      (∃ pdu bb', llcPduDecode bb out = .ok (pdu, bb') ∧ Fits bb out.bodyLenBits ∧
        typeAt bb ≠ .alSetup ∧ DecodesTo bb out.bodyLenBits pdu ∧ pdu.Clean ∧
        Skip bb bb' (headerLen (typeAt bb) + out.bodyLenBits + fcsLen (typeAt bb))) := by
  rw [llcPduDecode]
  by_cases hbody : llcPduBodyMaxBytes * 8 < out.bodyLenBits
  · rw [if_pos hbody]
    exact Or.inl ⟨_, rfl, fun h => Nat.not_lt.2 h.body_le hbody⟩
  rw [if_neg hbody]
  by_cases h4 : bbRemaining bb < 4
  · rw [if_pos h4]
    exact Or.inl ⟨_, rfl, fun h => Nat.not_lt.2 h.type_fits h4⟩
  rw [if_neg h4]
  have hpos := bb.pos_le
  unfold bbRemaining at h4
  have hget : ∃ b1, bbGetBits bb 4 = .ok (bbReadAt bb.buffer bb.pos 4, b1) ∧ Skip bb b1 4 := by
    rw [bbGetBits]
    rw [if_pos (by decide), dif_pos (by omega)]
    exact ⟨_, rfl, rfl, rfl, rfl, rfl⟩
  obtain ⟨b1, h1, s1⟩ := hget
  have e1 := s1.pos_eq
  have n1 := s1.end_eq
  simp only [h1, bind, Except.bind, pure, Except.pure]
  have ht : LlcPduType.ofValue ((bbReadAt bb.buffer bb.pos 4).setWidth 8) = typeAt bb := rfl
  rw [llcPduTypeIsValid_eq, ht]
  by_cases hknown : typeAt bb = .unknown
  · rw [if_pos (by simp [hknown])]
    exact Or.inl ⟨_, rfl, fun h => h.known hknown⟩
  rw [if_neg (by simp [hknown])]
  by_cases hal : typeAt bb = .alSetup
  · rw [if_pos hal, hal]
    exact Or.inr (Or.inl ⟨b1, rfl, ⟨Nat.le_of_not_lt hbody, by unfold bbRemaining; omega, hknown,
      fun h => absurd hal h⟩, rfl, s1⟩)
  rw [if_neg hal]
  have htype := typeAt_bits bb hknown
  have hmisfit : ¬bb.pos + (headerLen (typeAt bb) + out.bodyLenBits + fcsLen (typeAt bb)) ≤
      bb.endBits → ¬Fits bb out.bodyLenBits := by
    intro hn h
    have := h.fits hal
    unfold bbRemaining at this
    omega
  unfold headerLen at hmisfit
  by_cases hctrl : bbRemaining b1 < (llcPduTypeHasNr (typeAt bb)).toNat +
      (llcPduTypeHasNs (typeAt bb)).toNat
  · rw [if_pos hctrl]
    unfold bbRemaining at hctrl
    exact Or.inl ⟨_, rfl, hmisfit (by omega)⟩
  rw [if_neg hctrl]
  unfold bbRemaining at hctrl
  have hp1 := b1.pos_le
  obtain ⟨nr, b2, h2, s2, hnr⟩ := getIf_spec (llcPduTypeHasNr (typeAt bb)) b1 le_rfl
    (by decide : 1 ≤ 32) (by rw [ite_toNat]; omega)
  have znr := zero_of_holds hnr
  obtain ⟨hnr, wnr⟩ := ctrlBit_of_holds _ hnr
  have e2 := s2.pos_eq
  rw [ite_toNat] at e2 s2 wnr
  have n2 := s2.end_eq
  obtain ⟨ns, b3, h3, s3, hns⟩ := getIf_spec (llcPduTypeHasNs (typeAt bb)) b2 le_rfl
    (by decide : 1 ≤ 32) (by rw [ite_toNat]; omega)
  have zns := zero_of_holds hns
  obtain ⟨hns, wns⟩ := ctrlBit_of_holds _ hns
  have e3 := s3.pos_eq
  rw [ite_toNat] at e3 s3 wns
  have n3 := s3.end_eq
  simp only [h2, h3]
  by_cases hb : 0 < out.bodyLenBits ∧ bbRemaining b3 < out.bodyLenBits
  · rw [if_pos hb]
    unfold bbRemaining at hb
    exact Or.inl ⟨_, rfl, hmisfit (by omega)⟩
  rw [if_neg hb]
  unfold bbRemaining at hb
  have hp3 := b3.pos_le
  obtain ⟨body, b4, h4', wbody, s4⟩ := getBodyIf_spec b3 out.body out.bodyLenBits (by omega)
  have e4 := s4.pos_eq
  have n4 := s4.end_eq
  simp only [h4']
  have hbuf : b4.buffer = bb.buffer := by
    rw [s4.buffer_eq, s3.buffer_eq, s2.buffer_eq, s1.buffer_eq]
  have s14 : Skip bb b4 (headerLen (typeAt bb) + out.bodyLenBits) := by
    have h := ((s1.trans s2).trans s3).trans s4
    rwa [headerLen]
  have hpos4 := s14.pos_eq
  have hcov : ∀ f c, LlcPdu.covered ⟨typeAt bb, nr.setWidth 8, ns.setWidth 8, out.bodyLenBits,
      body, f, c⟩ = window bb.buffer bb.pos (headerLen (typeAt bb) + out.bodyLenBits) := by
    intro f c
    simp only [LlcPdu.covered, LlcPdu.header, LlcPdu.bodyBits, headerLen]
    rw [htype, wnr, wns, wbody, s3.buffer_eq, s2.buffer_eq, s1.buffer_eq, e3, e2, e1]
    simp only [window_add, List.append_assoc, Nat.add_assoc]
  by_cases hfcs : llcPduTypeHasFcs (typeAt bb) = true
  · rw [if_pos hfcs]
    have hf32 : fcsLen (typeAt bb) = 32 := if_pos hfcs
    by_cases h32 : bbRemaining b4 < 32
    · rw [if_pos h32]
      unfold bbRemaining at h32
      exact Or.inl ⟨_, rfl, hmisfit (by omega)⟩
    rw [if_neg h32]
    unfold bbRemaining at h32
    have hp4 := b4.pos_le
    obtain ⟨got, b5, h5, hgot, s5⟩ := bbGetBits_spec b4 (by decide : 1 ≤ 32) le_rfl (by omega)
    have hwant : crc32OverBbWindow b4 (bbPosBits bb + bb.start) (bbPosBits b4 + b4.start) =
        Crc.crc llcCrc32Poly (window bb.buffer bb.pos (headerLen (typeAt bb) + out.bodyLenBits)) := by
      rw [bbPosBits_add_start, bbPosBits_add_start, hpos4, crc32OverBbWindow_eq, hbuf]
    simp only [h5, hwant]
    refine Or.inr (Or.inr ⟨_, b5, rfl, ⟨Nat.le_of_not_lt hbody, ?_, hknown, fun _ => ?_⟩, hal,
      ⟨rfl, rfl, hnr, hns, hcov _ _, fun _ => ?_, ?_⟩, ⟨znr, zns⟩, ?_⟩)
    · rw [bbRemaining]
      omega
    · rw [bbRemaining]
      omega
    · rw [hgot.msbBits_eq le_rfl, hbuf, hpos4]
    · rw [hcov, hfcs, Bool.true_and]
    · rw [hf32]
      exact s14.trans s5
  · rw [if_neg hfcs]
    have hf0 : fcsLen (typeAt bb) = 0 := if_neg hfcs
    refine Or.inr (Or.inr ⟨_, b4, rfl, ⟨Nat.le_of_not_lt hbody, ?_, hknown, fun _ => ?_⟩, hal,
      ⟨rfl, rfl, hnr, hns, hcov _ _, fun h => absurd h hfcs, ?_⟩, ⟨znr, zns⟩, ?_⟩)
    · rw [bbRemaining]
      omega
    · have := b4.pos_le
      rw [bbRemaining]
      omega
    · rw [Bool.not_eq_true] at hfcs
      rw [hfcs, Bool.false_and]
    · rw [hf0]
      exact s14

theorem llcPduDecode_cases (bb : BitBuffer) (out : LlcPdu) :
    (∃ e, llcPduDecode bb out = .error e ∧ ¬Fits bb out.bodyLenBits) ∨
      (∃ bb', llcPduDecode bb out = .ok ({ pduType := .alSetup, body := out.body }, bb') ∧
        Fits bb out.bodyLenBits ∧ typeAt bb = .alSetup) ∨
      (∃ pdu bb', llcPduDecode bb out = .ok (pdu, bb') ∧ Fits bb out.bodyLenBits ∧
        typeAt bb ≠ .alSetup ∧ DecodesTo bb out.bodyLenBits pdu) := by
  obtain herr | ⟨b, hok, hfits, hal, -⟩ | ⟨q, b, hok, hfits, hal, hd, -, -⟩ := llcPduDecode_moves bb out
  · exact Or.inl herr
  · exact Or.inr (Or.inl ⟨b, hok, hfits, hal⟩)
  · exact Or.inr (Or.inr ⟨q, b, hok, hfits, hal, hd⟩)

end TetraBs
