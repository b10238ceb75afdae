import TetraBs.Umac.MacResourceDl

/-! The MAC-RESOURCE layout, and what a reader of it gets of the blocks the builder puts out. -/
namespace TetraBs.MacResourceDl
open TetraBs.Bits TetraBs.BitReader TetraBs.Packing TetraBs.Run

/-! The layout. -/

/-- The bits of an address by its type. -/
def addrBits : Nat → Nat
  | 1 => 24
  | 2 => 10
  | 3 => 24
  | 4 => 48
  | 5 => 34
  | 6 => 30
  | 7 => 58
  | _ => 0

structure MacHeader where
  fillBit : Nat
  randomAccess : Nat
  lengthInd : Nat
  addrType : Nat
  address : Nat
  powerControl : Option Nat
  slotGranting : Option Nat
  chanAlloc : Option Nat
deriving DecidableEq

/-- A header whose channel allocation element has `caLen` bits. -/
def readMacHeader (caLen : Nat) : Reader MacHeader := do
  expectField 2 0
  let fillBit ← takeField 1
  expectField 1 0
  expectField 2 0
  let randomAccess ← takeField 1
  let lengthInd ← takeField 6
  let addrType ← takeField 3
  let address ← takeField (addrBits addrType)
  let powerControl ← takeOptional 4
  let slotGranting ← takeOptional 8
  let chanAlloc ← takeOptional caLen
  return ⟨fillBit, randomAccess, lengthInd, addrType, address, powerControl, slotGranting,
    chanAlloc⟩

/-- Fill bits are a one and the zeros behind it. -/
def withoutFill (bs : List Bool) : List Bool :=
  ((bs.reverse.dropWhile fun b => !b).drop 1).reverse

/-- A PDU with its TM-SDU: as many octets as the header says. -/
def readMacResource (caLen : Nat) : Reader (MacHeader × List Bool) := fun bs =>
  match (readMacHeader caLen).run bs with
  | .error e => .error e
  | .ok (header, after) =>
    let n := 8 * header.lengthInd - (bs.length - after.length)
    let sdu := after.take n
    .ok ((header, if header.fillBit = 1 then withoutFill sdu else sdu), after.drop n)

/-- The LLC PDUs the builder makes, with the MM PDU inside. -/
inductive DlLlcPdu where
  | blAdata (nr ns : Bool) (mm : List Bool)
  | blData (ns : Bool) (mm : List Bool)
  | alSetup
  | l2Sig (mm : List Bool)
deriving DecidableEq

def readLlc : List Bool → Option DlLlcPdu
  | false :: false :: false :: false :: nr :: ns :: false :: false :: true :: mm =>
    some (.blAdata nr ns mm)
  | false :: false :: false :: true :: ns :: false :: false :: true :: mm => some (.blData ns mm)
  | [true, false, false, false] => some .alSetup
  | true :: true :: true :: false :: mm => some (.l2Sig mm)
  | _ => none

/-! The bits of a request. -/

def Header.bits (fillBit : Bool) (lengthInd : BitVec 6) (h : Header) : List Bool :=
  msbBits 0#2 2 ++ (msbBits (BitVec.ofBool fillBit) 1 ++ (msbBits 0#1 1 ++ (msbBits 0#2 2 ++
    (msbBits (BitVec.ofBool h.randomAccessFlag) 1 ++ (msbBits lengthInd 6 ++
      (msbBits h.addrType 3 ++ (msbBits h.ssi 24 ++ (flagged h.pcFlag h.pcElement 4 ++
        (flagged h.sgFlag h.sgElement 8 ++
          flagged h.caFlag h.caElement h.caElementLen.toNat)))))))))

def Header.header (fillBit : Bool) (lengthInd : BitVec 6) (h : Header) : MacHeader where
  fillBit := fillBit.toNat
  randomAccess := h.randomAccessFlag.toNat
  lengthInd := lengthInd.toNat
  addrType := h.addrType.toNat
  address := h.ssi.toNat
  powerControl := if h.pcFlag then some h.pcElement.toNat else none
  slotGranting := if h.sgFlag then some h.sgElement.toNat else none
  chanAlloc := if h.caFlag then some h.caElement.toNat else none

/-- The address is 24 bits long, and the channel allocation element is as long as it says. -/
structure Header.InRange (h : Header) : Prop where
  addr : addrBits h.addrType.toNat = 24
  chanAlloc : h.caFlag = true → h.caElement.toNat < 2 ^ h.caElementLen.toNat

theorem Header.InRange.reads {h : Header} (hr : h.InRange) (fillBit : Bool)
    (lengthInd : BitVec 6) :
    Reads (readMacHeader h.caElementLen.toNat) (h.bits fillBit lengthInd)
      (h.header fillBit lengthInd) := by
  have hflag : ∀ b : Bool, (BitVec.ofBool b).toNat % 2 ^ 1 = b.toNat := by decide
  have hlen : lengthInd.toNat % 2 ^ 6 = lengthInd.toNat := Nat.mod_eq_of_lt lengthInd.isLt
  have htype : h.addrType.toNat % 2 ^ 3 = h.addrType.toNat := Nat.mod_eq_of_lt h.addrType.isLt
  have hssi : h.ssi.toNat % 2 ^ 24 = h.ssi.toNat := Nat.mod_eq_of_lt h.ssi.isLt
  rw [Header.bits, readMacHeader, Header.header, ← hflag, ← hflag]
  refine (reads_expectField 0#2 2).bind ?_
  refine (reads_takeField (BitVec.ofBool fillBit) 1).bind ?_
  refine (reads_expectField 0#1 1).bind ?_
  refine (reads_expectField 0#2 2).bind ?_
  refine (reads_takeField (BitVec.ofBool h.randomAccessFlag) 1).bind ?_
  refine (reads_takeField lengthInd 6).bind ?_
  refine (reads_takeField h.addrType 3).bind ?_
  rw [hlen, htype, hr.addr]
  refine (reads_takeField h.ssi 24).bind ?_
  rw [hssi]
  refine (reads_flagged h.pcFlag h.pcElement fun _ => h.pcElement.isLt).bind ?_
  refine (reads_flagged h.sgFlag h.sgElement fun _ => h.sgElement.isLt).bind ?_
  exact (reads_flagged h.caFlag h.caElement hr.chanAlloc).bind_end (reads_pure _)

/-! The header in the vector. -/

section
variable {P : Nat} {x v : BitVec P} {bs : List Bool} {m a : Nat}

theorem shiftUp_of_le (v : BitVec P) (ha : a ≤ P) : shiftUp v P a = v <<< (P - a) := if_pos ha

theorem packed_shiftUp (h : Packed x bs) (hv : v.toNat < 2 ^ m) (ha : bs.length + m = a)
    (hP : a ≤ P) : Packed (x ||| shiftUp v P a) (bs ++ msbBits v m) := by
  rw [shiftUp_of_le v hP]
  exact h.or hv (by omega)

/-- A flag, and its element if it is set. -/
theorem packed_flagged {w a b : Nat} (h : Packed x bs) (c : Bool) {u : BitVec w}
    (hu : c = true → u.toNat < 2 ^ m) (hw : c = true → m ≤ w) (ha : bs.length + 1 = a)
    (hb : a + m = b) (hP : a + (if c then m else 0) ≤ P) (hwP : w ≤ P) :
    Packed (x ||| shiftUp ((BitVec.ofBool c).setWidth P) P a |||
      (if c then shiftUp (u.setWidth P) P b else 0)) (bs ++ flagged c u m) := by
  have hone : ((BitVec.ofBool c).setWidth P).toNat < 2 ^ 1 := by
    rw [BitVec.toNat_setWidth]
    exact Nat.lt_of_le_of_lt (Nat.mod_le _ _) (BitVec.ofBool c).isLt
  have hflag := packed_shiftUp h hone ha (by omega)
  rw [msbBits_widen _ (by omega)] at hflag
  cases c with
  | false =>
    have hzero : ∀ y : BitVec P, y ||| 0 = y := fun y => BitVec.or_zero
    rw [if_neg Bool.false_ne_true, hzero, flagged, fieldIf, if_neg Bool.false_ne_true,
      List.append_nil]
    exact hflag
  | true =>
    have hvalue : (u.setWidth P).toNat < 2 ^ m := by
      rw [BitVec.toNat_setWidth_of_le hwP]
      exact hu rfl
    have hlen : (bs ++ msbBits (BitVec.ofBool true) 1).length + m = b := by
      rw [List.length_append, msbBits_length, ha]
      exact hb
    have hfit : b ≤ P := by
      rw [if_pos rfl] at hP
      omega
    have hboth := packed_shiftUp hflag hvalue hlen hfit
    rw [msbBits_widen _ (Nat.le_trans (hw rfl) hwP), List.append_assoc] at hboth
    rw [if_pos rfl, flagged, fieldIf, if_pos rfl]
    exact hboth

end

theorem msbBits_base (fill : BitVec 1) (ra : BitVec 1) (len : BitVec 6) (type : BitVec 3)
    (ssi : BitVec 24) :
    msbBits (0#2 ++ fill ++ 0#1 ++ 0#2 ++ ra ++ len ++ type ++ ssi : BitVec 40) 40 =
      msbBits 0#2 2 ++ (msbBits fill 1 ++ (msbBits 0#1 1 ++ (msbBits 0#2 2 ++ (msbBits ra 1 ++
        (msbBits len 6 ++ (msbBits type 3 ++ msbBits ssi 24)))))) := by
  show msbBits (0#2 ++ fill ++ 0#1 ++ 0#2 ++ ra ++ len ++ type ++ ssi)
    (2 + 1 + 1 + 2 + 1 + 6 + 3 + 24) = _
  rw [msbBits_append, msbBits_append, msbBits_append, msbBits_append, msbBits_append,
    msbBits_append, msbBits_append]
  simp only [List.append_assoc]

/-- The length of a header. -/
def Header.length (h : Header) : Nat :=
  43 + (if h.pcFlag then 4 else 0) + (if h.sgFlag then 8 else 0) +
    (if h.caFlag then h.caElementLen.toNat else 0)

theorem Header.bits_length (h : Header) (fillBit : Bool) (lengthInd : BitVec 6) :
    (h.bits fillBit lengthInd).length = h.length := by
  simp only [Header.bits, flagged, List.length_append, msbBits_length, fieldIf_length,
    Header.length]
  omega

theorem Header.hdrBits_toNat (h : Header) : h.hdrBits.toNat = h.length := by
  have hlen := h.caElementLen.isLt
  rw [Header.hdrBits, Header.length]
  cases h.pcFlag <;> cases h.sgFlag <;> cases h.caFlag <;>
    simp [BitVec.toNat_add, BitVec.toNat_setWidth] <;> omega

theorem Header.InRange.packed {h : Header} (hr : h.InRange) {P : Nat} (hP : h.length ≤ P)
    (fillBit : Bool) (lengthInd : BitVec 6) :
    Packed (packHeader P fillBit lengthInd h) (h.bits fillBit lengthInd) := by
  have hlow : 43 ≤ P := Nat.le_trans (by rw [Header.length]; omega) hP
  have hword : ((0#2 ++ BitVec.ofBool fillBit ++ 0#1 ++ 0#2 ++ BitVec.ofBool h.randomAccessFlag ++
      lengthInd ++ h.addrType ++ h.ssi : BitVec 40).setWidth P).toNat < 2 ^ 40 := by
    rw [BitVec.toNat_setWidth_of_le (by omega)]
    exact BitVec.isLt _
  have hbase := packed_shiftUp (a := 40) packed_zero hword rfl (Nat.le_trans (by decide) hlow)
  have hzero : ∀ y : BitVec P, 0 ||| y = y := fun y => BitVec.zero_or
  rw [msbBits_widen _ (by omega), msbBits_base, hzero, List.nil_append] at hbase
  rw [Header.length] at hP
  have hpc := packed_flagged (m := 4) (a := 41) (b := 45) hbase h.pcFlag
    (fun _ => h.pcElement.isLt) (fun _ => Nat.le_refl 4) rfl rfl (by omega) (by omega)
  have hsg := packed_flagged (m := 8) (a := 41 + 1 + if h.pcFlag then 4 else 0)
    (b := 42 + 8 + if h.pcFlag then 4 else 0) hpc h.sgFlag
    (fun _ => h.sgElement.isLt) (fun _ => Nat.le_refl 8)
    (by simp only [List.length_append, msbBits_length, flagged, fieldIf_length]; omega)
    (by omega) (by omega) (by omega)
  have hca := packed_flagged (m := h.caElementLen.toNat)
    (a := 42 + 1 + (if h.pcFlag then 4 else 0) + if h.sgFlag then 8 else 0)
    (b := 43 + (if h.pcFlag then 4 else 0) + (if h.sgFlag then 8 else 0) + h.caElementLen.toNat)
    hsg h.caFlag hr.chanAlloc (fun _ => by have hlt := h.caElementLen.isLt; omega)
    (by simp only [List.length_append, msbBits_length, flagged, fieldIf_length]; omega)
    (by omega) (by omega) (by omega)
  simpa only [packHeader, Header.bits, List.append_assoc, BitVec.or_assoc] using hca

/-! The LLC PDU in the buffer. -/

def DlLlcPdu.bits : DlLlcPdu → List Bool
  | .blAdata nr ns mm =>
    false :: false :: false :: false :: nr :: ns :: false :: false :: true :: mm
  | .blData ns mm => false :: false :: false :: true :: ns :: false :: false :: true :: mm
  | .alSetup => [true, false, false, false]
  | .l2Sig mm => true :: true :: true :: false :: mm

theorem readLlc_bits (p : DlLlcPdu) : readLlc p.bits = some p := by
  cases p <;> rfl

/-- The MM PDU. -/
def Request.mm (r : Request) : List Bool :=
  (msbBits r.mmPduBits 128).take r.mmPduLenBits.toNat

/-- The LLC PDU asked for. What is none of the other types is BL-DATA. -/
def Request.llc (r : Request) : DlLlcPdu :=
  if r.llcPduType = llcPdutL2sig then .l2Sig r.mm
  else if r.llcPduType = llcPdutAlSetup then .alSetup
  else if r.llcPduType = llcPdutBlAdata then .blAdata r.nr r.ns r.mm
  else .blData r.ns r.mm

/-- The top of three parts, up to somewhere in the second. -/
theorem take_parts {α : Type} {front mid : List α} (back : List α) {n : Nat}
    (hn : n ≤ mid.length) :
    (front ++ (mid ++ back)).take (front.length + n) = front ++ mid.take n := by
  rw [List.take_length_add_append, List.take_append_of_le_length hn]

section
variable {r : Request}

theorem Request.mm_length (hmm : r.mmPduLenBits.toNat ≤ 128) :
    r.mm.length = r.mmPduLenBits.toNat := by
  rw [Request.mm, List.length_take, msbBits_length]
  omega

theorem llcCovLen_toNat (hmm : r.mmPduLenBits.toNat ≤ 128) :
    (lengths r).llcCovLen.toNat = r.llc.bits.length := by
  have hlen := r.mm_length hmm
  have hwide : (r.mmPduLenBits.setWidth 9).toNat = r.mmPduLenBits.toNat := by
    rw [BitVec.toNat_setWidth]
    omega
  have hfield : ∀ {k : BitVec 9}, k.toNat ≤ 16 →
      (k + r.mmPduLenBits.setWidth 9).toNat = k.toNat + r.mm.length := by
    intro k hk
    rw [BitVec.toNat_add, hwide, hlen]
    omega
  rw [Request.llc, lengths]
  by_cases h1 : r.llcPduType = llcPdutL2sig
  · simp only [if_pos h1, DlLlcPdu.bits, List.length_cons]
    rw [hfield (by decide)]
    exact Nat.add_comm _ _
  by_cases h2 : r.llcPduType = llcPdutAlSetup
  · simp only [if_neg h1, if_pos h2, DlLlcPdu.bits]
    rfl
  by_cases h3 : r.llcPduType = llcPdutBlAdata
  · simp only [if_neg h1, if_neg h2, if_pos h3, DlLlcPdu.bits, List.length_cons]
    rw [← BitVec.add_assoc, hfield (by decide)]
    exact Nat.add_comm _ _
  · simp only [if_neg h1, if_neg h2, if_neg h3, DlLlcPdu.bits, List.length_cons]
    rw [← BitVec.add_assoc, hfield (by decide)]
    exact Nat.add_comm _ _

theorem llcWord_take (hmm : r.mmPduLenBits.toNat ≤ 128) :
    (msbBits (llcWord r) 144).take r.llc.bits.length = r.llc.bits := by
  have hmm' : r.mmPduLenBits.toNat ≤ (msbBits r.mmPduBits 128).length := by
    rw [msbBits_length]
    exact hmm
  have hlen := r.mm_length hmm
  have hparts : ∀ {k l : Nat} (front : BitVec k) (back : BitVec l) (word : BitVec 144)
      (bits : List Bool), msbBits word 144 = msbBits front k ++ (msbBits r.mmPduBits 128 ++
        msbBits back l) → bits = msbBits front k ++ r.mm →
      (msbBits word 144).take bits.length = bits := by
    intro k l front back word bits hword hbits
    rw [hbits, hword, List.length_append, hlen]
    exact take_parts (msbBits back l) hmm'
  rw [llcWord, Request.llc]
  by_cases h1 : r.llcPduType = llcPdutL2sig
  · rw [if_pos h1, if_pos h1]
    refine hparts llcPdutL2sig 0#12 _ _ ?_ rfl
    show msbBits (llcPdutL2sig ++ r.mmPduBits ++ 0#12) (4 + 128 + 12) = _
    rw [msbBits_append, msbBits_append, List.append_assoc]
  by_cases h2 : r.llcPduType = llcPdutAlSetup
  · rw [if_neg h1, if_neg h1, if_pos h2, if_pos h2]
    decide
  by_cases h3 : r.llcPduType = llcPdutBlAdata
  · rw [if_neg h1, if_neg h1, if_neg h2, if_neg h2, if_pos h3, if_pos h3]
    refine hparts (0#1 ++ 0#1 ++ 0#2 ++ BitVec.ofBool r.nr ++ BitVec.ofBool r.ns ++ mlePdMm) 0#7
      _ _ ?_ ?_
    · show msbBits (0#1 ++ 0#1 ++ 0#2 ++ BitVec.ofBool r.nr ++ BitVec.ofBool r.ns ++ mlePdMm ++
        r.mmPduBits ++ 0#7) (1 + 1 + 2 + 1 + 1 + 3 + 128 + 7) = _
      rw [msbBits_append, msbBits_append, List.append_assoc]
    · cases r.nr <;> cases r.ns <;> rfl
  · rw [if_neg h1, if_neg h1, if_neg h2, if_neg h2, if_neg h3, if_neg h3]
    refine hparts (0#1 ++ 0#1 ++ 1#2 ++ BitVec.ofBool r.ns ++ mlePdMm) 0#8 _ _ ?_ ?_
    · show msbBits (0#1 ++ 0#1 ++ 1#2 ++ BitVec.ofBool r.ns ++ mlePdMm ++ r.mmPduBits ++ 0#8)
        (1 + 1 + 2 + 1 + 3 + 128 + 8) = _
      rw [msbBits_append, msbBits_append, List.append_assoc]
    · cases r.ns <;> rfl

/-! Lengths. -/

def octets (n : Nat) : Nat := (n + 7) / 8

/-- The bits of the first PDU before its fill bits. -/
def Request.total (r : Request) : Nat := r.first.length + r.llc.bits.length

def Request.fill (r : Request) : Bool := decide (r.total % 8 ≠ 0)

def Request.lengthInd (r : Request) : BitVec 6 := BitVec.ofNat 6 (octets r.total)

/-- The TM-SDU of the second PDU. -/
def Request.tlSdu (r : Request) : List Bool :=
  (msbBits r.secondTlSdu 80).take r.secondTlSduLen.toNat

def Request.total2 (r : Request) : Nat := r.second.length + r.tlSdu.length

def Request.fill2 (r : Request) : Bool := decide (r.total2 % 8 ≠ 0)

theorem Header.length_le (h : Header) : h.length ≤ 86 := by
  have hlen := h.caElementLen.isLt
  rw [Header.length]
  cases h.pcFlag <;> cases h.sgFlag <;> cases h.caFlag <;> simp <;> omega

theorem DlLlcPdu.bits_length_le (hmm : r.mmPduLenBits.toNat ≤ 128) : r.llc.bits.length ≤ 137 := by
  have hlen := r.mm_length hmm
  rw [Request.llc]
  split
  · simp only [DlLlcPdu.bits, List.length_cons]
    omega
  split
  · decide
  split
  · simp only [DlLlcPdu.bits, List.length_cons]
    omega
  · simp only [DlLlcPdu.bits, List.length_cons]
    omega

theorem Request.total_le (hmm : r.mmPduLenBits.toNat ≤ 128) : r.total ≤ 223 := by
  have hfirst := r.first.length_le
  have hllc := DlLlcPdu.bits_length_le hmm
  rw [Request.total]
  omega

theorem Request.total2_le (r : Request) : r.total2 ≤ 166 := by
  have hsecond := r.second.length_le
  have hsdu : r.tlSdu.length ≤ 80 := by
    rw [Request.tlSdu, List.length_take, msbBits_length]
    exact Nat.min_le_right _ _
  rw [Request.total2]
  omega

theorem octets_toNat {v : BitVec 9} {n : Nat} (hv : v.toNat = n) (hn : n ≤ 504) :
    ((v + 7) >>> 3).toNat = octets n := by
  have hseven : (7 : BitVec 9).toNat = 7 := rfl
  rw [BitVec.toNat_ushiftRight, BitVec.toNat_add, hv, hseven, Nat.shiftRight_eq_div_pow, octets]
  omega

theorem unaligned_eq {v : BitVec 9} {n : Nat} (hv : v.toNat = n) :
    unaligned v = decide (n % 8 ≠ 0) := by
  refine decide_eq_decide.2 (not_congr ?_)
  rw [← BitVec.toNat_inj, BitVec.toNat_setWidth, hv]
  rfl

theorem macTotalBits_toNat (hmm : r.mmPduLenBits.toNat ≤ 128) :
    (lengths r).macTotalBits.toNat = r.total := by
  have hle := Request.total_le hmm
  have hsum : (lengths r).macTotalBits = r.first.hdrBits + (lengths r).llcCovLen := rfl
  rw [hsum, BitVec.toNat_add, Header.hdrBits_toNat, llcCovLen_toNat hmm]
  rw [Request.total] at hle ⊢
  omega

theorem macTotalOctets_toNat (hmm : r.mmPduLenBits.toNat ≤ 128) :
    (lengths r).macTotalOctets.toNat = octets r.total :=
  octets_toNat (macTotalBits_toNat hmm) (Nat.le_trans (Request.total_le hmm) (by decide))

theorem lengthInd_eq (hmm : r.mmPduLenBits.toNat ≤ 128) : (lengths r).lengthInd = r.lengthInd := by
  have hdef : (lengths r).lengthInd = (lengths r).macTotalOctets.setWidth 6 := rfl
  refine BitVec.eq_of_toNat_eq ?_
  rw [hdef, BitVec.toNat_setWidth, macTotalOctets_toNat hmm, Request.lengthInd, BitVec.toNat_ofNat]

theorem fillBitInd_eq (hmm : r.mmPduLenBits.toNat ≤ 128) : (lengths r).fillBitInd = r.fill :=
  unaligned_eq (macTotalBits_toNat hmm)

theorem offset_toNat (hmm : r.mmPduLenBits.toNat ≤ 128) :
    (lengths r).offsetPdu2Msb.toNat = 8 * octets r.total := by
  have hle := Request.total_le hmm
  rw [Lengths.offsetPdu2Msb, BitVec.toNat_shiftLeft, macTotalOctets_toNat hmm,
    Nat.shiftLeft_eq, octets]
  omega

theorem tlSdu_length (hsdu : r.secondTlSduLen.toNat ≤ 80) :
    r.tlSdu.length = r.secondTlSduLen.toNat := by
  rw [Request.tlSdu, List.length_take, msbBits_length]
  omega

theorem pdu2TotalBits_toNat (hsdu : r.secondTlSduLen.toNat ≤ 80) :
    (lengths r).pdu2TotalBits.toNat = r.total2 := by
  have hle := r.total2_le
  have hsum : (lengths r).pdu2TotalBits = r.second.hdrBits + r.secondTlSduLen.setWidth 9 := rfl
  rw [Request.total2, tlSdu_length hsdu] at hle
  rw [hsum, BitVec.toNat_add, Header.hdrBits_toNat, BitVec.toNat_setWidth, Request.total2,
    tlSdu_length hsdu]
  omega

theorem pdu2TotalOctets_toNat (hsdu : r.secondTlSduLen.toNat ≤ 80) :
    (lengths r).pdu2TotalOctets.toNat = octets r.total2 :=
  octets_toNat (pdu2TotalBits_toNat hsdu) (Nat.le_trans r.total2_le (by decide))

theorem pdu2FillBitInd_eq (hsdu : r.secondTlSduLen.toNat ≤ 80) :
    (lengths r).pdu2FillBitInd = r.fill2 :=
  unaligned_eq (pdu2TotalBits_toNat hsdu)

end

end TetraBs.MacResourceDl
