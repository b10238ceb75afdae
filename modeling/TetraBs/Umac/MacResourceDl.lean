import TetraBs.Lib.Packing
import TetraBs.Lib.Run

/-! The downlink MAC-RESOURCE builder `tetra_mac_resource_dl_builder`. `P` is `PDU_BITS` and `B` is
`LLC_BUF_BITS`; the highest bit of a vector is the first on air. One step is one rising clock
edge. -/
namespace TetraBs.MacResourceDl
open TetraBs.Run

/-- The inputs both PDUs have. -/
structure Header where
  randomAccessFlag : Bool
  addrType : BitVec 3
  ssi : BitVec 24
  pcFlag : Bool
  pcElement : BitVec 4
  sgFlag : Bool
  sgElement : BitVec 8
  caFlag : Bool
  caElement : BitVec 32
  caElementLen : BitVec 5
deriving DecidableEq

/-- What is latched at the start. -/
structure Request where
  first : Header
  ns : Bool
  nr : Bool
  llcPduType : BitVec 4
  mmPduBits : BitVec 128
  mmPduLenBits : BitVec 8
  secondValid : Bool
  secondLengthInd : BitVec 6
  second : Header
  secondTlSdu : BitVec 80
  secondTlSduLen : BitVec 7
deriving DecidableEq

structure Input where
  start : Bool
  request : Request

def llcPdutAlSetup : BitVec 4 := 8
def llcPdutL2sig : BitVec 4 := 14
def llcPdutBlAdata : BitVec 4 := 0
def mlePdMm : BitVec 3 := 1

/-- The derived lengths. -/
structure Lengths where
  tlSduLen : BitVec 9
  llcHdrBits : BitVec 4
  llcCovLen : BitVec 9
  macTmSduLen : BitVec 9
  macHdrBits : BitVec 9
  macTotalBits : BitVec 9
  macTotalOctets : BitVec 9
  lengthInd : BitVec 6
  fillBitInd : Bool
  pdu2HdrBits : BitVec 9
  pdu2TotalBits : BitVec 9
  pdu2TotalOctets : BitVec 9
  pdu2FillBitInd : Bool

def Lengths.reset : Lengths := ⟨0, 0, 0, 0, 0, 0, 0, 0, false, 0, 0, 0, false⟩

/-- `mac_hdr_bits_c` and `pdu2_hdr_bits_c`. -/
def Header.hdrBits (h : Header) : BitVec 9 :=
  40 + 3 + (if h.pcFlag then 4 else 0) + (if h.sgFlag then 8 else 0) +
    (if h.caFlag then h.caElementLen.setWidth 9 else 0)

/-- Some of the three lowest bits is set. -/
def unaligned (total : BitVec 9) : Bool := total.setWidth 3 ≠ 0

def lengths (r : Request) : Lengths :=
  let mmLen : BitVec 9 := r.mmPduLenBits.setWidth 9
  let tlSduLen : BitVec 9 :=
    if r.llcPduType = llcPdutL2sig then mmLen
    else if r.llcPduType = llcPdutAlSetup then 0
    else 3 + mmLen
  let llcHdrBits : BitVec 4 :=
    if r.llcPduType = llcPdutL2sig then 4
    else if r.llcPduType = llcPdutAlSetup then 4
    else if r.llcPduType = llcPdutBlAdata then 6
    else 5
  let llcCovLen := llcHdrBits.setWidth 9 + tlSduLen
  let macHdrBits := r.first.hdrBits
  let macTotalBits := macHdrBits + llcCovLen
  let macTotalOctets := (macTotalBits + 7) >>> 3
  let pdu2HdrBits := r.second.hdrBits
  let pdu2TotalBits := pdu2HdrBits + r.secondTlSduLen.setWidth 9
  { tlSduLen := tlSduLen
    llcHdrBits := llcHdrBits
    llcCovLen := llcCovLen
    macTmSduLen := llcCovLen
    macHdrBits := macHdrBits
    macTotalBits := macTotalBits
    macTotalOctets := macTotalOctets
    lengthInd := macTotalOctets.setWidth 6
    fillBitInd := unaligned macTotalBits
    pdu2HdrBits := pdu2HdrBits
    pdu2TotalBits := pdu2TotalBits
    pdu2TotalOctets := (pdu2TotalBits + 7) >>> 3
    pdu2FillBitInd := unaligned pdu2TotalBits }

/-! Shifts. -/

section
variable {P : Nat}

/-- `x << (a - b)`. A difference below zero wraps, and nothing is left. -/
def shiftUp (x : BitVec P) (a b : Nat) : BitVec P := if b ≤ a then x <<< (a - b) else 0

/-- `x >> (a - b)`. -/
def shiftDown (x : BitVec P) (a b : Nat) : BitVec P := if b ≤ a then x >>> (a - b) else 0

/-- `x[P - 1 - k] <= 1`. An index outside the vector writes nothing. -/
def setFromTop (x : BitVec P) (k : Nat) : BitVec P :=
  if k < P then x ||| BitVec.twoPow P (P - 1 - k) else x

/-- The header at the top of the vector: 40 bits, then the three flags, each with its element if
it is set. -/
def packHeader (P : Nat) (fillBitInd : Bool) (lengthInd : BitVec 6) (h : Header) : BitVec P :=
  let base : BitVec 40 :=
    0#2 ++ BitVec.ofBool fillBitInd ++ 0#1 ++ 0#2 ++ BitVec.ofBool h.randomAccessFlag ++
      lengthInd ++ h.addrType ++ h.ssi
  let pcLen := if h.pcFlag then 4 else 0
  let sgLen := if h.sgFlag then 8 else 0
  shiftUp (base.setWidth P) P 40
    ||| shiftUp ((BitVec.ofBool h.pcFlag).setWidth P) P 41
    ||| (if h.pcFlag then shiftUp (h.pcElement.setWidth P) P 45 else 0)
    ||| shiftUp ((BitVec.ofBool h.sgFlag).setWidth P) P (41 + 1 + pcLen)
    ||| (if h.sgFlag then shiftUp (h.sgElement.setWidth P) P (42 + 8 + pcLen) else 0)
    ||| shiftUp ((BitVec.ofBool h.caFlag).setWidth P) P (42 + 1 + pcLen + sgLen)
    ||| (if h.caFlag then
          shiftUp (h.caElement.setWidth P) P (43 + pcLen + sgLen + h.caElementLen.toNat)
        else 0)

end

/-! The state machine. -/

inductive State where
  | idle | assembleInner | llcHead | macHead | pad | done
deriving DecidableEq

structure Builder (P B : Nat) where
  state : State
  lat : Request
  lens : Lengths
  llcBuf : BitVec B
  completePduBits : BitVec P
  pduBits : BitVec P
  valid : Bool

def Header.reset : Header := ⟨false, 0, 0, false, 0, false, 0, false, 0, 0⟩

def Request.reset : Request :=
  { first := Header.reset, ns := false, nr := false, llcPduType := 1, mmPduBits := 0
    mmPduLenBits := 0, secondValid := false, secondLengthInd := 0, second := Header.reset
    secondTlSdu := 0, secondTlSduLen := 0 }

def Builder.reset (P B : Nat) : Builder P B :=
  ⟨.idle, Request.reset, Lengths.reset, 0, 0, 0, false⟩

/-- What `S_LLC_HEAD` assigns to the buffer: 144 bits, whatever its width. -/
def llcWord (r : Request) : BitVec 144 :=
  if r.llcPduType = llcPdutL2sig then llcPdutL2sig ++ r.mmPduBits ++ 0#12
  else if r.llcPduType = llcPdutAlSetup then llcPdutAlSetup ++ 0#140
  else if r.llcPduType = llcPdutBlAdata then
    0#1 ++ 0#1 ++ 0#2 ++ BitVec.ofBool r.nr ++ BitVec.ofBool r.ns ++ mlePdMm ++ r.mmPduBits ++ 0#7
  else 0#1 ++ 0#1 ++ 1#2 ++ BitVec.ofBool r.ns ++ mlePdMm ++ r.mmPduBits ++ 0#8

section
variable {P B : Nat}

def Lengths.offsetPdu2Msb (l : Lengths) : BitVec 9 := l.macTotalOctets <<< 3

def pdu2Top (P : Nat) (r : Request) (l : Lengths) : BitVec P :=
  packHeader P l.pdu2FillBitInd r.secondLengthInd r.second
    ||| shiftUp ((r.secondTlSdu.setWidth P) >>> (80 - r.secondTlSduLen).toNat) P
      (l.pdu2HdrBits.toNat + r.secondTlSduLen.toNat)

def pdu2Placed (P : Nat) (r : Request) (l : Lengths) : BitVec P :=
  if r.secondValid then pdu2Top P r l >>> l.offsetPdu2Msb.toNat else 0

/-- `S_MAC_HEAD`. -/
def macHead (P : Nat) (r : Request) (l : Lengths) (llcBuf : BitVec B) : BitVec P :=
  packHeader P l.fillBitInd l.lengthInd r.first
    ||| shiftUp (shiftDown (llcBuf.setWidth P) B l.llcCovLen.toNat) P
      (l.macHdrBits.toNat + l.llcCovLen.toNat)
    ||| pdu2Placed P r l

/-- `S_PAD`. -/
def padBits (r : Request) (l : Lengths) (x : BitVec P) : BitVec P :=
  let pduBits := P % 512
  let total := l.macTotalBits.toNat
  let offset := l.offsetPdu2Msb.toNat
  let octets2 := 8 * l.pdu2TotalOctets.toNat
  let x := if l.fillBitInd then setFromTop x total else x
  if r.secondValid then
    let x := if l.pdu2FillBitInd then setFromTop x (offset + l.pdu2TotalBits.toNat) else x
    if (offset + octets2) % 4096 < pduBits then setFromTop x (offset + octets2) else x
  else if !l.fillBitInd && decide (total < pduBits) then setFromTop x total
  else x

def step (s : Builder P B) (i : Input) : Builder P B :=
  let s := { s with valid := false }
  match s.state with
  | .idle => if i.start then { s with lat := i.request, state := .assembleInner } else s
  | .assembleInner => { s with lens := lengths s.lat, state := .llcHead }
  | .llcHead => { s with llcBuf := (llcWord s.lat).setWidth B, state := .macHead }
  | .macHead =>
    { s with completePduBits := macHead P s.lat s.lens s.llcBuf, state := .pad }
  | .pad => { s with completePduBits := padBits s.lat s.lens s.completePduBits, state := .done }
  | .done => { s with pduBits := s.completePduBits, valid := true, state := .idle }

/-- What is put out six clocks after the start. -/
def built (P B : Nat) (r : Request) : BitVec P :=
  padBits r (lengths r) (macHead P r (lengths r) ((llcWord r).setWidth B))

theorem step_start {s : Builder P B} (hs : s.state = .idle) {i : Input} (hi : i.start = true) :
    step s i = { s with valid := false, lat := i.request, state := .assembleInner } := by
  simp only [step, hs, hi, if_true]

/-- A start in the idle state leads to the block, whatever the inputs are meanwhile. -/
theorem exec_start {s : Builder P B} (hs : s.state = .idle) {i : Input} (hi : i.start = true)
    (a b c d e : Input) :
    (exec step s [i, a, b, c, d, e]).valid = true ∧
      (exec step s [i, a, b, c, d, e]).pduBits = built P B i.request ∧
      (exec step s [i, a, b, c, d, e]).state = .idle := by
  rw [exec, step_start hs hi]
  exact ⟨rfl, rfl, rfl⟩

end

end TetraBs.MacResourceDl
