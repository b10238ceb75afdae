import TetraBs.Lib.Run

/-! The uplink MAC-ACCESS parser `tetra_ul_mac_access_parser` and the reassembly
`tetra_ul_demand_reassembly`, wired as the port contract says. One step is one rising clock
edge. -/
namespace TetraBs.UlAccess
open TetraBs.Run

abbrev Info := BitVec 92

/-- The field of `n` bits from on-air bit `start` on, first bit highest. -/
def field (info : Info) (start n : Nat) : BitVec n := (info.extractLsb' start n).reverse

/-! Parser, combinational part. -/

def fPduType (info : Info) : Bool := info.getLsbD 0
def fFillBit (info : Info) : Bool := info.getLsbD 1
def fEncryptionMode (info : Info) : Bool := info.getLsbD 2
def fAddrType (info : Info) : BitVec 2 := field info 3 2
def fIssi (info : Info) : BitVec 24 := field info 5 24
def fEventLabel (info : Info) : BitVec 10 := field info 5 10
def fOptFlag (info : Info) : Bool := info.getLsbD 29
def fLengthOrCap (info : Info) : Bool := info.getLsbD 30
def fLengthInd (info : Info) : BitVec 5 := field info 31 5
def fFragFlag (info : Info) : Bool := info.getLsbD 31
def fReservationReq (info : Info) : BitVec 4 := field info 32 4

def tlSduStart (info : Info) : Nat := if fOptFlag info then 36 else 30

def fLlcLinkType (info : Info) : Bool := info.getLsbD (tlSduStart info)
def fLlcHasFcs (info : Info) : Bool := info.getLsbD (tlSduStart info + 1)
def fLlcBlPduType (info : Info) : BitVec 2 := field info (tlSduStart info + 2) 2

def fIsBlAck (info : Info) : Bool := !fLlcLinkType info && fLlcBlPduType info = 0b11
def fIsBlAdata (info : Info) : Bool := !fLlcLinkType info && fLlcBlPduType info = 0b00
def fIsBlData (info : Info) : Bool := !fLlcLinkType info && fLlcBlPduType info = 0b01

def fNsValid (info : Info) : Bool := fIsBlAdata info || fIsBlData info
def fNrValid (info : Info) : Bool := fIsBlAdata info || fIsBlAck info
def fNsBit (info : Info) : Bool := info.getLsbD (tlSduStart info + 4)
def fNrBit (info : Info) : Bool :=
  if fIsBlAdata info then info.getLsbD (tlSduStart info + 5)
  else info.getLsbD (tlSduStart info + 4)

def llcPayloadStart (info : Info) : Nat :=
  tlSduStart info + (if fIsBlAdata info then 6 else if fIsBlData info then 5 else 4)

def fLlcMlePd (info : Info) : BitVec 3 := field info (llcPayloadStart info) 3
def fLlcMmPduType (info : Info) : BitVec 4 := field info (llcPayloadStart info + 3) 4
def fLlcLocUpdType (info : Info) : BitVec 3 := field info (llcPayloadStart info + 7) 3
def fIsMleMm (info : Info) : Bool := fLlcMlePd info = 0b001
def fDirectMmPduType (info : Info) : BitVec 4 := field info (tlSduStart info) 4
def fDirectLocUpdType (info : Info) : BitVec 3 := field info (tlSduStart info + 4) 3

def fIsEndHu (info : Info) : Bool := fPduType info
def fContinuationBits (info : Info) : BitVec 85 := field info 7 85

/-- The fragmentation flag where the optional field carries one. -/
def fFragmented (info : Info) : Bool := fOptFlag info && fLengthOrCap info && fFragFlag info

structure Parser where
  pduType : Bool
  fillBit : Bool
  encryptionMode : Bool
  ulAddrType : BitVec 2
  ulIssi : BitVec 24
  ulEventLabel : BitVec 10
  optionalFieldFlag : Bool
  ulFragFlag : Bool
  ulReservationReq : BitVec 4
  ulLengthInd : BitVec 5
  mmPduType : BitVec 4
  locUpdType : BitVec 3
  rawInfoBits : Info
  pduValid : Bool
  pduCount : BitVec 16
  blAckValid : Bool
  blAckNr : Bool
  blAckCount : BitVec 16
  ulLlcIsBlData : Bool
  ulLlcIsBlAck : Bool
  ulLlcHasFcs : Bool
  ulLlcNsValid : Bool
  ulLlcNs : Bool
  ulLlcNrValid : Bool
  ulLlcNr : Bool
  ulLlcIsMleMm : Bool
  ulLlcMmPduType : BitVec 4
  ulLlcMmLocUpdType : BitVec 3
  ulLlcPduType : BitVec 4
  ulMleDisc : BitVec 3
  ulPduIsContinuation : Bool
  ulContinuationValid : Bool
  ulContinuationBits : BitVec 85
  ulContinuationSsi : BitVec 24
  ulContinuationCount : BitVec 16

def Parser.reset : Parser :=
  ⟨false, false, false, 0, 0, 0, false, false, 0, 0, 0, 0, 0, false, 0, false, false, 0, false, false,
    false, false, false, false, false, false, 0, 0, 0, 0, false, false, 0, 0, 0⟩

/-- The signals sampled at one clock edge. `sender` is the station whose burst `infoBits` is; no
signal reads it. -/
structure Input where
  infoBits : Info
  infoValid : Bool
  crcOk : Bool
  sender : BitVec 24
  t0Frames : BitVec 4
  frameTick : Bool

/-- The strobes fall unless set below. -/
def Parser.strobesLow (p : Parser) : Parser :=
  { p with
    pduValid := false, blAckValid := false, ulLlcIsBlData := false, ulLlcIsBlAck := false
    ulLlcNsValid := false, ulLlcNrValid := false, ulLlcIsMleMm := false
    ulContinuationValid := false }

def parserStep (p : Parser) (i : Input) : Parser :=
  let info := i.infoBits
  let p := p.strobesLow
  if i.infoValid && i.crcOk then
    let p := { p with
      pduType := fPduType info, ulPduIsContinuation := fIsEndHu info, rawInfoBits := info }
    if !fIsEndHu info then
      { p with
        fillBit := fFillBit info
        encryptionMode := fEncryptionMode info
        ulAddrType := fAddrType info
        ulIssi := fIssi info
        ulEventLabel := fEventLabel info
        optionalFieldFlag := fOptFlag info
        ulFragFlag := fFragmented info
        ulReservationReq := if fOptFlag info && fLengthOrCap info then fReservationReq info else 0
        ulLengthInd := if fOptFlag info && !fLengthOrCap info then fLengthInd info else 0
        mmPduType := fDirectMmPduType info
        locUpdType := fDirectLocUpdType info
        pduValid := true
        pduCount := p.pduCount + 1
        blAckValid := fIsBlAck info
        blAckNr := if fIsBlAck info then fNrBit info else p.blAckNr
        blAckCount := if fIsBlAck info then p.blAckCount + 1 else p.blAckCount
        ulLlcHasFcs := fLlcHasFcs info
        ulLlcIsBlData := fIsBlData info || fIsBlAdata info
        ulLlcIsBlAck := fIsBlAck info
        ulLlcNsValid := fNsValid info
        ulLlcNs := fNsBit info
        ulLlcNrValid := fNrValid info
        ulLlcNr := fNrBit info
        ulLlcIsMleMm := (fIsBlData info || fIsBlAdata info) && fIsMleMm info
        ulLlcMmPduType := fLlcMmPduType info
        ulLlcMmLocUpdType := fLlcLocUpdType info
        ulLlcPduType := BitVec.ofBool (fLlcLinkType info) ++ BitVec.ofBool (fLlcHasFcs info) ++
          fLlcBlPduType info
        ulMleDisc := fLlcMlePd info
        ulContinuationSsi :=
          if fFragmented info && fAddrType info != 0b01 then fIssi info else p.ulContinuationSsi }
    else
      { p with
        ulContinuationValid := true
        ulContinuationBits := fContinuationBits info
        ulContinuationCount := p.ulContinuationCount + 1 }
  else p

/-! Reassembly. -/

structure Slot where
  occ : Bool
  ssi : BitVec 24
  frag1 : BitVec 44
  t0Left : BitVec 4

def Slot.empty : Slot := ⟨false, 0, 0, 0⟩

structure Reassembly where
  s0 : Slot
  s1 : Slot
  valid : Bool
  body : BitVec 129
  ssi : BitVec 24
  reassembledCnt : BitVec 16
  dropCnt : BitVec 16

def Reassembly.reset : Reassembly := ⟨Slot.empty, Slot.empty, false, 0, 0, 0, 0⟩

def T0_FRAMES_DEFAULT : BitVec 4 := 2

structure Stimuli where
  t0Frames : BitVec 4
  frameTick : Bool
  frag1Pulse : Bool
  frag1Ssi : BitVec 24
  frag1Bits : BitVec 44
  endHuPulse : Bool
  endHuSsi : BitVec 24
  endHuBits : BitVec 85

def Slot.holds (s : Slot) (ssi : BitVec 24) : Bool := s.occ && s.ssi = ssi

def Slot.expires (s : Slot) (tick : Bool) : Bool := tick && s.occ && s.t0Left = 1

def Slot.tick (s : Slot) (tick : Bool) : Slot :=
  if tick && s.occ then
    { s with
      occ := s.t0Left ≠ 1
      t0Left := if s.t0Left = 0 then 0 else s.t0Left - 1 }
  else s

def Slot.refresh (s : Slot) (bits : BitVec 44) (t0 : BitVec 4) : Slot :=
  { s with frag1 := bits, t0Left := t0 }

def t0Eff (i : Stimuli) : BitVec 4 := if i.t0Frames = 0 then T0_FRAMES_DEFAULT else i.t0Frames

/-- The slots after timer and fragment 1, before the continuation. All conditions read the
registers, a later assignment wins. -/
def slotsAfterFrag1 (r : Reassembly) (i : Stimuli) : Slot × Slot :=
  let s0 := r.s0.tick i.frameTick
  let s1 := r.s1.tick i.frameTick
  if i.frag1Pulse then
    if r.s0.holds i.frag1Ssi then (s0.refresh i.frag1Bits (t0Eff i), s1)
    else if r.s1.holds i.frag1Ssi then (s0, s1.refresh i.frag1Bits (t0Eff i))
    else if !r.s0.occ then (⟨true, i.frag1Ssi, i.frag1Bits, t0Eff i⟩, s1)
    else if !r.s1.occ then (s0, ⟨true, i.frag1Ssi, i.frag1Bits, t0Eff i⟩)
    else (s0, s1)
  else (s0, s1)

def dropNew (r : Reassembly) (i : Stimuli) : Bool :=
  i.frag1Pulse && r.s0.occ && r.s1.occ && !r.s0.holds i.frag1Ssi && !r.s1.holds i.frag1Ssi

def matchAny (r : Reassembly) (ssi : BitVec 24) : Bool := r.s0.holds ssi || r.s1.holds ssi

def reassemblyStep (r : Reassembly) (i : Stimuli) : Reassembly :=
  let (s0, s1) := slotsAfterFrag1 r i
  let dropCnt :=
    if r.s0.expires i.frameTick || r.s1.expires i.frameTick || dropNew r i then r.dropCnt + 1
    else r.dropCnt
  if i.endHuPulse && matchAny r i.endHuSsi then
    if r.s0.holds i.endHuSsi then
      { s0 := { s0 with occ := false }, s1, valid := true, body := r.s0.frag1 ++ i.endHuBits
        ssi := r.s0.ssi, reassembledCnt := r.reassembledCnt + 1, dropCnt }
    else
      { s0, s1 := { s1 with occ := false }, valid := true, body := r.s1.frag1 ++ i.endHuBits
        ssi := r.s1.ssi, reassembledCnt := r.reassembledCnt + 1, dropCnt }
  else { r with s0, s1, valid := false, dropCnt }

/-! The two wired together. -/

structure State where
  parser : Parser
  reasm : Reassembly

def reset : State := ⟨Parser.reset, Reassembly.reset⟩

/-- Fragment 1 as the contract slices it. -/
def frag1Bits (info : Info) : BitVec 44 := field info 48 44

def wires (p : Parser) (i : Input) : Stimuli where
  t0Frames := i.t0Frames
  frameTick := i.frameTick
  frag1Pulse := p.pduValid && p.ulFragFlag
  frag1Ssi := p.ulIssi
  frag1Bits := frag1Bits p.rawInfoBits
  endHuPulse := p.ulContinuationValid
  endHuSsi := p.ulContinuationSsi
  endHuBits := p.ulContinuationBits

def step (s : State) (i : Input) : State where
  parser := parserStep s.parser i
  reasm := reassemblyStep s.reasm (wires s.parser i)

end TetraBs.UlAccess
