import TetraBs.Cmce.PduSteps

/-! What the decoders of `sw/cmce/cmce_pdu.c` get back of an encoded PDU, and which PDUs they do
not get back. -/
namespace TetraBs
open TetraBs.Bits TetraBs.Decoder TetraBs.Steps

/-! The decoder of D-NWRK-BROADCAST. -/

def getNetworkTime (inLenBits : Nat) : BitM (BitVec 64) := do
  failUnless (21 + 48 ≤ inLenBits) .EPROTO
  let hi ← getBits 24
  let lo ← getBits 24
  return (hi.setWidth 64 <<< 24) ||| lo.setWidth 64

/-- `p` is the flag in front of it. -/
def getNetworkTimeIf (p : Bool) (inLenBits : Nat) : BitM (BitVec 64) :=
  if p then getNetworkTime inLenBits else pure 0

def getNeighbourCellsIf (p : Bool) : BitM Byte := if p then getByte 3 else pure 0

/-- The fields of the header that stay are those of the PDU handed in. -/
def decodeDNwrkBroadcast (p : CmcePdu) (inLenBits : Nat) : BitM CmcePdu := do
  failUnless (19 ≤ inLenBits) .EPROTO
  let parameters ← getBits 16
  let load ← getByte 2
  let optionals ← getFlag
  let p := { p with
    pduType := .nwrkBroadcast, nwrkCellReSelectParameters := parameters.setWidth 16
    nwrkCellLoadCa := load, optionalsPresent := optionals, nwrkPTetraNetworkTime := false
    nwrkTetraNetworkTime := 0, nwrkPNumCaNeighbourCells := false, nwrkNumCaNeighbourCells := 0 }
  if optionals then do
    failUnless (21 ≤ inLenBits) .EPROTO
    let pTime ← getFlag
    let time ← getNetworkTimeIf pTime inLenBits
    let pCells ← getFlag
    let cells ← getNeighbourCellsIf pCells
    return { p with
      nwrkPTetraNetworkTime := pTime, nwrkTetraNetworkTime := time
      nwrkPNumCaNeighbourCells := pCells, nwrkNumCaNeighbourCells := cells }
  else return p

def cmcePduDecodeDNwrkBroadcast (input : BitBuffer) (p : CmcePdu) (inLenBits : Nat) :
    Except Fault (CmcePdu × BitBuffer) := do
  let start := bbPosBits input
  let (p, bb) ← (decodeDNwrkBroadcast p inLenBits).run input
  return ({ p with encodedLenBits := (bbPosBits bb - start) % 2 ^ 16 }, bb)

/-- The decoder to an encoder; `q` is what the PDU handed in holds. -/
def decodeFrom (codec : CmceCodec) (input : BitBuffer) (q : CmcePdu) (n : Nat) :
    Except Fault (CmcePdu × BitBuffer) :=
  match codec with
  | .pdu dir => cmcePduDecode input dir n
  | .nwrkBroadcast => cmcePduDecodeDNwrkBroadcast input q n

/-! What the bits of a PDU carry: the fields of its layout. -/

/-- The body of U-SETUP is that of its party type. -/
def carriedParty (p r : CmcePdu) : CmcePdu :=
  match p.calledPartyTypeIdentifier with
  | .sna => { r with calledPartyShortNumberAddress := p.calledPartyShortNumberAddress }
  | .ssi | .tsi => { r with calledPartyAddressSsi := p.calledPartyAddressSsi }
  | .reserved => r

def carriedNwrkBroadcast (p q : CmcePdu) : CmcePdu :=
  let pTime := p.optionalsPresent && p.nwrkPTetraNetworkTime
  let pCells := p.optionalsPresent && p.nwrkPNumCaNeighbourCells
  { q with
    pduType := .nwrkBroadcast, nwrkCellReSelectParameters := p.nwrkCellReSelectParameters
    nwrkCellLoadCa := p.nwrkCellLoadCa, optionalsPresent := p.optionalsPresent
    nwrkPTetraNetworkTime := pTime
    nwrkTetraNetworkTime := if pTime then p.nwrkTetraNetworkTime else 0
    nwrkPNumCaNeighbourCells := pCells
    nwrkNumCaNeighbourCells := if pCells then p.nwrkNumCaNeighbourCells else 0 }

/-- The PDU with the fields of its layout, the others being zero or, for D-NWRK-BROADCAST, those
of `q`. -/
def carried (codec : CmceCodec) (p q : CmcePdu) : CmcePdu :=
  match codec, p.pduType with
  | .nwrkBroadcast, _ => carriedNwrkBroadcast p q
  | .pdu .downlink, .setup =>
    { pduType := .setup, callIdentifier := p.callIdentifier, callTimeOut := p.callTimeOut
      hookMethodSelection := p.hookMethodSelection
      simplexDuplexSelection := p.simplexDuplexSelection
      basicServiceInformation := p.basicServiceInformation
      transmissionGrant := p.transmissionGrant
      transmissionRequestPermission := p.transmissionRequestPermission
      callPriority := p.callPriority, optionalsPresent := p.optionalsPresent }
  | .pdu .uplink, .setup =>
    carriedParty p
      { pduType := .setup, areaSelection := p.areaSelection
        hookMethodSelection := p.hookMethodSelection
        simplexDuplexSelection := p.simplexDuplexSelection
        basicServiceInformation := p.basicServiceInformation
        requestToTransmitSendData := p.requestToTransmitSendData
        callPriority := p.callPriority, clirControl := p.clirControl
        calledPartyTypeIdentifier := p.calledPartyTypeIdentifier
        optionalsPresent := p.optionalsPresent }
  | .pdu _, .callProceeding =>
    { pduType := .callProceeding, callIdentifier := p.callIdentifier
      callTimeOutSetUpPhase := p.callTimeOutSetUpPhase
      hookMethodSelection := p.hookMethodSelection
      simplexDuplexSelection := p.simplexDuplexSelection
      optionalsPresent := p.optionalsPresent }
  | .pdu _, .connect =>
    { pduType := .connect, callIdentifier := p.callIdentifier, callTimeOut := p.callTimeOut
      hookMethodSelection := p.hookMethodSelection
      simplexDuplexSelection := p.simplexDuplexSelection
      transmissionGrant := p.transmissionGrant
      transmissionRequestPermission := p.transmissionRequestPermission
      callOwnership := p.callOwnership, optionalsPresent := p.optionalsPresent }
  | .pdu _, .txDemand =>
    { pduType := .txDemand, callIdentifier := p.callIdentifier
      txDemandPriority := p.txDemandPriority, encryptionControl := p.encryptionControl
      optionalsPresent := p.optionalsPresent }
  | .pdu _, .txGranted =>
    { pduType := .txGranted, callIdentifier := p.callIdentifier
      transmissionGrant := p.transmissionGrant
      transmissionRequestPermission := p.transmissionRequestPermission
      encryptionControl := p.encryptionControl, optionalsPresent := p.optionalsPresent }
  | .pdu _, .release =>
    { pduType := .release, callIdentifier := p.callIdentifier
      disconnectCause := p.disconnectCause, optionalsPresent := p.optionalsPresent }
  | .pdu _, _ => p

/-- A PDU with nothing besides its layout is carried whole. -/
theorem carried_carried (codec : CmceCodec) (p q : CmcePdu) :
    carried codec (carried codec p q) q = carried codec p q := by
  cases codec with
  | nwrkBroadcast =>
    cases hopt : p.optionalsPresent with
    | false => simp [carried, carriedNwrkBroadcast, hopt]
    | true =>
      cases htime : p.nwrkPTetraNetworkTime <;> cases hcells : p.nwrkPNumCaNeighbourCells <;>
        simp [carried, carriedNwrkBroadcast, hopt, htime, hcells]
  | pdu dir =>
    cases htype : p.pduType with
    | setup =>
      cases dir with
      | downlink => simp [carried, htype]
      | uplink =>
        cases hparty : p.calledPartyTypeIdentifier <;>
          simp [carried, carriedParty, htype, hparty]
    | _ => simp [carried, htype]

def CmcePdu.withLength (p : CmcePdu) (n : Nat) : CmcePdu := { p with encodedLenBits := n }

/-- The fields of the layout that the encoder does not check itself are inside their widths. -/
def InWidths (codec : CmceCodec) (p : CmcePdu) : Prop :=
  match codec, p.pduType with
  | .nwrkBroadcast, _ =>
    p.optionalsPresent = true → p.nwrkPTetraNetworkTime = true →
      p.nwrkTetraNetworkTime.toNat < 2 ^ 48
  | .pdu .downlink, .setup =>
    p.hookMethodSelection ≤ 1 ∧ p.simplexDuplexSelection ≤ 1 ∧
      p.transmissionRequestPermission ≤ 1
  | .pdu .uplink, .setup =>
    p.hookMethodSelection ≤ 1 ∧ p.simplexDuplexSelection ≤ 1 ∧
      p.requestToTransmitSendData ≤ 1 ∧
      (p.calledPartyTypeIdentifier = .ssi ∨ p.calledPartyTypeIdentifier = .tsi →
        p.calledPartyAddressSsi ≤ tetraSsiMask24)
  | .pdu _, .callProceeding => p.hookMethodSelection ≤ 1 ∧ p.simplexDuplexSelection ≤ 1
  | .pdu _, .connect =>
    p.hookMethodSelection ≤ 1 ∧ p.simplexDuplexSelection ≤ 1 ∧
      p.transmissionRequestPermission ≤ 1 ∧ p.callOwnership ≤ 1
  | .pdu _, .txDemand => p.encryptionControl ≤ 1
  | .pdu _, .txGranted => p.transmissionRequestPermission ≤ 1 ∧ p.encryptionControl ≤ 1
  | .pdu _, _ => True

/-! Fields. -/

theorem gets_setWidth {w : Nat} {v m : BitVec w} (hw : w ≤ 32) {mask : BitVec 32} {n : Nat}
    (hn : 1 ≤ n) (hn' : n ≤ 32) (hmask : mask.toNat = 2 ^ n - 1) (hm : m.toNat = 2 ^ n - 1)
    (hv : v ≤ m) :
    Gets (getBits n >>= fun u => pure (u.setWidth w)) (msbBits (v.setWidth 32 &&& mask) n) v := by
  have hwide : (v.setWidth 32).toNat = v.toNat := by
    rw [BitVec.toNat_setWidth]
    exact Nat.mod_eq_of_lt (Nat.lt_of_lt_of_le v.isLt (Nat.pow_le_pow_right (by decide) hw))
  have hle : v.toNat ≤ 2 ^ n - 1 := hm ▸ hv
  have hlt : (v.setWidth 32).toNat < 2 ^ n := by
    have hpos := Nat.two_pow_pos n
    omega
  refine (gets_masked hn hn' hmask hlt).bind_end ?_
  have hback : (v.setWidth 32).setWidth w = v := by
    rw [BitVec.setWidth_setWidth_of_le _ hw, BitVec.setWidth_eq]
  rw [hback]
  exact gets_pure v

theorem gets_byte {b m : Byte} {mask : BitVec 32} {n : Nat} (hn : 1 ≤ n) (hn' : n ≤ 32)
    (hmask : mask.toNat = 2 ^ n - 1) (hm : m.toNat = 2 ^ n - 1) (hb : b ≤ m) :
    Gets (getByte n) (msbBits (b.setWidth 32 &&& mask) n) b :=
  gets_setWidth (by decide) hn hn' hmask hm hb

theorem gets_bit {b : Byte} (hb : b ≤ 1) :
    Gets (getByte 1) (msbBits (b.setWidth 32 &&& 1) 1) b :=
  gets_byte (by decide) (by decide) rfl rfl hb

theorem gets_octet (b : Byte) : Gets (getByte 8) (msbBits (b.setWidth 32) 8) b := by
  have hand : ∀ b : Byte, b.setWidth 32 &&& 255 = b.setWidth 32 := by decide
  have hle : b ≤ 255 := Nat.le_of_lt_succ b.isLt
  rw [← hand b]
  exact gets_byte (by decide) (by decide) rfl rfl hle

theorem gets_flag (b : Bool) : Gets getFlag (msbBits (presentBit b) 1) b := by
  have hfit : (presentBit b).toNat < 2 ^ 1 := by cases b <;> decide
  refine (gets_getBits (Nat.le_refl 1) (by decide) hfit).bind_end ?_
  have hback : (presentBit b != 0) = b := by cases b <;> rfl
  rw [hback]
  exact gets_pure b

theorem gets_callIdentifier {id : BitVec 16} (hid : id ≤ 0x3FFF) :
    Gets getCallIdentifier (msbBits (id.setWidth 32 &&& 0x3FFF) 14) id :=
  gets_setWidth (by decide) (by decide) (by decide) rfl rfl hid

theorem gets_grant (g : CmceTransmissionGrant) :
    Gets (getBits 2) (msbBits (g.value &&& 3) 2) g.value :=
  gets_masked (by decide) (by decide) rfl (by cases g <;> decide)

theorem ofValue_grant (g : CmceTransmissionGrant) : CmceTransmissionGrant.ofValue g.value = g := by
  cases g <;> rfl

theorem gets_partyType (t : CmcePartyType) :
    Gets (getBits 2) (msbBits (t.value &&& 3) 2) t.value :=
  gets_masked (by decide) (by decide) rfl (by cases t <;> decide)

theorem ofValue_partyType (t : CmcePartyType) : CmcePartyType.ofValue t.value = t := by
  cases t <;> rfl

theorem gets_zeroBit : Gets (getBits 1) (msbBits (0 : BitVec 32) 1) 0 :=
  gets_getBits (Nat.le_refl 1) (by decide) (by decide)

/-- A look at what remains. -/
theorem gets_remaining {α : Type} {f : Nat → BitM α} {bits : List Bool} {a : α}
    (h : ∀ left, bits.length ≤ left → Gets (f left) bits a) :
    Gets (getRemaining >>= f) bits a := by
  intro bb hroom hwin
  have hleft : bits.length ≤ bbRemaining bb := by
    rw [bbRemaining]
    omega
  exact h _ hleft bb hroom hwin

/-! Layouts. -/

theorem gets_pduType {t : CmcePduType} (ht : t.value ≤ 31) :
    Gets (getByte 5) (msbBits (t.value.setWidth 32) 5) t.value := by
  have hand : ∀ b : Byte, b ≤ 31 → b.setWidth 32 &&& 31 = b.setWidth 32 := by decide
  rw [← hand _ ht]
  exact gets_byte (by decide) (by decide) rfl rfl ht

theorem gets_pdu {t : CmcePduType} {dir : CmceDirection} {n : Nat} (hn : 5 ≤ n)
    {bits : List Bool} {p : CmcePdu} (ht : CmcePduType.ofRaw t.value = t) (ht' : t.value ≤ 31)
    (h : Gets (cmceDecoder t dir n) bits p) :
    Gets (decodeCmcePdu dir n) (msbBits (t.value.setWidth 32) 5 ++ bits) (p.withLength n) := by
  rw [decodeCmcePdu]
  refine Gets.check hn ((gets_pduType ht').bind ?_)
  rw [ht]
  exact h.bind_end (gets_pure _)

/-- The decoder gets the fields of the PDU from the bits the encoder puts. -/
def GotBack (dir : CmceDirection) (p q : CmcePdu) : Prop :=
  let bits := stepsBits (encoderSteps (.pdu dir) p)
  Gets (decodeCmcePdu dir bits.length) bits ((carried (.pdu dir) p q).withLength bits.length)

theorem dSetup_gotBack {p : CmcePdu} (q : CmcePdu) (ht : p.pduType = .setup)
    (h : Passes (encoderSteps (.pdu .downlink) p)) (hw : InWidths (.pdu .downlink) p) :
    GotBack .downlink p q := by
  simp only [GotBack, encoderSteps, InWidths, carried, ht] at h hw ⊢
  simp only [dSetupSteps, pduTypeSteps, Passes, List.cons_append, List.nil_append,
    decide_eq_true_eq] at h
  obtain ⟨hid, htime, hpriority, -⟩ := h
  obtain ⟨hhook, hsimplex, hpermission⟩ := hw
  simp only [dSetupSteps, pduTypeSteps, stepsBits, writes, List.cons_append, List.nil_append,
    List.flatMap_cons, List.flatMap_nil]
  refine gets_pdu (t := .setup) ?_ rfl (by decide) ?_
  · simp
  show Gets (decodeDSetup _ _) _ _
  rw [decodeDSetup]
  refine Gets.check ?_ ?_
  · simp
  refine (gets_callIdentifier hid).bind ?_
  refine (gets_byte (by decide) (by decide) rfl rfl htime).bind ?_
  refine (gets_bit hhook).bind ?_
  refine (gets_bit hsimplex).bind ?_
  refine (gets_octet _).bind ?_
  refine (gets_grant _).bind ?_
  refine (gets_bit hpermission).bind ?_
  refine (gets_byte (by decide) (by decide) rfl rfl hpriority).bind ?_
  refine (gets_flag _).bind ?_
  rw [ofValue_grant]
  exact gets_pure _

theorem dCallProceeding_gotBack {p : CmcePdu} (q : CmcePdu) (ht : p.pduType = .callProceeding)
    (h : Passes (encoderSteps (.pdu .downlink) p)) (hw : InWidths (.pdu .downlink) p) :
    GotBack .downlink p q := by
  simp only [GotBack, encoderSteps, InWidths, carried, ht] at h hw ⊢
  simp only [dCallProceedingSteps, pduTypeSteps, Passes, List.cons_append, List.nil_append,
    decide_eq_true_eq] at h
  obtain ⟨hid, htime, -⟩ := h
  obtain ⟨hhook, hsimplex⟩ := hw
  simp only [dCallProceedingSteps, pduTypeSteps, stepsBits, writes, List.cons_append,
    List.nil_append, List.flatMap_cons, List.flatMap_nil]
  refine gets_pdu (t := .callProceeding) ?_ rfl (by decide) ?_
  · simp
  show Gets (decodeDCallProceeding _ _) _ _
  rw [decodeDCallProceeding]
  refine Gets.check ?_ ?_
  · simp
  refine (gets_callIdentifier hid).bind ?_
  refine (gets_byte (by decide) (by decide) rfl rfl htime).bind ?_
  refine (gets_bit hhook).bind ?_
  refine (gets_bit hsimplex).bind ?_
  refine (gets_flag _).bind ?_
  exact gets_pure _

theorem dConnect_gotBack {p : CmcePdu} (q : CmcePdu) (ht : p.pduType = .connect)
    (h : Passes (encoderSteps (.pdu .downlink) p)) (hw : InWidths (.pdu .downlink) p) :
    GotBack .downlink p q := by
  simp only [GotBack, encoderSteps, InWidths, carried, ht] at h hw ⊢
  simp only [dConnectSteps, pduTypeSteps, Passes, List.cons_append, List.nil_append,
    decide_eq_true_eq] at h
  obtain ⟨hid, htime, -⟩ := h
  obtain ⟨hhook, hsimplex, hpermission, hownership⟩ := hw
  simp only [dConnectSteps, pduTypeSteps, stepsBits, writes, List.cons_append, List.nil_append,
    List.flatMap_cons, List.flatMap_nil]
  refine gets_pdu (t := .connect) ?_ rfl (by decide) ?_
  · simp
  show Gets (decodeDConnect _ _) _ _
  rw [decodeDConnect]
  refine Gets.check ?_ ?_
  · simp
  refine (gets_callIdentifier hid).bind ?_
  refine (gets_byte (by decide) (by decide) rfl rfl htime).bind ?_
  refine (gets_bit hhook).bind ?_
  refine (gets_bit hsimplex).bind ?_
  refine (gets_grant _).bind ?_
  refine (gets_bit hpermission).bind ?_
  refine (gets_bit hownership).bind ?_
  refine (gets_flag _).bind ?_
  rw [ofValue_grant]
  exact gets_pure _

theorem dTxGranted_gotBack {p : CmcePdu} (q : CmcePdu) (ht : p.pduType = .txGranted)
    (h : Passes (encoderSteps (.pdu .downlink) p)) (hw : InWidths (.pdu .downlink) p) :
    GotBack .downlink p q := by
  simp only [GotBack, encoderSteps, InWidths, carried, ht] at h hw ⊢
  simp only [dTxGrantedSteps, pduTypeSteps, Passes, List.cons_append, List.nil_append,
    decide_eq_true_eq] at h
  obtain ⟨hid, -⟩ := h
  obtain ⟨hpermission, hencryption⟩ := hw
  simp only [dTxGrantedSteps, pduTypeSteps, stepsBits, writes, List.cons_append, List.nil_append,
    List.flatMap_cons, List.flatMap_nil]
  refine gets_pdu (t := .txGranted) ?_ rfl (by decide) ?_
  · simp
  show Gets (decodeDTxGranted _ _) _ _
  rw [decodeDTxGranted]
  refine Gets.check ?_ ?_
  · simp
  refine (gets_callIdentifier hid).bind ?_
  refine (gets_grant _).bind ?_
  refine (gets_bit hpermission).bind ?_
  refine (gets_bit hencryption).bind ?_
  refine gets_zeroBit.bind ?_
  refine (gets_flag _).bind ?_
  rw [ofValue_grant]
  exact gets_pure _

theorem uTxDemand_gotBack {p : CmcePdu} (q : CmcePdu) (ht : p.pduType = .txDemand)
    (h : Passes (encoderSteps (.pdu .uplink) p)) (hw : InWidths (.pdu .uplink) p) :
    GotBack .uplink p q := by
  simp only [GotBack, encoderSteps, InWidths, carried, ht] at h hw ⊢
  simp only [uTxDemandSteps, pduTypeSteps, Passes, List.cons_append, List.nil_append,
    decide_eq_true_eq] at h
  obtain ⟨hid, hpriority, -⟩ := h
  simp only [uTxDemandSteps, pduTypeSteps, stepsBits, writes, List.cons_append, List.nil_append,
    List.flatMap_cons, List.flatMap_nil]
  refine gets_pdu (t := .txDemand) ?_ rfl (by decide) ?_
  · simp
  show Gets (decodeUTxDemand _ _) _ _
  rw [decodeUTxDemand]
  refine Gets.check ?_ ?_
  · simp
  refine (gets_callIdentifier hid).bind ?_
  refine (gets_byte (by decide) (by decide) rfl rfl hpriority).bind ?_
  refine (gets_bit hw).bind ?_
  refine gets_zeroBit.bind ?_
  refine (gets_flag _).bind ?_
  exact gets_pure _

theorem release_gotBack {p : CmcePdu} (q : CmcePdu) (dir : CmceDirection)
    (ht : p.pduType = .release) (h : Passes (encoderSteps (.pdu dir) p)) :
    GotBack dir p q := by
  simp only [GotBack, encoderSteps, carried, ht] at h ⊢
  simp only [releaseSteps, pduTypeSteps, Passes, List.cons_append, List.nil_append,
    decide_eq_true_eq] at h
  obtain ⟨hid, hcause, -⟩ := h
  have hfit : p.disconnectCause.toNat < 2 ^ 5 := Nat.lt_succ_of_le hcause
  simp only [releaseSteps, pduTypeSteps, stepsBits, writes, List.cons_append, List.nil_append,
    List.flatMap_cons, List.flatMap_nil]
  refine gets_pdu (t := .release) ?_ rfl (by decide) ?_
  · simp
  have hdecoder : ∀ n, cmceDecoder .release dir n = decodeRelease { pduType := .release } n := by
    cases dir <;> exact fun _ => rfl
  rw [hdecoder, decodeRelease]
  refine Gets.check ?_ ?_
  · simp
  refine (gets_callIdentifier hid).bind ?_
  refine (gets_masked (by decide) (by decide) rfl hfit).bind ?_
  refine (gets_flag _).bind ?_
  exact gets_pure _

/-- The party and the o-bit after it: the decoder looks whether both are there. -/
theorem gets_calledParty {p r : CmcePdu} (hr : r.calledPartyTypeIdentifier =
      p.calledPartyTypeIdentifier) (hres : p.calledPartyTypeIdentifier ≠ .reserved)
    (hssi : p.calledPartyTypeIdentifier = .ssi ∨ p.calledPartyTypeIdentifier = .tsi →
      p.calledPartyAddressSsi ≤ tetraSsiMask24) :
    Gets (getCalledParty r >>= fun r => getFlag >>= fun b =>
        pure { r with optionalsPresent := b })
      (stepsBits (calledPartySteps p ++ [.write (presentBit p.optionalsPresent, 1)]))
      (carriedParty p { r with optionalsPresent := p.optionalsPresent }) := by
  have haddress : ∀ n, r.calledPartyTypeIdentifier = n → n = .ssi ∨ n = .tsi →
      Gets (getCalledParty r >>= fun r => getFlag >>= fun b =>
          pure { r with optionalsPresent := b })
        (msbBits (p.calledPartyAddressSsi &&& tetraSsiMask24) 24 ++
          (msbBits (presentBit p.optionalsPresent) 1 ++ []))
        { r with
          calledPartyAddressSsi := p.calledPartyAddressSsi
          optionalsPresent := p.optionalsPresent } := by
    intro n hn hkind
    have hle : p.calledPartyAddressSsi ≤ tetraSsiMask24 := by
      refine hssi ?_
      rw [← hr, hn]
      exact hkind
    have hfit : p.calledPartyAddressSsi.toNat < 2 ^ 24 := Nat.lt_succ_of_le hle
    have hmask : p.calledPartyAddressSsi &&& tetraSsiMask24 = p.calledPartyAddressSsi := by
      refine BitVec.eq_of_toNat_eq ?_
      have hnat : tetraSsiMask24.toNat = 2 ^ 24 - 1 := rfl
      rw [BitVec.toNat_and, hnat, Nat.and_two_pow_sub_one_eq_mod, Nat.mod_eq_of_lt hfit]
    have hget : getCalledParty r = getRemaining >>= fun left =>
        failUnless (24 + 1 ≤ left) .EPROTO >>= fun _ => getBits 24 >>= fun ssi =>
          pure { r with calledPartyAddressSsi := ssi &&& tetraSsiMask24 } := by
      unfold getCalledParty
      obtain rfl | rfl := hkind <;> rw [hn]
    rw [hget, bind_assoc]
    refine gets_remaining fun left hleft => ?_
    rw [bind_assoc]
    refine Gets.check ?_ ?_
    · simpa using hleft
    rw [bind_assoc]
    refine (gets_masked (by decide) (by decide) rfl hfit).bind ?_
    rw [pure_bind, hmask]
    refine (gets_flag _).bind ?_
    exact gets_pure _
  cases hparty : p.calledPartyTypeIdentifier with
  | sna =>
    rw [hparty] at hr
    have hget : getCalledParty r = getRemaining >>= fun left =>
        failUnless (8 + 1 ≤ left) .EPROTO >>= fun _ => getByte 8 >>= fun number =>
          pure { r with calledPartyShortNumberAddress := number } := by
      unfold getCalledParty
      rw [hr]
    simp only [calledPartySteps, carriedParty, hparty, stepsBits, writes, List.cons_append,
      List.nil_append, List.flatMap_cons, List.flatMap_nil]
    rw [hget, bind_assoc]
    refine gets_remaining fun left hleft => ?_
    rw [bind_assoc]
    refine Gets.check ?_ ?_
    · simpa using hleft
    rw [bind_assoc]
    refine (gets_octet _).bind ?_
    rw [pure_bind]
    refine (gets_flag _).bind ?_
    exact gets_pure _
  | ssi =>
    rw [hparty] at hr
    simp only [calledPartySteps, carriedParty, hparty, stepsBits, writes, List.cons_append,
      List.nil_append, List.flatMap_cons, List.flatMap_nil]
    exact haddress _ hr (Or.inl rfl)
  | tsi =>
    rw [hparty] at hr
    simp only [calledPartySteps, carriedParty, hparty, stepsBits, writes, List.cons_append,
      List.nil_append, List.flatMap_cons, List.flatMap_nil]
    exact haddress _ hr (Or.inr rfl)
  | reserved => exact absurd hparty hres

theorem uSetup_gotBack {p : CmcePdu} (q : CmcePdu) (ht : p.pduType = .setup)
    (hres : p.calledPartyTypeIdentifier ≠ .reserved)
    (h : Passes (encoderSteps (.pdu .uplink) p)) (hw : InWidths (.pdu .uplink) p) :
    GotBack .uplink p q := by
  simp only [GotBack, encoderSteps, InWidths, carried, ht] at h hw ⊢
  simp only [uSetupSteps, pduTypeSteps, Passes, List.cons_append, List.nil_append,
    decide_eq_true_eq] at h
  obtain ⟨harea, hpriority, hclir, -⟩ := h
  obtain ⟨hhook, hsimplex, hrequest, hssi⟩ := hw
  have hlen : 30 ≤ (stepsBits (uSetupSteps p)).length := by
    cases hparty : p.calledPartyTypeIdentifier with
    | reserved => exact absurd hparty hres
    | _ => simp [uSetupSteps, pduTypeSteps, stepsBits, writes, calledPartySteps, hparty]
  generalize (stepsBits (uSetupSteps p)).length = n at hlen
  simp only [uSetupSteps, pduTypeSteps, stepsBits, writes, List.cons_append, List.nil_append,
    List.flatMap_cons]
  refine gets_pdu (t := .setup) ?_ rfl (by decide) ?_
  · omega
  show Gets (decodeUSetup _ _) _ _
  rw [decodeUSetup]
  refine Gets.check hlen ?_
  refine (gets_byte (by decide) (by decide) rfl rfl harea).bind ?_
  refine (gets_bit hhook).bind ?_
  refine (gets_bit hsimplex).bind ?_
  refine (gets_octet _).bind ?_
  refine (gets_bit hrequest).bind ?_
  refine (gets_byte (by decide) (by decide) rfl rfl hpriority).bind ?_
  refine (gets_byte (by decide) (by decide) rfl rfl hclir).bind ?_
  refine (gets_partyType _).bind ?_
  rw [ofValue_partyType]
  exact gets_calledParty rfl hres hssi

theorem networkTime_halves {time : BitVec 64} (h : time.toNat < 2 ^ 48) :
    (((time >>> 24).setWidth 32 &&& 0xFFFFFF#32).setWidth 64 <<< 24 |||
      (time.setWidth 32 &&& 0xFFFFFF#32).setWidth 64) = time := by
  have hmask : ∀ j, (0xFFFFFF#32).getLsbD j = decide (j < 24) := by
    intro j
    show Nat.testBit (2 ^ 24 - 1) j = _
    exact Nat.testBit_two_pow_sub_one 24 j
  refine BitVec.eq_of_getLsbD_eq fun j hj => ?_
  simp only [BitVec.getLsbD_or, BitVec.getLsbD_shiftLeft, BitVec.getLsbD_setWidth,
    BitVec.getLsbD_and, BitVec.getLsbD_ushiftRight, hmask, hj, decide_true, Bool.true_and]
  by_cases hlow : j < 24
  · simp [hlow, (by omega : j < 32)]
  · by_cases hhigh : j - 24 < 24
    · simp [hlow, hhigh, (by omega : j - 24 < 32), (by omega : j - 24 < 64),
        (by omega : 24 + (j - 24) = j)]
    · have hzero : time.getLsbD j = false :=
        Nat.testBit_lt_two_pow (Nat.lt_of_lt_of_le h (Nat.pow_le_pow_right (by decide) (by omega)))
      simp [hlow, hhigh, hzero]

theorem gets_networkTime {time : BitVec 64} (h : time.toNat < 2 ^ 48) {n : Nat} (hn : 69 ≤ n) :
    Gets (getNetworkTime n) (msbBits ((time >>> 24).setWidth 32 &&& 0xFFFFFF#32) 24 ++
      msbBits (time.setWidth 32 &&& 0xFFFFFF#32) 24) time := by
  have hfit : ∀ v : BitVec 32, (v &&& 0xFFFFFF#32).toNat < 2 ^ 24 := by
    intro v
    rw [BitVec.toNat_and]
    exact Nat.and_lt_two_pow _ (by decide)
  rw [getNetworkTime]
  refine Gets.check hn ?_
  refine (gets_getBits (by decide) (by decide) (hfit _)).bind ?_
  refine (gets_getBits (by decide) (by decide) (hfit _)).bind_end ?_
  rw [networkTime_halves h]
  exact gets_pure _

theorem gets_networkTimeIf {p : CmcePdu} (h : p.nwrkPTetraNetworkTime = true →
      p.nwrkTetraNetworkTime.toNat < 2 ^ 48) {n : Nat}
    (hn : (stepsBits (networkTimeSteps p)).length + 21 ≤ n) :
    Gets (getNetworkTimeIf p.nwrkPTetraNetworkTime n) (stepsBits (networkTimeSteps p))
      (if p.nwrkPTetraNetworkTime then p.nwrkTetraNetworkTime else 0) := by
  rw [networkTimeSteps] at hn ⊢
  rw [getNetworkTimeIf]
  cases htime : p.nwrkPTetraNetworkTime with
  | false => exact gets_pure _
  | true =>
    rw [htime] at hn
    have hbits : stepsBits [.write ((p.nwrkTetraNetworkTime >>> 24).setWidth 32 &&& 0xFFFFFF, 24),
        .write (p.nwrkTetraNetworkTime.setWidth 32 &&& 0xFFFFFF, 24)] =
        msbBits ((p.nwrkTetraNetworkTime >>> 24).setWidth 32 &&& 0xFFFFFF#32) 24 ++
          msbBits (p.nwrkTetraNetworkTime.setWidth 32 &&& 0xFFFFFF#32) 24 := by
      simp [stepsBits, writes]
    rw [if_pos rfl, hbits, List.length_append, msbBits_length, msbBits_length] at hn
    rw [if_pos rfl, if_pos rfl, if_pos rfl, hbits]
    exact gets_networkTime (h htime) hn

/-- A count that is not refused is zero. -/
theorem gets_neighbourCellsIf {p : CmcePdu} (h : Passes (neighbourCellSteps p)) :
    Gets (getNeighbourCellsIf p.nwrkPNumCaNeighbourCells) (stepsBits (neighbourCellSteps p))
      (if p.nwrkPNumCaNeighbourCells then p.nwrkNumCaNeighbourCells else 0) := by
  rw [neighbourCellSteps] at h ⊢
  rw [getNeighbourCellsIf]
  cases hcells : p.nwrkPNumCaNeighbourCells with
  | false => exact gets_pure _
  | true =>
    rw [hcells] at h
    have hnone : p.nwrkNumCaNeighbourCells = 0 := by simpa [Passes] using h
    have hle : p.nwrkNumCaNeighbourCells ≤ 7 := by
      rw [hnone]
      decide
    have hbits : stepsBits [.write (p.nwrkNumCaNeighbourCells.setWidth 32 &&& 7, 3),
        .check (p.nwrkNumCaNeighbourCells = 0) .ENOTSUP] =
        msbBits (p.nwrkNumCaNeighbourCells.setWidth 32 &&& 7) 3 := by
      simp [stepsBits, writes]
    rw [if_pos rfl, if_pos rfl, if_pos rfl, hbits]
    exact gets_byte (by decide) (by decide) rfl rfl hle

theorem nwrkBroadcast_bits {p : CmcePdu} (hopt : p.optionalsPresent = true) :
    stepsBits (dNwrkBroadcastSteps p) =
      msbBits (p.nwrkCellReSelectParameters.setWidth 32) 16 ++
        (msbBits (p.nwrkCellLoadCa.setWidth 32 &&& 3) 2 ++ (msbBits (presentBit true) 1 ++
          (msbBits (presentBit p.nwrkPTetraNetworkTime) 1 ++ (stepsBits (networkTimeSteps p) ++
            (msbBits (presentBit p.nwrkPNumCaNeighbourCells) 1 ++
              stepsBits (neighbourCellSteps p)))))) := by
  rw [dNwrkBroadcastSteps, hopt, if_pos rfl]
  simp only [List.cons_append, List.nil_append, stepsBits_append, stepsBits_write,
    stepsBits_check]

/-- The body of D-NWRK-BROADCAST. -/
theorem nwrkBroadcast_gotBack {p : CmcePdu} (q : CmcePdu)
    (h : Passes (encoderSteps .nwrkBroadcast p)) (hw : InWidths .nwrkBroadcast p) :
    Gets (decodeDNwrkBroadcast q (stepsBits (encoderSteps .nwrkBroadcast p)).length)
      (stepsBits (encoderSteps .nwrkBroadcast p)) (carriedNwrkBroadcast p q) := by
  have hparameters : ∀ v : BitVec 16,
      Gets (getBits 16) (msbBits (v.setWidth 32) 16) (v.setWidth 32) := by
    intro v
    refine gets_getBits (by decide) (by decide) ?_
    rw [BitVec.toNat_setWidth]
    have hlt := v.isLt
    omega
  have hback : ∀ v : BitVec 16, (v.setWidth 32).setWidth 16 = v := by
    intro v
    rw [BitVec.setWidth_setWidth_of_le _ (by decide), BitVec.setWidth_eq]
  have hpasses := h
  rw [encoderSteps, dNwrkBroadcastSteps, passes_append] at hpasses
  obtain ⟨hhead, htail⟩ := hpasses
  simp only [Passes, decide_eq_true_eq] at hhead
  obtain ⟨hload, -⟩ := hhead
  cases hopt : p.optionalsPresent with
  | false =>
    rw [encoderSteps, dNwrkBroadcastSteps, hopt]
    simp only [stepsBits, writes, List.cons_append, List.nil_append, List.flatMap_cons,
      List.flatMap_nil, Bool.false_eq_true, if_false]
    rw [decodeDNwrkBroadcast]
    refine Gets.check ?_ ?_
    · simp
    refine (hparameters _).bind ?_
    refine (gets_byte (by decide) (by decide) rfl rfl hload).bind ?_
    refine (gets_flag _).bind ?_
    rw [hback]
    simp only [carriedNwrkBroadcast, hopt, Bool.false_and, Bool.false_eq_true, if_false]
    exact gets_pure _
  | true =>
    rw [hopt, if_pos rfl] at htail
    have hcells : Passes (neighbourCellSteps p) := (passes_append.1 htail).2
    have hlen : (stepsBits (networkTimeSteps p)).length + 21 ≤
        (stepsBits (dNwrkBroadcastSteps p)).length := by
      simp only [nwrkBroadcast_bits hopt, List.length_append, msbBits_length]
      omega
    rw [encoderSteps]
    generalize (stepsBits (dNwrkBroadcastSteps p)).length = n at hlen
    rw [nwrkBroadcast_bits hopt, decodeDNwrkBroadcast]
    refine Gets.check (by omega) ?_
    refine (hparameters _).bind ?_
    refine (gets_byte (by decide) (by decide) rfl rfl hload).bind ?_
    refine (gets_flag _).bind ?_
    rw [if_pos rfl, hback]
    refine Gets.check (by omega) ?_
    refine (gets_flag _).bind ?_
    refine (gets_networkTimeIf (hw hopt) hlen).bind ?_
    refine (gets_flag _).bind ?_
    refine (gets_neighbourCellsIf hcells).bind_end ?_
    simp only [carriedNwrkBroadcast, hopt, Bool.true_and]
    exact gets_pure _

end TetraBs
