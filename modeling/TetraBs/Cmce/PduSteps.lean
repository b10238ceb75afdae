import TetraBs.Cmce.Pdu
import TetraBs.Core.BitSteps

/-! The encoders of `sw/cmce/cmce_pdu.c` one check and one put after the other: what they leave
in the caller's buffer when they return an error. -/
namespace TetraBs
open TetraBs.Bits TetraBs.Decoder TetraBs.Steps

def pduTypeSteps (v : Byte) : List EncodeStep :=
  [.check (v ≤ 0x1F) .EINVAL, .write (v.setWidth 32, 5)]

def dSetupSteps (p : CmcePdu) : List EncodeStep :=
  [.check (p.callIdentifier ≤ 0x3FFF) .EINVAL, .check (p.callTimeOut ≤ 0x0F) .EINVAL,
    .check (p.callPriority ≤ 0x0F) .EINVAL] ++ pduTypeSteps CmcePduType.setup.value ++
  [.write (p.callIdentifier.setWidth 32 &&& 0x3FFF, 14),
    .write (p.callTimeOut.setWidth 32 &&& 0x0F, 4),
    .write (p.hookMethodSelection.setWidth 32 &&& 1, 1),
    .write (p.simplexDuplexSelection.setWidth 32 &&& 1, 1),
    .write (p.basicServiceInformation.setWidth 32, 8),
    .write (p.transmissionGrant.value &&& 3, 2),
    .write (p.transmissionRequestPermission.setWidth 32 &&& 1, 1),
    .write (p.callPriority.setWidth 32 &&& 0x0F, 4),
    .write (presentBit p.optionalsPresent, 1)]

def calledPartySteps (p : CmcePdu) : List EncodeStep :=
  match p.calledPartyTypeIdentifier with
  | .sna => [.write (p.calledPartyShortNumberAddress.setWidth 32, 8)]
  | .ssi => [.write (p.calledPartyAddressSsi &&& tetraSsiMask24, 24)]
  | .tsi => [.write (p.calledPartyAddressSsi &&& tetraSsiMask24, 24)]
  | .reserved => []

def uSetupSteps (p : CmcePdu) : List EncodeStep :=
  [.check (p.areaSelection ≤ 0x0F) .EINVAL, .check (p.callPriority ≤ 0x0F) .EINVAL,
    .check (p.clirControl ≤ 3) .EINVAL] ++ pduTypeSteps CmcePduType.setup.value ++
  [.write (p.areaSelection.setWidth 32 &&& 0x0F, 4),
    .write (p.hookMethodSelection.setWidth 32 &&& 1, 1),
    .write (p.simplexDuplexSelection.setWidth 32 &&& 1, 1),
    .write (p.basicServiceInformation.setWidth 32, 8),
    .write (p.requestToTransmitSendData.setWidth 32 &&& 1, 1),
    .write (p.callPriority.setWidth 32 &&& 0x0F, 4),
    .write (p.clirControl.setWidth 32 &&& 3, 2),
    .write (p.calledPartyTypeIdentifier.value &&& 3, 2)] ++ calledPartySteps p ++
  [.write (presentBit p.optionalsPresent, 1)]

def dCallProceedingSteps (p : CmcePdu) : List EncodeStep :=
  [.check (p.callIdentifier ≤ 0x3FFF) .EINVAL, .check (p.callTimeOutSetUpPhase ≤ 7) .EINVAL] ++
    pduTypeSteps CmcePduType.callProceeding.value ++
  [.write (p.callIdentifier.setWidth 32 &&& 0x3FFF, 14),
    .write (p.callTimeOutSetUpPhase.setWidth 32 &&& 7, 3),
    .write (p.hookMethodSelection.setWidth 32 &&& 1, 1),
    .write (p.simplexDuplexSelection.setWidth 32 &&& 1, 1),
    .write (presentBit p.optionalsPresent, 1)]

def dConnectSteps (p : CmcePdu) : List EncodeStep :=
  [.check (p.callIdentifier ≤ 0x3FFF) .EINVAL, .check (p.callTimeOut ≤ 0x0F) .EINVAL] ++
    pduTypeSteps CmcePduType.connect.value ++
  [.write (p.callIdentifier.setWidth 32 &&& 0x3FFF, 14),
    .write (p.callTimeOut.setWidth 32 &&& 0x0F, 4),
    .write (p.hookMethodSelection.setWidth 32 &&& 1, 1),
    .write (p.simplexDuplexSelection.setWidth 32 &&& 1, 1),
    .write (p.transmissionGrant.value &&& 3, 2),
    .write (p.transmissionRequestPermission.setWidth 32 &&& 1, 1),
    .write (p.callOwnership.setWidth 32 &&& 1, 1),
    .write (presentBit p.optionalsPresent, 1)]

def dTxGrantedSteps (p : CmcePdu) : List EncodeStep :=
  [.check (p.callIdentifier ≤ 0x3FFF) .EINVAL] ++ pduTypeSteps CmcePduType.txGranted.value ++
  [.write (p.callIdentifier.setWidth 32 &&& 0x3FFF, 14),
    .write (p.transmissionGrant.value &&& 3, 2),
    .write (p.transmissionRequestPermission.setWidth 32 &&& 1, 1),
    .write (p.encryptionControl.setWidth 32 &&& 1, 1), .write (0, 1),
    .write (presentBit p.optionalsPresent, 1)]

def uTxDemandSteps (p : CmcePdu) : List EncodeStep :=
  [.check (p.callIdentifier ≤ 0x3FFF) .EINVAL, .check (p.txDemandPriority ≤ 3) .EINVAL] ++
    pduTypeSteps CmcePduType.txDemand.value ++
  [.write (p.callIdentifier.setWidth 32 &&& 0x3FFF, 14),
    .write (p.txDemandPriority.setWidth 32 &&& 3, 2),
    .write (p.encryptionControl.setWidth 32 &&& 1, 1), .write (0, 1),
    .write (presentBit p.optionalsPresent, 1)]

def releaseSteps (p : CmcePdu) : List EncodeStep :=
  [.check (p.callIdentifier ≤ 0x3FFF) .EINVAL, .check (p.disconnectCause ≤ 0x1F) .EINVAL] ++
    pduTypeSteps CmcePduType.release.value ++
  [.write (p.callIdentifier.setWidth 32 &&& 0x3FFF, 14), .write (p.disconnectCause &&& 0x1F, 5),
    .write (presentBit p.optionalsPresent, 1)]

/-- The network time goes out in two halves. -/
def networkTimeSteps (p : CmcePdu) : List EncodeStep :=
  if p.nwrkPTetraNetworkTime then
    [.write ((p.nwrkTetraNetworkTime >>> 24).setWidth 32 &&& 0xFFFFFF, 24),
      .write (p.nwrkTetraNetworkTime.setWidth 32 &&& 0xFFFFFF, 24)]
  else []

/-- The count is put before it is refused. -/
def neighbourCellSteps (p : CmcePdu) : List EncodeStep :=
  if p.nwrkPNumCaNeighbourCells then
    [.write (p.nwrkNumCaNeighbourCells.setWidth 32 &&& 7, 3),
      .check (p.nwrkNumCaNeighbourCells = 0) .ENOTSUP]
  else []

def dNwrkBroadcastSteps (p : CmcePdu) : List EncodeStep :=
  [.check (p.nwrkCellLoadCa ≤ 3) .EINVAL, .check (p.nwrkNumCaNeighbourCells ≤ 7) .EINVAL,
    .write (p.nwrkCellReSelectParameters.setWidth 32, 16),
    .write (p.nwrkCellLoadCa.setWidth 32 &&& 3, 2),
    .write (presentBit p.optionalsPresent, 1)] ++
  if p.optionalsPresent then
    .write (presentBit p.nwrkPTetraNetworkTime, 1) :: networkTimeSteps p ++
      .write (presentBit p.nwrkPNumCaNeighbourCells, 1) :: neighbourCellSteps p
  else []

/-- The two pairs of an encoder and a decoder. -/
inductive CmceCodec where
  | pdu (dir : CmceDirection)
  | nwrkBroadcast
deriving DecidableEq, Repr

def encoderSteps (codec : CmceCodec) (p : CmcePdu) : List EncodeStep :=
  match codec, p.pduType with
  | .nwrkBroadcast, _ => dNwrkBroadcastSteps p
  | .pdu .downlink, .setup => dSetupSteps p
  | .pdu .uplink, .setup => uSetupSteps p
  | .pdu .downlink, .callProceeding => dCallProceedingSteps p
  | .pdu .downlink, .connect => dConnectSteps p
  | .pdu .uplink, .txDemand => uTxDemandSteps p
  | .pdu .downlink, .txGranted => dTxGrantedSteps p
  | .pdu _, .release => releaseSteps p
  | .pdu _, _ => [.check false .EINVAL]

/-- What a call leaves in the caller's buffer and returns; `none` is a failed assertion. -/
def encodeInto (codec : CmceCodec) (out : BitBuffer) (p : CmcePdu) :
    Option (BitBuffer × Except Errno Nat) :=
  (run bbPut (encoderSteps codec p) out).map fun r =>
    (r.1, match r.2 with
      | some e => .error e
      | none => .ok (bbPosBits r.1 - bbPosBits out))

/-! The steps are those of the encoders. -/

theorem asBitM_append (u v : List EncodeStep) :
    asBitM (u ++ v) = asBitM u >>= fun _ => asBitM v := by
  induction u with
  | nil => simp [asBitM]
  | cons step u ih =>
    cases step with
    | check ok e => simp [asBitM, ih]
    | write f => simp [asBitM, ih]

@[simp] theorem failUnless_decide (c : Prop) [Decidable c] (e : Errno) :
    failUnless (decide c = true) e = failUnless c e := by
  by_cases hc : c
  · simp [failUnless, hc]
  · simp [failUnless, hc]

@[simp] theorem asBitM_pduType (v : Byte) : asBitM (pduTypeSteps v) = putPduType v := by
  simp [pduTypeSteps, asBitM, putPduType]

@[simp] theorem asBitM_calledParty (p : CmcePdu) :
    asBitM (calledPartySteps p) = putCalledParty p := by
  rw [calledPartySteps, putCalledParty]
  cases p.calledPartyTypeIdentifier <;> simp [asBitM]

theorem asBitM_encoder (p : CmcePdu) (dir : CmceDirection) :
    asBitM (encoderSteps (.pdu dir) p) = cmceEncoder p dir := by
  have hrelease : asBitM (releaseSteps p) = encodeRelease p := by
    simp [releaseSteps, encodeRelease, asBitM_append, asBitM]
  have hnone : asBitM [.check false .EINVAL] = failWith .EINVAL := rfl
  cases dir with
  | downlink =>
    cases htype : p.pduType with
    | setup =>
      simp [encoderSteps, cmceEncoder, htype, dSetupSteps, encodeDSetup, asBitM_append, asBitM]
    | callProceeding =>
      simp [encoderSteps, cmceEncoder, htype, dCallProceedingSteps, encodeDCallProceeding,
        asBitM_append, asBitM]
    | connect =>
      simp [encoderSteps, cmceEncoder, htype, dConnectSteps, encodeDConnect, asBitM_append,
        asBitM]
    | txGranted =>
      simp [encoderSteps, cmceEncoder, htype, dTxGrantedSteps, encodeDTxGranted, asBitM_append,
        asBitM]
    | release => simpa only [encoderSteps, cmceEncoder, htype] using hrelease
    | _ => simp only [encoderSteps, cmceEncoder, htype, hnone]
  | uplink =>
    cases htype : p.pduType with
    | setup =>
      simp [encoderSteps, cmceEncoder, htype, uSetupSteps, encodeUSetup, asBitM_append, asBitM]
    | txDemand =>
      simp [encoderSteps, cmceEncoder, htype, uTxDemandSteps, encodeUTxDemand, asBitM_append,
        asBitM]
    | release => simpa only [encoderSteps, cmceEncoder, htype] using hrelease
    | _ => simp only [encoderSteps, cmceEncoder, htype, hnone]

theorem asBitM_nwrkBroadcast (p : CmcePdu) :
    asBitM (encoderSteps .nwrkBroadcast p) = encodeDNwrkBroadcast p := by
  rw [encoderSteps, dNwrkBroadcastSteps, encodeDNwrkBroadcast]
  cases p.optionalsPresent
  · simp [asBitM]
  · cases htime : p.nwrkPTetraNetworkTime <;> cases hcells : p.nwrkPNumCaNeighbourCells <;>
      simp [networkTimeSteps, neighbourCellSteps, htime, hcells, asBitM]

/-- What a call hands on when it does not return the buffer of an error. -/
def encodeResult : Option (BitBuffer × Except Errno Nat) → Except Fault (BitBuffer × Nat)
  | none => .error .assertion
  | some (_, .error e) => .error (.errno e)
  | some (bb, .ok n) => .ok (bb, n)

theorem encodeInto_result {codec : CmceCodec} {p : CmcePdu} {d : BitM Unit}
    (h : asBitM (encoderSteps codec p) = d) (out : BitBuffer) :
    encodeResult (encodeInto codec out p) =
      (d.run out).map fun r => (r.2, bbPosBits r.2 - bbPosBits out) := by
  rw [← h, asBitM_run, encodeInto]
  cases run bbPut (encoderSteps codec p) out with
  | none => rfl
  | some r =>
    obtain ⟨bb, e⟩ := r
    cases e <;> rfl

theorem encodeInto_pdu (out : BitBuffer) (p : CmcePdu) (dir : CmceDirection) :
    encodeResult (encodeInto (.pdu dir) out p) = cmcePduEncode out p dir := by
  rw [encodeInto_result (asBitM_encoder p dir), cmcePduEncode]
  cases h : (cmceEncoder p dir).run out <;> rfl

theorem encodeInto_nwrkBroadcast (out : BitBuffer) (p : CmcePdu) :
    encodeResult (encodeInto .nwrkBroadcast out p) = cmcePduEncodeDNwrkBroadcast out p := by
  rw [encodeInto_result (asBitM_nwrkBroadcast p), cmcePduEncodeDNwrkBroadcast]
  cases h : (encodeDNwrkBroadcast p).run out <;> rfl

end TetraBs
