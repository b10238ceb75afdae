import TetraBs.Cmce.PduRoundTrip

/-! The law of the CMCE codecs: what is encoded is got back, and an error changes nothing. It
breaks in two places. U-SETUP to a party of the reserved type is one bit shorter than its decoder
asks for, and D-NWRK-BROADCAST refuses neighbour cells after it has put their count. -/
namespace TetraBs
open TetraBs.Bits TetraBs.Decoder TetraBs.Steps

/-- The law for one PDU and one buffer. The decoder may be given any buffer in which the bits that
were put stand at the cursor, and any PDU to fill. -/
structure CodecLaw (codec : CmceCodec) (out : BitBuffer) (p : CmcePdu) : Prop where
  gotBack : ∀ {out' : BitBuffer} {n : Nat}, encodeInto codec out p = some (out', .ok n) →
    InWidths codec p → ∀ (input : BitBuffer) (q : CmcePdu), input.pos + n ≤ input.endBits →
      window input.buffer input.pos n = window out'.buffer out.pos n →
      ∃ input', decodeFrom codec input q n = .ok ((carried codec p q).withLength n, input')
  unchanged : ∀ {out' : BitBuffer} {e : Errno},
    encodeInto codec out p = some (out', .error e) → out' = out

/-- A U-SETUP to a party of the reserved type that is encoded. -/
def ReservedParty (codec : CmceCodec) (out : BitBuffer) (p : CmcePdu) : Prop :=
  codec = .pdu .uplink ∧ p.pduType = .setup ∧ p.calledPartyTypeIdentifier = .reserved ∧
    p.areaSelection ≤ 0x0F ∧ p.callPriority ≤ 0x0F ∧ p.clirControl ≤ 3 ∧ InWidths codec p ∧
    out.pos + 29 ≤ out.limit

/-- A D-NWRK-BROADCAST with a count of neighbour cells for which there is room. -/
def NeighbourCells (codec : CmceCodec) (out : BitBuffer) (p : CmcePdu) : Prop :=
  codec = .nwrkBroadcast ∧ p.optionalsPresent = true ∧ p.nwrkPNumCaNeighbourCells = true ∧
    p.nwrkNumCaNeighbourCells ≠ 0 ∧ p.nwrkNumCaNeighbourCells ≤ 7 ∧ p.nwrkCellLoadCa ≤ 3 ∧
    out.pos + (if p.nwrkPTetraNetworkTime then 72 else 24) ≤ out.limit

/-! Calls that succeed. -/

theorem encodeInto_ok {codec : CmceCodec} {out out' : BitBuffer} {p : CmcePdu} {n : Nat}
    (h : encodeInto codec out p = some (out', .ok n)) :
    Passes (encoderSteps codec p) ∧ Put out out' (stepsBits (encoderSteps codec p)) ∧
      n = (stepsBits (encoderSteps codec p)).length ∧
      (writes (encoderSteps codec p) = [] ∨ out'.pos ≤ out.limit) := by
  rw [encodeInto, Option.map_eq_some_iff] at h
  obtain ⟨⟨bb, e⟩, hrun, hres⟩ := h
  cases e with
  | some e => cases hres
  | none =>
    cases hres
    obtain ⟨hpasses, hwrites⟩ := run_none_iff.1 hrun
    obtain ⟨hput, hroom⟩ := writeAll_put hwrites
    refine ⟨hpasses, hput, ?_, hroom⟩
    have hpos := hput.pos_eq
    have hstart := out.start_le
    show bb.pos - bb.start - (out.pos - out.start) = _
    rw [hput.start_eq]
    rw [stepsBits]
    omega

theorem encodeInto_error {codec : CmceCodec} {out out' : BitBuffer} {p : CmcePdu} {e : Errno}
    (h : encodeInto codec out p = some (out', .error e)) :
    run bbPut (encoderSteps codec p) out = some (out', some e) := by
  rw [encodeInto, Option.map_eq_some_iff] at h
  obtain ⟨⟨bb, e'⟩, hrun, hres⟩ := h
  cases e' with
  | some e' =>
    cases hres
    exact hrun
  | none => cases hres

theorem gets_decodeFrom_pdu {dir : CmceDirection} {p q : CmcePdu} (h : GotBack dir p q)
    {input : BitBuffer}
    (hroom : input.pos + (stepsBits (encoderSteps (.pdu dir) p)).length ≤ input.endBits)
    (hwin : window input.buffer input.pos (stepsBits (encoderSteps (.pdu dir) p)).length =
      stepsBits (encoderSteps (.pdu dir) p)) :
    ∃ input', decodeFrom (.pdu dir) input q (stepsBits (encoderSteps (.pdu dir) p)).length =
      .ok ((carried (.pdu dir) p q).withLength
        (stepsBits (encoderSteps (.pdu dir) p)).length, input') := by
  obtain ⟨input', hrun, -⟩ := h input hroom hwin
  exact ⟨input', hrun⟩

/-- No body is as long as the length field could hold. -/
theorem nwrkBroadcast_length_le (p : CmcePdu) :
    (stepsBits (encoderSteps .nwrkBroadcast p)).length ≤ 72 := by
  rw [encoderSteps]
  cases hopt : p.optionalsPresent with
  | false => simp [dNwrkBroadcastSteps, hopt, stepsBits, writes]
  | true =>
    have htime : (stepsBits (networkTimeSteps p)).length ≤ 48 := by
      rw [networkTimeSteps]
      split
      · simp [stepsBits, writes]
      · exact Nat.zero_le _
    have hcells : (stepsBits (neighbourCellSteps p)).length ≤ 3 := by
      rw [neighbourCellSteps]
      split
      · simp [stepsBits, writes]
      · exact Nat.zero_le _
    simp only [nwrkBroadcast_bits hopt, List.length_append, msbBits_length]
    omega

theorem gets_decodeFrom_nwrkBroadcast {p : CmcePdu} (q : CmcePdu)
    (h : Passes (encoderSteps .nwrkBroadcast p)) (hw : InWidths .nwrkBroadcast p)
    {input : BitBuffer}
    (hroom : input.pos + (stepsBits (encoderSteps .nwrkBroadcast p)).length ≤ input.endBits)
    (hwin : window input.buffer input.pos (stepsBits (encoderSteps .nwrkBroadcast p)).length =
      stepsBits (encoderSteps .nwrkBroadcast p)) :
    ∃ input', decodeFrom .nwrkBroadcast input q
        (stepsBits (encoderSteps .nwrkBroadcast p)).length =
      .ok ((carried .nwrkBroadcast p q).withLength
        (stepsBits (encoderSteps .nwrkBroadcast p)).length, input') := by
  obtain ⟨input', hrun, hskip⟩ := nwrkBroadcast_gotBack q h hw input hroom hwin
  refine ⟨input', ?_⟩
  have hle := nwrkBroadcast_length_le p
  have hlen : (bbPosBits input' - bbPosBits input) % 2 ^ 16 =
      (stepsBits (encoderSteps .nwrkBroadcast p)).length := by
    have hstart := input.start_le
    rw [bbPosBits, bbPosBits, hskip.pos_eq, hskip.start_eq]
    omega
  show cmcePduDecodeDNwrkBroadcast input q _ = _
  rw [cmcePduDecodeDNwrkBroadcast, hrun]
  show Except.ok ((carriedNwrkBroadcast p q).withLength
    ((bbPosBits input' - bbPosBits input) % 2 ^ 16), input') = _
  rw [hlen]
  rfl

/-! Calls that fail. -/

theorem passes_calledParty (p : CmcePdu) : Passes (calledPartySteps p) := by
  rw [calledPartySteps]
  cases p.calledPartyTypeIdentifier <;> exact trivial

/-- All encoders but one check before they put. -/
theorem pdu_checksFirst (dir : CmceDirection) (p : CmcePdu) :
    ChecksFirst (encoderSteps (.pdu dir) p) := by
  cases dir <;> cases htype : p.pduType <;>
    simp [encoderSteps, htype, dSetupSteps, uSetupSteps, dCallProceedingSteps, dConnectSteps,
      dTxGrantedSteps, uTxDemandSteps, releaseSteps, pduTypeSteps, ChecksFirst, Passes,
      passes_append, passes_calledParty]

theorem nwrkBroadcast_checksFirst {p : CmcePdu} (h : p.optionalsPresent = true →
      p.nwrkPNumCaNeighbourCells = true → p.nwrkNumCaNeighbourCells = 0) :
    ChecksFirst (encoderSteps .nwrkBroadcast p) := by
  have htime : Passes (networkTimeSteps p) := by
    rw [networkTimeSteps]
    split <;> exact trivial
  have hcells : p.optionalsPresent = true → Passes (neighbourCellSteps p) := by
    intro hopt
    rw [neighbourCellSteps]
    split
    · exact ⟨decide_eq_true (h hopt ‹_›), trivial⟩
    · exact trivial
  show Passes (List.append _ _)
  refine passes_append.2 ⟨trivial, ?_⟩
  split
  · exact passes_append.2 ⟨htime, hcells ‹_›⟩
  · exact trivial

/-- What a D-NWRK-BROADCAST with neighbour cells puts before it is refused. -/
def beforeRefusal (p : CmcePdu) : List EncodeStep :=
  [.check (p.nwrkCellLoadCa ≤ 3) .EINVAL, .check (p.nwrkNumCaNeighbourCells ≤ 7) .EINVAL,
    .write (p.nwrkCellReSelectParameters.setWidth 32, 16),
    .write (p.nwrkCellLoadCa.setWidth 32 &&& 3, 2), .write (presentBit true, 1),
    .write (presentBit p.nwrkPTetraNetworkTime, 1)] ++ networkTimeSteps p ++
  [.write (presentBit true, 1), .write (p.nwrkNumCaNeighbourCells.setWidth 32 &&& 7, 3)]

theorem nwrkBroadcast_refused {p : CmcePdu} (hopt : p.optionalsPresent = true)
    (hcells : p.nwrkPNumCaNeighbourCells = true) (hnum : p.nwrkNumCaNeighbourCells ≠ 0) :
    encoderSteps .nwrkBroadcast p = beforeRefusal p ++ [.check false .ENOTSUP] := by
  rw [encoderSteps, dNwrkBroadcastSteps, beforeRefusal, neighbourCellSteps, hopt, hcells,
    if_pos rfl, if_pos rfl, decide_eq_false hnum]
  simp only [List.cons_append, List.nil_append, List.append_assoc]

theorem beforeRefusal_length (p : CmcePdu) : (stepsBits (beforeRefusal p)).length =
    if p.nwrkPTetraNetworkTime then 72 else 24 := by
  rw [beforeRefusal, networkTimeSteps]
  split <;> simp [stepsBits, writes]

theorem passes_beforeRefusal {p : CmcePdu} (hload : p.nwrkCellLoadCa ≤ 3)
    (hnum : p.nwrkNumCaNeighbourCells ≤ 7) : Passes (beforeRefusal p) := by
  have htime : Passes (networkTimeSteps p) := by
    rw [networkTimeSteps]
    split <;> exact trivial
  rw [beforeRefusal, passes_append, passes_append]
  exact ⟨⟨⟨decide_eq_true hload, decide_eq_true hnum, trivial⟩, htime⟩, trivial⟩

theorem fits_flag (b : Bool) : FitsWidth (presentBit b, 1) := by
  cases b <;> exact ⟨by decide, by decide, by decide⟩

theorem beforeRefusal_fitting (p : CmcePdu) : Fitting (writes (beforeRefusal p)) := by
  have htime : Fitting (writes (networkTimeSteps p)) := by
    rw [networkTimeSteps]
    split
    · simp only [Fitting, writes, List.forall_mem_cons]
      exact ⟨fits_masked _ (by decide) (by decide) (by decide),
        fits_masked _ (by decide) (by decide) (by decide), by simp⟩
    · simp [Fitting, writes]
  simp only [Fitting, beforeRefusal, writes_append, writes, List.forall_mem_append,
    List.forall_mem_cons]
  exact ⟨⟨⟨fits_widened _ (by decide) (by decide),
    fits_masked _ (by decide) (by decide) (by decide), fits_flag _, fits_flag _, by simp⟩, htime⟩,
    fits_flag _, fits_masked _ (by decide) (by decide) (by decide), by simp⟩

theorem reservedParty_fitting {p : CmcePdu} (hparty : p.calledPartyTypeIdentifier = .reserved) :
    Fitting (writes (uSetupSteps p)) := by
  simp only [Fitting, uSetupSteps, pduTypeSteps, calledPartySteps, hparty, writes_append, writes,
    List.forall_mem_append, List.forall_mem_cons]
  exact ⟨⟨⟨⟨by simp, ⟨by decide, by decide, by decide⟩, by simp⟩,
    fits_masked _ (by decide) (by decide) (by decide),
    fits_masked _ (by decide) (by decide) (by decide),
    fits_masked _ (by decide) (by decide) (by decide), fits_widened _ (by decide) (by decide),
    fits_masked _ (by decide) (by decide) (by decide),
    fits_masked _ (by decide) (by decide) (by decide),
    fits_masked _ (by decide) (by decide) (by decide),
    fits_masked _ (by decide) (by decide) (by decide), by simp⟩, by simp⟩, fits_flag _, by simp⟩

theorem reservedParty_length {p : CmcePdu} (hparty : p.calledPartyTypeIdentifier = .reserved) :
    (stepsBits (uSetupSteps p)).length = 29 := by
  simp [uSetupSteps, pduTypeSteps, calledPartySteps, hparty, stepsBits, writes]

/-! Where the law holds. -/

theorem gotBack_of_pdu {dir : CmceDirection} {p : CmcePdu} (q : CmcePdu)
    (h : Passes (encoderSteps (.pdu dir) p)) (hw : InWidths (.pdu dir) p)
    (hres : dir = .uplink → p.pduType = .setup → p.calledPartyTypeIdentifier ≠ .reserved) :
    GotBack dir p q := by
  have hnone : ¬Passes ([.check false .EINVAL] : List EncodeStep) :=
    fun h => Bool.false_ne_true h.1
  cases dir with
  | downlink =>
    cases htype : p.pduType with
    | setup => exact dSetup_gotBack q htype h hw
    | callProceeding => exact dCallProceeding_gotBack q htype h hw
    | connect => exact dConnect_gotBack q htype h hw
    | txGranted => exact dTxGranted_gotBack q htype h hw
    | release => exact release_gotBack q .downlink htype h
    | _ =>
      simp only [encoderSteps, htype] at h
      exact absurd h hnone
  | uplink =>
    cases htype : p.pduType with
    | setup => exact uSetup_gotBack q htype (hres rfl htype) h hw
    | txDemand => exact uTxDemand_gotBack q htype h hw
    | release => exact release_gotBack q .uplink htype h
    | _ =>
      simp only [encoderSteps, htype] at h
      exact absurd h hnone

theorem codecLaw_of_not {codec : CmceCodec} {out : BitBuffer} {p : CmcePdu}
    (hres : ¬ReservedParty codec out p) (hcells : ¬NeighbourCells codec out p) :
    CodecLaw codec out p where
  gotBack {out' n} hrun hw input q hroom hwin := by
    obtain ⟨hpasses, hput, hn, hend⟩ := encodeInto_ok hrun
    rw [hn, hput.window_eq] at hwin
    rw [hn] at hroom ⊢
    cases codec with
    | nwrkBroadcast => exact gets_decodeFrom_nwrkBroadcast q hpasses hw hroom hwin
    | pdu dir =>
      refine gets_decodeFrom_pdu (gotBack_of_pdu q hpasses hw ?_) hroom hwin
      intro hdir htype hparty
      subst hdir
      have hsteps : encoderSteps (.pdu .uplink) p = uSetupSteps p := by
        simp only [encoderSteps, htype]
      rw [hsteps] at hpasses hput hend
      have hpos := hput.pos_eq
      rw [reservedParty_length hparty] at hpos
      obtain ⟨harea, hpriority, hclir, -⟩ := hpasses
      refine hres ⟨rfl, htype, hparty, of_decide_eq_true harea, of_decide_eq_true hpriority,
        of_decide_eq_true hclir, hw, ?_⟩
      obtain hnil | hend := hend
      · simp [uSetupSteps, pduTypeSteps, writes] at hnil
      · rwa [hpos] at hend
  unchanged {out' e} hrun := by
    have hrun := encodeInto_error hrun
    cases codec with
    | pdu dir => exact (pdu_checksFirst dir p).unchanged hrun
    | nwrkBroadcast =>
      by_cases h : p.optionalsPresent = true ∧ p.nwrkPNumCaNeighbourCells = true ∧
          p.nwrkNumCaNeighbourCells ≠ 0
      · obtain ⟨hopt, hpcells, hnum⟩ := h
        by_cases hload : p.nwrkCellLoadCa ≤ 3
        · by_cases hle : p.nwrkNumCaNeighbourCells ≤ 7
          · rw [nwrkBroadcast_refused hopt hpcells hnum,
              run_append_check (passes_beforeRefusal hload hle), Option.map_eq_some_iff] at hrun
            obtain ⟨bb, hwrites, -⟩ := hrun
            obtain ⟨hput, hend⟩ := writeAll_put hwrites
            refine absurd ⟨rfl, hopt, hpcells, hnum, hle, hload, ?_⟩ hcells
            have hpos : bb.pos = out.pos + (stepsBits (beforeRefusal p)).length := hput.pos_eq
            rw [beforeRefusal_length] at hpos
            obtain hnil | hend := hend
            · simp [beforeRefusal, writes] at hnil
            · rwa [hpos] at hend
          · rw [encoderSteps, dNwrkBroadcastSteps, List.cons_append, run,
              if_pos (decide_eq_true hload), List.cons_append, run, decide_eq_false hle] at hrun
            cases hrun
            rfl
        · rw [encoderSteps, dNwrkBroadcastSteps, List.cons_append, run,
            decide_eq_false hload] at hrun
          cases hrun
          rfl
      · refine (nwrkBroadcast_checksFirst ?_).unchanged hrun
        intro hopt hpcells
        by_contra hnum
        exact h ⟨hopt, hpcells, hnum⟩

/-! Where it breaks. -/

theorem encodeInto_some {codec : CmceCodec} {out : BitBuffer} {p : CmcePdu}
    (hpasses : Passes (encoderSteps codec p)) (hfit : Fitting (writes (encoderSteps codec p)))
    (hroom : out.pos + (stepsBits (encoderSteps codec p)).length ≤ out.limit) :
    ∃ out' n, encodeInto codec out p = some (out', .ok n) := by
  obtain ⟨bb, hbb⟩ := writeAll_some hfit hroom
  refine ⟨bb, bbPosBits bb - bbPosBits out, ?_⟩
  rw [encodeInto, run_of_passes hpasses, hbb]
  rfl

/-- The buffer with its cursor set back. -/
def BitBuffer.rewound (bb : BitBuffer) (pos : Nat) (hstart : bb.start ≤ pos)
    (hpos : pos ≤ bb.endBits) : BitBuffer :=
  { bb with pos := pos, start_le := hstart, pos_le := hpos }

theorem Gets.then_fails {α β : Type} {d : BitM α} {f : α → BitM β} {u v : List Bool} {a : α}
    {fault : Fault} (hd : Gets d u a) (hf : ∀ bb, (f a).run bb = .error fault) {bb : BitBuffer}
    (hroom : bb.pos + (u ++ v).length ≤ bb.endBits)
    (hwin : window bb.buffer bb.pos (u ++ v).length = u ++ v) :
    (d >>= f).run bb = .error fault := by
  rw [List.length_append] at hroom hwin
  rw [window_add] at hwin
  obtain ⟨hu, -⟩ := List.append_inj hwin (window_length _ _ _)
  obtain ⟨bb', hrun, -⟩ := hd bb (by omega) hu
  rw [StateT.run_bind, hrun]
  exact hf bb'

/-- Less than 30 bits are no U-SETUP. -/
theorem decodeUSetup_short {n : Nat} (hn : 5 ≤ n) (hshort : n < 30) {bb : BitBuffer}
    {rest : List Bool} (hlen : (msbBits (CmcePduType.setup.value.setWidth 32) 5 ++ rest).length = n)
    (hroom : bb.pos + n ≤ bb.endBits) (hwin : window bb.buffer bb.pos n =
      msbBits (CmcePduType.setup.value.setWidth 32) 5 ++ rest) :
    (decodeCmcePdu .uplink n).run bb = .error (.errno .EPROTO) := by
  have hpass : failUnless (5 ≤ n) .EPROTO = pure () := if_pos hn
  have hfail : failUnless (30 ≤ n) .EPROTO = failWith .EPROTO := if_neg (Nat.not_le_of_lt hshort)
  rw [← hlen] at hroom hwin
  rw [decodeCmcePdu, hpass, pure_bind]
  refine (gets_pduType (t := .setup) (by decide)).then_fails (fun bb => ?_) hroom hwin
  show (decodeUSetup { pduType := .setup } n >>= _).run bb = _
  rw [decodeUSetup, hfail]
  rfl

theorem reservedParty_breaks {codec : CmceCodec} {out : BitBuffer} {p : CmcePdu}
    (h : ReservedParty codec out p) : ¬CodecLaw codec out p := by
  obtain ⟨rfl, htype, hparty, harea, hpriority, hclir, hw, hroom⟩ := h
  intro hlaw
  have hsteps : encoderSteps (.pdu .uplink) p = uSetupSteps p := by
    simp only [encoderSteps, htype]
  have hlen := reservedParty_length hparty
  have hpasses : Passes (encoderSteps (.pdu .uplink) p) := by
    rw [hsteps, uSetupSteps, passes_append, passes_append, passes_append, passes_append]
    exact ⟨⟨⟨⟨⟨decide_eq_true harea, decide_eq_true hpriority, decide_eq_true hclir, trivial⟩,
      rfl, trivial⟩, trivial⟩, passes_calledParty p⟩, trivial⟩
  obtain ⟨rest, hrest⟩ : ∃ rest, stepsBits (uSetupSteps p) =
      msbBits (CmcePduType.setup.value.setWidth 32) 5 ++ rest := by
    rw [uSetupSteps, List.append_assoc, List.append_assoc, List.append_assoc, stepsBits_append,
      stepsBits_append]
    exact ⟨_, rfl⟩
  have hfit : Fitting (writes (encoderSteps (.pdu .uplink) p)) := by
    rw [hsteps]
    exact reservedParty_fitting hparty
  have hroom' : out.pos + (stepsBits (encoderSteps (.pdu .uplink) p)).length ≤ out.limit := by
    rw [hsteps, hlen]
    exact hroom
  obtain ⟨out', n, hrun⟩ := encodeInto_some hpasses hfit hroom'
  obtain ⟨-, hput, hn, -⟩ := encodeInto_ok hrun
  rw [hsteps] at hput hn
  have hbits : n = 29 := hn.trans hlen
  have hpos := hput.pos_eq
  have hwin := hput.window_eq
  rw [← hn] at hpos hwin
  have hstart : out'.start ≤ out.pos := by
    rw [hput.start_eq]
    exact out.start_le
  have hend : out.pos + n ≤ out'.endBits := hpos ▸ out'.pos_le
  have hback : out.pos ≤ out'.endBits := Nat.le_trans (Nat.le_add_right _ _) hend
  obtain ⟨input', hdec⟩ :=
    hlaw.gotBack hrun hw (out'.rewound out.pos hstart hback) p hend rfl
  rw [hrest] at hwin hn
  have hat : window (out'.rewound out.pos hstart hback).buffer
      (out'.rewound out.pos hstart hback).pos n =
      msbBits (CmcePduType.setup.value.setWidth 32) 5 ++ rest := hwin
  have hshort := decodeUSetup_short (by omega) (by omega) hn.symm hend hat
  rw [decodeFrom, cmcePduDecode, hshort] at hdec
  cases hdec

theorem neighbourCells_breaks {codec : CmceCodec} {out : BitBuffer} {p : CmcePdu}
    (h : NeighbourCells codec out p) : ¬CodecLaw codec out p := by
  obtain ⟨rfl, hopt, hcells, hnum, hle, hload, hroom⟩ := h
  intro hlaw
  rw [← beforeRefusal_length p] at hroom
  obtain ⟨bb, hbb⟩ := writeAll_some (beforeRefusal_fitting p) hroom
  have hrun : encodeInto .nwrkBroadcast out p = some (bb, .error .ENOTSUP) := by
    rw [encodeInto, nwrkBroadcast_refused hopt hcells hnum,
      run_append_check (passes_beforeRefusal hload hle), hbb]
    rfl
  have hput := (writeAll_put hbb).1.pos_eq
  rw [hlaw.unchanged hrun] at hput
  have hpos : 0 < (stepsBits (beforeRefusal p)).length := by
    rw [beforeRefusal_length]
    split
    · exact Nat.succ_pos _
    · exact Nat.succ_pos _
  rw [stepsBits] at hpos
  omega

/-- The law holds for all PDUs and buffers but these. -/
theorem codecLaw_iff (codec : CmceCodec) (out : BitBuffer) (p : CmcePdu) :
    CodecLaw codec out p ↔ ¬ReservedParty codec out p ∧ ¬NeighbourCells codec out p := by
  constructor
  · intro hlaw
    exact ⟨fun h => reservedParty_breaks h hlaw, fun h => neighbourCells_breaks h hlaw⟩
  · rintro ⟨hres, hcells⟩
    exact codecLaw_of_not hres hcells

theorem sixteen_bytes : 128 ≤ 8 * (List.replicate 16 0#8).length := Nat.le_refl _

/-- Sixteen zero bytes. -/
def emptyBuffer : BitBuffer := bbInit (List.replicate 16 0#8) 128 sixteen_bytes

/-- Both PDUs are all zero but for what makes them fail. -/
theorem codec_loses_two :
    ¬CodecLaw (.pdu .uplink) emptyBuffer
      { pduType := .setup, calledPartyTypeIdentifier := .reserved } ∧
    ¬CodecLaw .nwrkBroadcast emptyBuffer
      { optionalsPresent := true, nwrkPNumCaNeighbourCells := true
        nwrkNumCaNeighbourCells := 1 } := by
  constructor
  · refine reservedParty_breaks ⟨rfl, rfl, rfl, by decide, by decide, by decide, ?_, by decide⟩
    exact ⟨by decide, by decide, by decide, by decide⟩
  · exact neighbourCells_breaks ⟨rfl, rfl, rfl, by decide, by decide, by decide, by decide⟩

end TetraBs
