import TetraBs.Infra.TmasapTxFrames
import TetraBs.Infra.DmaUnpackerFrames

/-! The byte transfer law and the frame outcomes of the two PS-to-FPGA framers. Both look at the
consumer's ready alone when they leave a lane, and not at what their output register holds. -/
namespace TetraBs.Infra
open TetraBs.Bits TetraBs.Run TetraBs.Stream TetraBs.Serial

/-- Along every run whose consumer keeps up, and for any gaps between the words, the consumer
receives the payload bytes of each frame, each once and in order, and then the end of the frame. -/
theorem byte_transfer_law (fs gs : List (List Beat)) (is js : List SlaveInput) :
    ((∀ f ∈ fs, IsFrame f ∧ TmasapTx.Complete f) →
      Along (History.edge TmasapTx.serializer) (History.KeepsUp TmasapTx.serializer)
        (History.start TmasapTx.reset) is →
      (TmasapTx.run is).words <+: fs.flatten →
      (TmasapTx.run is).Delivered TmasapTx.serializer TmasapTx.owed fs.flatten
        (fs.flatMap fun f => script (TmasapTx.payload f))) ∧
    ((∀ g ∈ gs, IsFrame g ∧ Unpacker.Complete g) →
      Along (History.edge Unpacker.serializer) (History.KeepsUp Unpacker.serializer)
        (History.start Unpacker.reset) js →
      (Unpacker.run js).words <+: gs.flatten →
      (Unpacker.run js).Delivered Unpacker.serializer Unpacker.owed gs.flatten
        (gs.flatMap fun g => script (Unpacker.payload g))) :=
  ⟨fun hf hk hw => TmasapTx.delivered hf hk hw, fun hf hk hw => Unpacker.delivered hf hk hw⟩

/-- A frame of five payload bytes, padded on the wire. -/
def tmasFrame : List Beat :=
  [Beat.mid MAGIC_TMAS, Beat.mid 0x00290028, Beat.mid 0x00000017, Beat.mid 0, Beat.mid 0,
    Beat.mid 0, Beat.mid 0, Beat.mid 0, Beat.mid 7, Beat.mid 0xA1A2A3A4, ⟨0xA5000000, 0xF, true⟩]

def unpackerFrame : List Beat :=
  [Beat.mid MAGIC_TMAR, Beat.mid 13, Beat.mid 0xA1A2A3A4, ⟨0xA5000000, 0x8, true⟩]

def offer (b : Beat) : SlaveInput := ⟨b.tdata, true, b.tlast, b.tkeep, true⟩

/-- An edge without a word. -/
def gap (byteReady : Bool) : SlaveInput := ⟨0, false, false, 0, byteReady⟩

/-- The words `ws` and then, for each word of `body`, the word and its four lanes; only the
consumer's ready changes. -/
def framerRun (ws : List Beat) (body : List (Beat × List Bool)) : List SlaveInput :=
  ws.map offer ++ body.flatMap fun b => offer b.1 :: b.2.map gap

def tmasRun (ready : List Bool) : List SlaveInput :=
  framerRun (tmasFrame.take 9)
    [(Beat.mid 0xA1A2A3A4, ready), (⟨0xA5000000, 0xF, true⟩, [true, true, true, true, true])]

def unpackerRun (ready : List Bool) : List SlaveInput :=
  framerRun (unpackerFrame.take 2)
    [(Beat.mid 0xA1A2A3A4, ready), (⟨0xA5000000, 0x8, true⟩, [true, true, true, true, true])]

/-- Both framers with a consumer that is ready whenever a byte is offered. -/
theorem byte_transfer_law_ready :
    ((TmasapTx.run (tmasRun [true, true, true, true])).Delivered TmasapTx.serializer TmasapTx.owed
        tmasFrame (script [0xA1, 0xA2, 0xA3, 0xA4, 0xA5])) ∧
      (Unpacker.run (unpackerRun [true, true, true, true])).Delivered Unpacker.serializer
        Unpacker.owed unpackerFrame (script [0xA1, 0xA2, 0xA3, 0xA4, 0xA5]) := by
  have hlaw := byte_transfer_law [tmasFrame] [unpackerFrame]
    (tmasRun [true, true, true, true]) (unpackerRun [true, true, true, true])
  constructor
  · exact hlaw.1 (by decide +kernel) (by decide +kernel) (by decide +kernel)
  · exact hlaw.2 (by decide +kernel) (by decide +kernel) (by decide +kernel)

/-- One stalled edge: the second byte is never taken, and the third one twice. -/
theorem stall_loses_byte :
    ((TmasapTx.run (tmasRun [true, true, false, true, true])).words = tmasFrame ∧
      IsFrame tmasFrame ∧ TmasapTx.Complete tmasFrame ∧
      TmasapTx.payload tmasFrame = [0xA1, 0xA2, 0xA3, 0xA4, 0xA5] ∧
      (TmasapTx.run (tmasRun [true, true, false, true, true])).seen =
        script [0xA1, 0xA3, 0xA3, 0xA4, 0xA5]) ∧
    (Unpacker.run (unpackerRun [true, true, false, true, true])).words = unpackerFrame ∧
      IsFrame unpackerFrame ∧ Unpacker.Complete unpackerFrame ∧
      Unpacker.payload unpackerFrame = [0xA1, 0xA2, 0xA3, 0xA4, 0xA5] ∧
      (Unpacker.run (unpackerRun [true, true, false, true, true])).seen =
        script [0xA1, 0xA3, 0xA3, 0xA4, 0xA5] := by
  decide +kernel

/-! Outcomes. -/

/-- Every run resolves each of its frames, and the framer goes on with the first word of the next
one. -/
theorem frames_resolved (is js : List SlaveInput) :
    TmasapTx.Accounts is ∧ Unpacker.Accounts js :=
  ⟨TmasapTx.accounts is, Unpacker.accounts js⟩

/-- A frame of one word with a wrong magic. -/
def wrongMagic : SlaveInput := offer ⟨0, 0xF, true⟩

theorem step_wrong_magic {s : TmasapTx.State} (hst : s.state = .hdrW0) :
    (TmasapTx.step s wrongMagic).state = .hdrW0 ∧
      outcomes (TmasapTx.serializer.raised s wrongMagic) = [.error] := by
  have hmagic : ¬ (0#32 : Word) = MAGIC_TMAS := by decide
  rw [TmasapTx.outcomes_raised]
  simp [TmasapTx.step, hst, wrongMagic, offer, hmagic, TmasapTx.sAxisTready,
    TmasapTx.State.clearPulses, TmasapTx.State.release, TmasapTx.State.drop, TmasapTx.State.fail]

theorem run_wrong_magic (n : Nat) :
    (TmasapTx.run (List.replicate n wrongMagic)).state.state = .hdrW0 ∧
      outcomes (TmasapTx.run (List.replicate n wrongMagic)).raised = List.replicate n .error := by
  induction n with
  | zero => exact ⟨rfl, rfl⟩
  | succ n ih =>
    obtain ⟨hst, hout⟩ := ih
    have hrun : TmasapTx.run (List.replicate (n + 1) wrongMagic) =
        (TmasapTx.run (List.replicate n wrongMagic)).edge TmasapTx.serializer wrongMagic := by
      rw [List.replicate_succ', TmasapTx.run, exec_snoc]
      rfl
    have hstep := step_wrong_magic hst
    rw [hrun, List.replicate_succ']
    refine ⟨hstep.1, ?_⟩
    rw [← hstep.2, ← hout, ← outcomes_append]
    rfl

/-- A frame of one payload byte with a second body word. -/
def longFrame : List Beat :=
  [Beat.mid MAGIC_TMAS, Beat.mid 0x00250008, Beat.mid 0x00000017, Beat.mid 0, Beat.mid 0,
    Beat.mid 0, Beat.mid 0, Beat.mid 0, Beat.mid 7, Beat.mid 0xA1000000, ⟨0, 0xF, true⟩]

def longRun : List SlaveInput :=
  framerRun (longFrame.take 9)
    [(Beat.mid 0xA1000000, [true, true, true, true]), (⟨0, 0xF, true⟩, [true])]

/-- The 65536th wrong magic is an error that is not counted any more, and a frame that goes on
behind its payload is neither ended nor rejected. -/
theorem error_not_counted_and_frame_without_outcome :
    (outcomes (TmasapTx.run (List.replicate 65536 wrongMagic)).raised =
        outcomes (TmasapTx.run (List.replicate 65535 wrongMagic)).raised ++ [.error] ∧
      (TmasapTx.run (List.replicate 65536 wrongMagic)).state.errCnt =
        (TmasapTx.run (List.replicate 65535 wrongMagic)).state.errCnt) ∧
    (TmasapTx.run longRun).words = longFrame ∧ IsFrame longFrame ∧
      (TmasapTx.run longRun).state.state = .hdrW0 ∧
      outcomes (TmasapTx.run longRun).raised = [] := by
  refine ⟨⟨?_, ?_⟩, by decide +kernel⟩
  · rw [(run_wrong_magic 65536).2, (run_wrong_magic 65535).2]
    exact List.replicate_succ'
  · have hmore := (TmasapTx.counted (List.replicate 65536 wrongMagic)).errors
    have hfull := (TmasapTx.counted (List.replicate 65535 wrongMagic)).errors
    rw [(run_wrong_magic _).2, List.count_replicate_self] at hmore hfull
    exact BitVec.eq_of_toNat_eq (hmore.trans hfull.symm)

end TetraBs.Infra
