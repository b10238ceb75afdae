import TetraBs.Infra.TmasapRxFramer
import TetraBs.Infra.TmdsapRxFramer
import TetraBs.Infra.DmaFramePacker

/-! The AXI4-Stream transfer law of the three sources of the FPGA-to-PS streams. Each of them
looks at `tready` alone when it advances, and not at what its output register holds. -/
namespace TetraBs.Infra
open TetraBs.Run TetraBs.Stream

/-- Along every run whose edges meet the condition of its framer, the sink receives exactly the
beats of the frames asked for. -/
theorem axis_transfer_law (is : List TmasapRx.Input) (js : List TmdsapRx.Input)
    (ks : List Packer.Input) :
    (Along (Traffic.edge TmasapRx.source TmasapRx.note) TmasapRx.Meets
        (Traffic.start TmasapRx.reset []) is →
      (exec (Traffic.edge TmasapRx.source TmasapRx.note) (Traffic.start TmasapRx.reset []) is).Delivered
        TmasapRx.source id TmasapRx.words) ∧
    (Along (Traffic.edge TmdsapRx.source TmdsapRx.note) TmdsapRx.Meets
        (Traffic.start TmdsapRx.reset []) js →
      (exec (Traffic.edge TmdsapRx.source TmdsapRx.note) (Traffic.start TmdsapRx.reset []) js).Delivered
        TmdsapRx.source Beat.wire TmdsapRx.words) ∧
    (Along (Traffic.edge Packer.source Packer.note) Packer.Meets
        (Traffic.start Packer.reset []) ks →
      (exec (Traffic.edge Packer.source Packer.note) (Traffic.start Packer.reset []) ks).Delivered
        Packer.source Beat.wire Packer.words) :=
  ⟨TmasapRx.delivered, TmdsapRx.delivered, Packer.delivered⟩

/-- A TMAR request in the first cycle, then only `tready` changes. -/
def reportRun (tready : List Bool) : List TmasapRx.Input :=
  ⟨false, 0, 0, 0, 0, 0, 0, true, 7, 1, true⟩ ::
    tready.map fun r => ⟨false, 0, 0, 0, 0, 0, 0, false, 0, 0, r⟩

def voiceRun (tready : List Bool) : List TmdsapRx.Input :=
  ⟨1, true, true⟩ :: tready.map fun r => ⟨0, false, r⟩

def packerRun (tready : List Bool) : List Packer.Input :=
  ⟨true, 0, 4, 0, false, true⟩ :: tready.map fun r => ⟨false, 0, 0, 0xA5, true, r⟩

/-- A report whose sink is ready until the last beat is gone. -/
theorem axis_transfer_law_report :
    (exec (Traffic.edge TmasapRx.source TmasapRx.note) (Traffic.start TmasapRx.reset [])
      (reportRun [true, true, true, true, true, false])).Delivered TmasapRx.source id
        TmasapRx.words :=
  (axis_transfer_law (reportRun [true, true, true, true, true, false]) [] []).1 (by decide +kernel)

/-- One cycle without `tready` loses the magic word of each framer. -/
theorem stall_loses_magic :
    ¬ (exec (Traffic.edge TmasapRx.source TmasapRx.note) (Traffic.start TmasapRx.reset [])
        (reportRun [true, false, true, true])).Delivered TmasapRx.source id TmasapRx.words ∧
    ¬ (exec (Traffic.edge TmdsapRx.source TmdsapRx.note) (Traffic.start TmdsapRx.reset [])
        (voiceRun [true, false, true, true])).Delivered TmdsapRx.source Beat.wire TmdsapRx.words ∧
    ¬ (exec (Traffic.edge Packer.source Packer.note) (Traffic.start Packer.reset [])
        (packerRun [true, false, true, true])).Delivered Packer.source Beat.wire Packer.words := by
  refine ⟨fun h => absurd h.sent_initial ?_, fun h => absurd h.sent_initial ?_,
    fun h => absurd h.sent_initial ?_⟩
  · decide +kernel
  · decide +kernel
  · decide +kernel

end TetraBs.Infra
