import TetraBs.Umac.DlSignal
import TetraBs.Llc.Fcs
import TetraBs.Llc.Ops
import TetraBs.Llc.Transmit
import TetraBs.Llc.SelfReception
import TetraBs.Lib.AlternatingBit
import TetraBs.Llc.Link
import TetraBs.Daemon.Isolation
import TetraBs.Lib.BitReader
import TetraBs.Mm.Iep
import TetraBs.Persistence.DbFile
import TetraBs.Mm.AcceptBuilder
import TetraBs.Mle.Entity
import TetraBs.Mm.Spec
import TetraBs.Mle.Spec
import TetraBs.Mm.GroupAck
import TetraBs.Daemon.State
import TetraBs.Daemon.Access
import TetraBs.Daemon.Sessions
import TetraBs.Daemon.Delivery
import TetraBs.Lib.JsonText
import TetraBs.Lib.History
import TetraBs.Core.MsgBusStorage
import TetraBs.Core.MsgBusRuns
import TetraBs.Persistence.AstSnapshot
import TetraBs.Persistence.CrashLaw
import TetraBs.Persistence.DbReload
import TetraBs.Infra.Axis
import TetraBs.Lib.Serializer
import TetraBs.Infra.ByteLink
import TetraBs.Infra.TmasapTxFramer
import TetraBs.Infra.TmasapTxSpec
import TetraBs.Infra.TmasapTxFrames
import TetraBs.Infra.FrameOutcomes
import TetraBs.Infra.DmaFrameUnpacker
import TetraBs.Infra.DmaUnpackerFrames
import TetraBs.Infra.ByteTransfer
import TetraBs.Infra.TmasapRxFramer
import TetraBs.Infra.TmdsapRxFramer
import TetraBs.Infra.DmaFramePacker
import TetraBs.Infra.AxisTransfer
import TetraBs.Dma.Receive
import TetraBs.Dma.Drain
import TetraBs.Dma.Send
import TetraBs.Lmac.RcpcAgreement
import TetraBs.Lmac.TxSerializer
import TetraBs.Lmac.ScramblerAgreement
import TetraBs.Infra.DmaFraming
import TetraBs.Infra.AxiDmaWrapper
import TetraBs.Umac.UlAccess
import TetraBs.Umac.UlInterleaving
import TetraBs.Daemon.UplinkContent
import TetraBs.Umac.UlReassembly
import TetraBs.Cmce.ForeignTraffic
import TetraBs.Cmce.Calls
import TetraBs.Webui.AllowList
import TetraBs.Lmac.AachAgreement
import TetraBs.Lmac.TdmaTimebase
import TetraBs.Persistence.AstReload
import TetraBs.Persistence.DbInvariant
import TetraBs.Phy.UlTiming
import TetraBs.Lib.MulPerm
import TetraBs.Lmac.Interleaver
import TetraBs.Lib.DelayLine
import TetraBs.Phy.BurstDemux
import TetraBs.Phy.BurstAssociation
import TetraBs.Lmac.BurstBuilder
import TetraBs.Phy.BurstLink
import TetraBs.Lib.Viterbi
import TetraBs.Lmac.CrcModes
import TetraBs.Lmac.UlViterbi
import TetraBs.Lmac.SchHuUnit
import TetraBs.Lmac.SchHuRuns
import TetraBs.Lmac.SchHuCode
import TetraBs.Phy.UlDemod
import TetraBs.Phy.UlConstellation
import TetraBs.Lmac.SchHuLoss
import TetraBs.Phy.UlReceiver
import TetraBs.Llc.RoundTrip
import TetraBs.Llc.FcsBursts
import TetraBs.Phy.RxBurstFifo
import TetraBs.Infra.CdcAsyncFifo
import TetraBs.Lmac.BurstChain
import TetraBs.Lmac.SlotEntries
import TetraBs.Lmac.DownlinkSlots
import TetraBs.Lib.BitLayout
import TetraBs.Mm.Layout
import TetraBs.Mm.IepReads
import TetraBs.Mm.IepPdu
import TetraBs.Mm.IepRoundTrip
import TetraBs.Lib.Handshake
import TetraBs.Infra.AxiLiteRegs
import TetraBs.Infra.AxiLiteTraffic
import TetraBs.Infra.AxiLiteReads
import TetraBs.Infra.AxiLiteRuns
import TetraBs.Lmac.DepunctureR23
import TetraBs.Lmac.RcpcViterbi
import TetraBs.Lmac.ErasureBias
import TetraBs.Lmac.BlockReference
import TetraBs.Lib.Steps
import TetraBs.Core.BitSteps
import TetraBs.Cmce.PduSteps
import TetraBs.Cmce.PduRoundTrip
import TetraBs.Cmce.PduCodec
import TetraBs.Mm.BuilderBits
import TetraBs.Mm.BuilderReads
import TetraBs.Webui.QueryPairs
import TetraBs.Umac.MacResourceBlocks
import TetraBs.Lib.Requests
import TetraBs.Lmac.ReedMullerRequests
import TetraBs.Umac.DlSignalDrops
import TetraBs.Daemon.Enrolment
import TetraBs.Lib.Signed
import TetraBs.Phy.TimingRecovery
import TetraBs.Lib.Cic
import TetraBs.Phy.RrcFilter
import TetraBs.Phy.RxCic
import TetraBs.Phy.RxFrontend
import TetraBs.Phy.TxCic
import TetraBs.Phy.TxFrontend
import TetraBs.Phy.Pi4dqpskMod
import TetraBs.Core.BitBufferCalls
import TetraBs.Infra.CdcHandshake
import TetraBs.Infra.TmdsapTxFrames
import TetraBs.Umac.UlAccessLayout
import TetraBs.Phy.UlBurstWindow
import TetraBs.Phy.SyncLock
import TetraBs.Scripts.AccessAssign
import TetraBs.Phy.FrameClocks
import TetraBs.Scripts.BuilderStreams
import TetraBs.Scripts.AccessParser
import TetraBs.Daemon.MainLoop
import TetraBs.Scripts.References
import TetraBs.Webui.Exchange
