import SystemCDma.ByteMemory
import SystemCDma.EventRun
import SystemCDma.TlmBus
import SystemCDma.TransferEngine
import SystemCDma.SingleDma
import SystemCDma.SingleDmaTransfer
import SystemCDma.SingleDmaHandshake
import SystemCDma.SingleDmaMailbox
import SystemCDma.DualDma
import SystemCDma.DualDmaCompletion
import SystemCDma.DualDmaIsolation
import SystemCDma.DualDmaArbitration
import SystemCDma.TransferFootprint
import SystemCDma.BurstDriver
import SystemCDma.BurstLoop
import SystemCDma.FlagProtocol
import SystemCDma.BurstProgress
import SystemCDma.FlagProgress
import SystemCDma.DualDmaSerial
import SystemCDma.ChannelRefinement
import SystemCDma.DualDmaErrors
import SystemCDma.DualDmaGuard
import SystemCDma.RegisterPayload
import SystemCDma.RegisterReadback
import SystemCDma.DualDmaSymmetry
import SystemCDma.TransferAddress
import SystemCDma.WatchedRun
import SystemCDma.ResetPin
import SystemCDma.ResetErasure
import SystemCDma.TlmDecoder
import SystemCDma.BareMetal
import SystemCDma.RangeList
import SystemCDma.TlmMemory
import SystemCDma.SparseMemory
import SystemCDma.FlatMemory
import SystemCDma.DirectMemory
import SystemCDma.PlatformSimulation
import SystemCDma.PlatformMemory
import SystemCDma.PlatformDebug
import SystemCDma.SharedRam
import SystemCDma.PlatformTransfer
import SystemCDma.PlatformProgram
import SystemCDma.PlatformProgress
import SystemCDma.SinglePlatform
import SystemCDma.SingleRam
import SystemCDma.SingleProgram
import SystemCDma.SingleProgramRun
import SystemCDma.Rv32
import SystemCDma.TrapEntry
