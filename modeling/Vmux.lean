import Vmux.Transitions
import Vmux.CircularWindow
import Vmux.Bytes
import Vmux.DescriptorQueue
import Vmux.QueueSteps
import Vmux.Ownership
import Vmux.WindowInvariant
import Vmux.WindowPreserved
import Vmux.LanRx
import Vmux.Checksums
import Vmux.LanTx
import Vmux.TxUnits
import Vmux.TxTermination
import Vmux.TxDelivery
import Vmux.TxPlain
import Vmux.TxSegmentation
import Vmux.SendTso
import Vmux.TsoFallback
import Vmux.Switch
import Vmux.AdminQueue
import Vmux.QueueRuns
import Vmux.SwitchIsolation
import Vmux.ExactlyOnce
import Vmux.QueueIdle
import Vmux.WindowSafety
import Vmux.ProcessOrder
import Vmux.DescriptorOrder
import Vmux.AddressMap
import Vmux.Registers
import Vmux.PollThreads
import Vmux.RegisterBounds
import Vmux.SwitchRules
import Vmux.Mediation
import Vmux.AdminBounds
import Vmux.CascadeTermination
import Vmux.Contents
import Vmux.Tracing
import Vmux.AdminCompletion
import Vmux.RxDelivery
import Vmux.Nic
import Vmux.NicSteps
import Vmux.QueueArithmetic
import Vmux.DoorbellRouting
import Vmux.Interrupts
import Vmux.InterruptRouting
import Vmux.LostInterrupt
import Vmux.MaskedVectors
import Vmux.ThrottlerDeadline
import Vmux.DmaMap
import Vmux.DmaTranslation
import Vmux.RingPointer
import Vmux.DescriptorRing
import Vmux.QueueStop
import Vmux.VdpdkTx
import Vmux.VdpdkRx
import Vmux.StorageRegisters
import Vmux.QueueReenable
import Vmux.TxByteExact
import Vmux.TxFrames
import Vmux.PtpClock
import Vmux.PtpRegisters
import Vmux.PtpMediation
import Vmux.SwitchPolicy
import Vmux.SchedElems
import Vmux.ControlQueuePair
import Vmux.TailReached
import Vmux.TxAccesses
import Vmux.TxBounds
import Vmux.ChecksumOffload
import Vmux.BitFields
import Vmux.QueueContext
import Vmux.QueueStatus
import Vmux.FrameInspection
import Vmux.VdpdkAddresses
import Vmux.VdpdkRxCall
import Vmux.ReceiveBuffers
import Vmux.TsoIpVersion
import Vmux.DeviceWindows
import Vmux.FlowSteering
import Vmux.ThreadLifecycle
import Vmux.PassthroughDma
import Vmux.CpuPinning
import Vmux.VdpdkPolling
import Vmux.Toeplitz
import Vmux.RssHash
import Vmux.DescriptorTable
import Vmux.InterruptForwarding
import Vmux.CascadeSteps
import Vmux.DoorbellTermination
