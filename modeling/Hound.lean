import Hound.ToMathlib.Machine
import Hound.ToMathlib.Pool
import Hound.ToMathlib.CInt
import Hound.ToMathlib.Blocks
import Hound.Packet.Parse
import Hound.Packet.Frame
import Hound.Packet.Bounds
import Hound.Packet.Key
import Hound.Capture.LiveHandler
import Hound.Sink.FlowTable
import Hound.Encode.PacketToTensor
import Hound.Encode.Window
import Hound.Encode.Batch
import Hound.Encode.EncodeFlow
import Hound.Encode.ModelPool
import Hound.Encode.BlockedFlows
import Hound.Encode.WindowRanges
import Hound.Encode.ConcurrentWindow
import Hound.Encode.Timing
import Hound.Queue.DoubleBuffer
import Hound.Queue.Inactive
import Hound.Queue.Order
import Hound.Executor.TaskExecutor
import Hound.Executor.Accounting
import Hound.Executor.Shutdown
import Hound.Executor.Wakeup
import Hound.Executor.Futures
import Hound.Executor.Construction
import Hound.Sink.SendToKafka
import Hound.Capture.ParseOptions
import Hound.Capture.SnapLength
import Hound.Sink.FlowSize
import Hound.Pipeline.Drain
import Hound.Pipeline.LiveParser
import Hound.Pipeline.Accounting
import Hound.Pipeline.KafkaSink
import Hound.Pipeline.Stopping
import Hound.Pipeline.Assembly
import Hound.Pipeline.MergeOrder
import Hound.Pipeline.Workers
import Hound.Packet.Vlan
import Hound.Sink.Partitioner
import Hound.Encode.PartialFailure
import Hound.Sink.FlowChunks
import Hound.Sink.CleanPass
import Hound.Sink.FlowProtocol
import Hound.Sink.FlowIsolation
import Hound.Sink.ProducerPool
import Hound.Encode.Dependence
import Hound.Encode.Waiting
import Hound.Executor.InterruptibleSleep
import Hound.Pipeline.SinkAssembly
import Hound.Pipeline.SinkClosing
import Hound.Pipeline.SinkTable
import Hound.Pipeline.SinkAccounting
import Hound.Pipeline.SinkSending
import Hound.Pipeline.Completion
import Hound.Pipeline.Joining
import Hound.ToMathlib.Subperm
import Hound.Pipeline.Program
import Hound.Pipeline.Exit
import Hound.Pipeline.Closing
