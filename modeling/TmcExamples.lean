import TmcExamples.Asio.BatchMain
import TmcExamples.Asio.MuxTimeout
import TmcExamples.Barrier.AutoReset
import TmcExamples.Barrier.Completion
import TmcExamples.Braid.Serialization
import TmcExamples.CallbackAwaitable.Delivery
import TmcExamples.ChanBench.Totals
import TmcExamples.ChaseLev.Progress
import TmcExamples.ExternalCoro.PingPong
import TmcExamples.ExternalExecutor.AdapterOrder
import TmcExamples.Fib.Model
import TmcExamples.Format.Commas
import TmcExamples.FuzzChan.LateProducers
import TmcExamples.HelperThread.Repeated
import TmcExamples.Http.Connections
import TmcExamples.Http.Framing
import TmcExamples.LockTests.Counters
import TmcExamples.LockTests.ReadersWriters
import TmcExamples.MpscBounded.Totals
import TmcExamples.MuxTests.Concurrency
import TmcExamples.MuxTests.ZeroCopy
import TmcExamples.PipelineFifo.Bounds
import TmcExamples.Pipelines.Agreement
import TmcExamples.QueueBench.Totals
import TmcExamples.QueueSweep.Totals
import TmcExamples.RoundTrip.Progress
import TmcExamples.Skynet.Coverage
import TmcExamples.TestCommon.AsyncMain
import TmcExamples.WaiterTests.Calls
