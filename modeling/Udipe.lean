import Udipe.Lib.Machine
import Udipe.Lib.Threads
import Udipe.Lib.Ownership
import Udipe.Lib.Loops
import Udipe.Lib.SortedArray
import Udipe.Lib.Positional
import Udipe.Lib.DoublyLinked
import Udipe.Lib.Partition
import Udipe.Lib.PackedBits
import Udipe.Lib.Server
import Udipe.Lib.SegmentedStack
import Udipe.Lib.RingStack
import Udipe.Lib.RangeSearch
import Udipe.Lib.RoundUp
import Udipe.Lib.RunLength
import Udipe.Lib.RunningMin
import Udipe.Lib.Compaction
import Udipe.Lib.InitialSegment
import Udipe.Lib.Intervals
import Udipe.Lib.Typestate
import Udipe.Lib.FloatFormat
import Udipe.Lib.WordSum
import Udipe.Lib.RelativeError
import Udipe.Lib.OrderStatistics
import Udipe.Lib.Inventory
import Udipe.Lib.LinkedFree
import Udipe.Lib.CheckedState
import Udipe.Future.Kinds
import Udipe.Future.Inversion
import Udipe.Future.Conservation
import Udipe.Future.Wellformed
import Udipe.Future.Race
import Udipe.Future.Success
import Udipe.Future.Wakeup
import Udipe.Future.LazyLock
import Udipe.Future.Finality
import Udipe.Future.Joining
import Udipe.Future.JoinChecks
import Udipe.Future.Release
import Udipe.Future.Timeout
import Udipe.Future.Liberation
import Udipe.Future.SyncCaches
import Udipe.Future.Rings
import Udipe.Future.Pool
import Udipe.Future.Holders
import Udipe.Future.Recycling
import Udipe.Future.VirtualFds
import Udipe.Future.FdLedger
import Udipe.Future.FdCaches
import Udipe.Future.FdFutures
import Udipe.Future.FdMachine
import Udipe.Future.FdSafety
import Udipe.Allocator.PointerCache
import Udipe.Allocator.Zones
import Udipe.Allocator.Pages
import Udipe.Allocator.Spill
import Udipe.Allocator.Threads
import Udipe.Allocator.Accounting
import Udipe.Allocator.Steps
import Udipe.Allocator.Conservation
import Udipe.Allocator.Assertions
import Udipe.Allocator.SpillChecks
import Udipe.Allocator.SlowPaths
import Udipe.Allocator.LocalStack
import Udipe.Allocator.Occupancy
import Udipe.Allocator.ContextHeap
import Udipe.Allocator.HeapSteps
import Udipe.Allocator.HeapLaw
import Udipe.Context.RefcountedTss
import Udipe.Context.ThreadCache
import Udipe.Context.CacheLaw
import Udipe.Context.Teardown
import Udipe.Context.TeardownLaw
import Udipe.Context.TeardownRun
import Udipe.Context.ThreadExit
import Udipe.Connect.Allocator
import Udipe.Connect.Exclusivity
import Udipe.Connect.Sleepers
import Udipe.Connect.Selection
import Udipe.Benchmark.Distribution
import Udipe.Benchmark.Search
import Udipe.Benchmark.Histogram
import Udipe.Benchmark.Ranks
import Udipe.Benchmark.Differences
import Udipe.Benchmark.Scaling
import Udipe.Benchmark.Sampling
import Udipe.Benchmark.Accumulator
import Udipe.Benchmark.Addend
import Udipe.Benchmark.Magnitudes
import Udipe.Benchmark.Underflow
import Udipe.Benchmark.ExactSum
import Udipe.Benchmark.Doubles
import Udipe.Benchmark.SumRounding
import Udipe.Benchmark.DoubleBits
import Udipe.Benchmark.Quantiles
import Udipe.Benchmark.Means
import Udipe.Benchmark.Bootstrap
import Udipe.Benchmark.BinBounds
import Udipe.Benchmark.OutlierFilter
import Udipe.Benchmark.RelWeights
import Udipe.Benchmark.Rejection
import Udipe.Benchmark.RejectionReport
import Udipe.Benchmark.OutlierCap
import Udipe.Benchmark.HistogramPlot
import Udipe.Benchmark.ClockStorage
import Udipe.Benchmark.DistributionPool
import Udipe.Benchmark.Calibration
import Udipe.Time.OsTimestamp
import Udipe.Time.Stopwatch
import Udipe.Time.InpollWait
import Udipe.Log.Scope
import Udipe.Log.ScopeLaw
import Udipe.Memory.BitRanges
import Udipe.Memory.BitSearch
import Udipe.Memory.BitIteration
import Udipe.Memory.Entropy
import Udipe.Memory.PoolSize
import Udipe.Memory.LockBudget
import Udipe.Memory.Buffer
import Udipe.Memory.BufferLaw
import Udipe.Future.CountExact
