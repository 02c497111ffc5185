import Ecopy.Lib.Runs
import Ecopy.Lib.Threads
import Ecopy.Workers.Config
import Ecopy.Workers.BufferBudget
import Ecopy.Workers.LargePipeline
import Ecopy.Workers.LargePipelineProgress
import Ecopy.Workers.Heap
import Ecopy.Workers.Scheduler
import Ecopy.Workers.SchedulerWakes
import Ecopy.Lib.LittleEndian
import Ecopy.Protocol.Codec
import Ecopy.Lib.Fields
import Ecopy.Path
import Ecopy.Protocol.Message
import Ecopy.Remote.Handshake
import Ecopy.Protocol.Wire
import Ecopy.Remote.Stream
import Ecopy.Remote.ApplyPool
import Ecopy.Remote.VerifyOrder
import Ecopy.Remote.VerifyGate
import Ecopy.FileSystem
import Ecopy.Lib.Calls
import Ecopy.Server.Kernel
import Ecopy.Server.Requests
import Ecopy.Server.Handlers
import Ecopy.Server.Process
import Ecopy.Server.Confinement
import Ecopy.Server.ConfinedHandlers
import Ecopy.Server.ConfinedRuns
import Ecopy.Server.ReadOnly
import Ecopy.PathWalk
import Ecopy.Server.StatBulk
import Ecopy.Protocol.Framing
import Ecopy.Protocol.Layout
import Ecopy.Remote.Agreement
import Ecopy.Server.Malformed
import Ecopy.Remote.Barriers
import Ecopy.Server.Pool
import Ecopy.Server.PoolLink
import Ecopy.Server.PoolReport
import Ecopy.Remote.Replies
import Ecopy.Remote.ReplyDelivery
import Ecopy.Remote.Finalize
import Ecopy.Remote.DirectoryTimes
import Ecopy.FileTree
import Ecopy.Lib.Duties
import Ecopy.Server.Effects
import Ecopy.Server.TempFiles
import Ecopy.Server.TempHandlers
import Ecopy.Server.TempTable
import Ecopy.Server.TempRuns
import Ecopy.Lib.Traces
import Ecopy.Workers.SmallCopy
import Ecopy.Workers.Events
import Ecopy.Workers.Backpressure
import Ecopy.Workers.Dispatch
import Ecopy.Workers.ExtentMap
import Ecopy.Workers.LargeChunks
import Ecopy.Workers.LargeBuffers
import Ecopy.Workers.LargeFile
import Ecopy.DirWalk.Walker
import Ecopy.DirWalk.WalkerSteps
import Ecopy.DirWalk.Visits
import Ecopy.Verify.Pipeline
import Ecopy.Verify.PipelineSteps
import Ecopy.Verify.ExactlyOnce
import Ecopy.EDelete.Deleter
import Ecopy.EDelete.DeleterSteps
import Ecopy.EDelete.Containment
import Ecopy.EDelete.CalmSteps
import Ecopy.EDelete.Coverage
import Ecopy.EDelete.Flight
import Ecopy.EDelete.Verdicts
import Ecopy.EDelete.Removal
import Ecopy.HardLinks.Create
import Ecopy.Metadata.Ownership
import Ecopy.Metadata.SetIds
import Ecopy.Metadata.PutMode
import Ecopy.Metadata.LocalMode
import Ecopy.Workers.Contents
import Ecopy.Workers.RangeFallback
import Ecopy.Lib.Bisect
import Ecopy.Lib.Doubles
import Ecopy.Verify.Sampling
import Ecopy.Verify.LocalItem
import Ecopy.Verify.SampleDomain
import Ecopy.Verify.FullVerification
import Ecopy.Metadata.Untouched
import Ecopy.Metadata.DirModes
import Ecopy.HardLinks.Replay
import Ecopy.Lib.Interference
import Ecopy.Workers.Bystanders
import Ecopy.HardLinks.NoFollow
import Ecopy.Transfer.Copies
import Ecopy.HardLinks.Registry
import Ecopy.DirWalk.Readers
import Ecopy.Traversal.DestinationRoot
import Ecopy.Traversal.DstPath
import Ecopy.Traversal.RequestedPath
import Ecopy.Workers.ExtentBytes
import Ecopy.Lib.Affine
import Ecopy.Verify.SampleChoice
import Ecopy.DirWalk.DepthGroups
import Ecopy.DirWalk.GroupRuns
import Ecopy.DirWalk.GroupOrder
import Ecopy.EDelete.Siblings
import Ecopy.Lib.Links
import Ecopy.Lib.Recency
import Ecopy.Server.DirFdCache
import Ecopy.Server.DirFdThreads
import Ecopy.Transfer.SparseCopies
import Ecopy.Server.DirCache
import Ecopy.Server.DirFlight
import Ecopy.Server.DirWaits
import Ecopy.Workers.Access
import Ecopy.Workers.Reopening
import Ecopy.Lib.CStrings
import Ecopy.PathText
import Ecopy.Lib.Ranks
import Ecopy.Telemetry.Histogram
import Ecopy.Telemetry.Summaries
import Ecopy.Remote.Target
import Ecopy.Lib.ShellWords
import Ecopy.Remote.ServerCommand
import Ecopy.IdOptions
import Ecopy.Verify.ExtentMap
import Ecopy.EDelete.Batches
import Ecopy.Metadata.DirSteps
import Ecopy.Metadata.DirMakers
import Ecopy.Metadata.DirSettling
import Ecopy.Metadata.DirPaving
import Ecopy.Metadata.DirRuns
import Ecopy.Metadata.DirStages
import Ecopy.Metadata.CreatedDirectories
import Ecopy.Telemetry.NearestRank
import Ecopy.Lib.HeapOrder
import Ecopy.Workers.HeapPriority
import Ecopy.Traversal.PrefixTests
import Ecopy.Lib.Buffers
import Ecopy.Workers.TaskPaths
import Ecopy.Workers.WorkerSplit
import Ecopy.Lib.RefCounts
import Ecopy.Workers.DirHandles
import Ecopy.Workers.DirHandleSteps
import Ecopy.Workers.DirHandleLedger
import Ecopy.Workers.DirHandleRuns
import Ecopy.Transfer.Blocks
import Ecopy.Transfer.SmallCopies
import Ecopy.Transfer.DataExtents
import Ecopy.Transfer.RemoteCopies
import Ecopy.Workers.LostChunks
import Ecopy.Transfer.LargeCopies
import Ecopy.Transfer.WholeCopies
import Ecopy.Traversal.Callbacks
import Ecopy.Traversal.Recorded
import Ecopy.Verify.TreeWalk
import Ecopy.Verify.VerifyOnly
import Ecopy.Verify.CopiedMetadata
import Ecopy.DirWalk.Reports
import Ecopy.HardLinks.LinkRuns
import Ecopy.Traversal.FileBatches
import Ecopy.Traversal.FirstNames
import Ecopy.Traversal.LinkStructure
import Ecopy.Traversal.Mirror
import Ecopy.Traversal.SecondRun
import Ecopy.Workers.CallsMade
