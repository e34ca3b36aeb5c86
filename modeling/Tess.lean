import Tess.Path.Sparse
import Tess.Path.Product
import Tess.Sim.Movement
import Tess.Sim.Schedule
import Tess.Sim.DeltaFrame
import Tess.Ops.PlannedDirty
import Tess.Ops.PhaseExecution
import Tess.Experimental.DirtyBitMaintenance
import Tess.Sim.PathAgent
import Tess.Sim.JointMovement
import Tess.Sim.JointAdmission
import Tess.Sim.JointRounds
import Tess.Storage.SparseRuns
import Tess.Lib.RingBuffer
import Tess.Lib.ChainedIndex
import Tess.Lib.ServiceLog
import Tess.Experimental.QueuedScheduler
import Tess.Experimental.DirtyBitScheduler
import Tess.Experimental.SchedulerRuns
import Tess.Experimental.RegisteredScheduler
import Tess.Experimental.RegisteredRuns
import Tess.Experimental.MaintenanceSystem
import Tess.Sim.PibtDecision
import Tess.Lib.Wire
import Tess.Persistence.ArchiveCursor
import Tess.Persistence.ArchiveFields
import Tess.Persistence.ArchiveFormat
import Tess.Persistence.ArchiveParse
import Tess.Persistence.WorldArchive
import Tess.Persistence.ArchiveWorlds
import Tess.Persistence.ArchiveLoad
import Tess.Persistence.ArchiveRoundTrip
import Tess.Lib.FloodFill
import Tess.Lib.Grouping
import Tess.Core.UInt128
import Tess.Core.PackedKey
import Tess.Path.IndexedNeighbor
import Tess.Topology.ChunkNeighbors
import Tess.Topology.StairEdges
import Tess.Storage.MarkRuns
import Tess.Topology.LocalTopology
import Tess.Topology.RegionGraph
import Tess.Topology.GraphUpdate
import Tess.Lib.BreadthFirst
import Tess.Topology.RegionIndex
import Tess.Topology.RegionQueries
import Tess.Topology.CoarsePath
import Tess.Persistence.ArchiveIntegrity
import Tess.Ops.AsyncWork
import Tess.Ops.AsyncTickets
import Tess.Sim.DeltaEntities
import Tess.Sim.DeltaMoved
import Tess.Sim.DeltaCoalesce
import Tess.Ops.ResultChannel
import Tess.Ops.ResultDelivery
import Tess.Ops.ResultRuns
import Tess.Lib.LeastRecent
import Tess.Path.FieldProductCache
import Tess.Path.FieldProductRuns
import Tess.Path.FieldProductKeys
import Tess.Lib.Slices
import Tess.Path.SegmentCache
import Tess.Path.SegmentRuns
import Tess.Lib.Threads
import Tess.Ops.WorkerPool
import Tess.Ops.WorkerPoolRuns
import Tess.Ecs.OccupancyIndex
import Tess.Lib.SerialChoice
import Tess.Spatial.LocalCoordination
import Tess.Spatial.LocalDemand
import Tess.Spatial.LocalService
import Tess.Sim.ReplanQueue
import Tess.Sim.ReplanDrain
import Tess.Sim.ReplanRuns
import Tess.Lib.RoundRobin
import Tess.Sim.RecoverySchedule
import Tess.Lib.Checked
import Tess.Query.Span
import Tess.Query.SpanRows
import Tess.Query.SpanQueries
import Tess.Path.OpenNode
import Tess.Topology.Heuristic
import Tess.Spatial.TacticalAssignment
import Tess.Sim.PibtStop
import Tess.Sim.PibtRounds
import Tess.Sim.MovementRuns
import Tess.Spatial.AreaIndex
import Tess.Spatial.AreaSpec
import Tess.Spatial.AreaRuns
import Tess.Topology.Duality
import Tess.Lib.Settling
import Tess.Navigation.Domain
import Tess.Navigation.Query
import Tess.Navigation.QuerySearch
import Tess.Navigation.QueryInvariant
import Tess.Navigation.QueryResults
import Tess.Navigation.QueryDrivers
import Tess.Navigation.Grid
import Tess.Lib.Iteration
import Tess.Topology.ReverseSteps
import Tess.Path.FieldScratch
import Tess.Path.WeightedField
import Tess.Path.FieldPath
import Tess.Path.FieldAnswers
import Tess.Path.FieldSession
