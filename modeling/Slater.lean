import Slater.Delta.Recreate
import Slater.Exec.Distinct
import Slater.Server.NodeAliases
import Slater.Server.Deleted
import Slater.Server.ActiveView
import Slater.Exec.Selectors
import Slater.Exec.With
import Slater.Exec.Comprehension
import Slater.Exec.Quantified
import Slater.Exec.PushedLimit
import Slater.Server.Consolidation
import Slater.Server.PublishSet
import Slater.Server.BornRuns
import Slater.Server.SequenceNumbers
import Slater.Server.WriterState
import Slater.Delta.WalFaults
import Slater.Server.OrphanedDelta
import Slater.Delta.IdentityKeys
import Slater.Server.PointReads
import Slater.Server.FlushAdjacency
import Slater.Server.MergedGraph
import Slater.Bolt.Chunk
import Slater.Algo
