import Antfly.Store.Replicas
import Antfly.Store.Recovery
import Antfly.Txn.Decision
import Antfly.Txn.Cleanup
import Antfly.Txn.Convergence
import Antfly.Txn.CommitAsBatch
import Antfly.Raft.MemoryLog
import Antfly.Raft.SnapshotContent
import Antfly.Join.Strategies
import Antfly.Indexes.Transposed
import Antfly.Metadata.LogOrder
import Antfly.Metadata.BatchHandlers
import Antfly.Store.TTLFaithful
import Antfly.Cluster.TransitionWrites
import Antfly.Sparse.MergeGrouping
import Antfly.Usermgr.Credentials
import Antfly.Cluster.SchemaMigration
import Antfly.Indexes.FullTextRebuild
import Antfly.Graph.QueryOrder
import Antfly.Inflight.WALDelivery
import Antfly.Indexes.FieldReconciliation
import Antfly.Indexes.TreeTopology
import Antfly.Cluster.StatusUpdates
import Antfly.Sparse.TopK
import Antfly.Graph.PathOptimality
import Antfly.Graph.PatternSpec
import Antfly.Store.SplitKeys
import Antfly.Store.RangeExport
import Antfly.Store.ReadBack
import Antfly.Store.TransformBatch
import Antfly.Cluster.TransitionPlan
import Antfly.Cluster.RangePlans
import Antfly.Graph.TraversalExact
import Antfly.Vector.RerankOutcomes
import Antfly.Foreign.TemplateSound
import Antfly.Join.Spilling
import Antfly.Vector.SearchExact
import Antfly.Store.EnrichmentExact
import Antfly.Foreign.FilterAgreement
import Antfly.Store.DeclarativeExact
import Antfly.Store.Reranking
import Antfly.Metadata.BatchPools
import Antfly.Metadata.TableScan
import Antfly.Foreign.Wildcard
import Antfly.Vector.HilbertIndex
import Antfly.Raft.MsgAppV2
import Antfly.Raft.Transport
import Antfly.Store.SplitReplay
import Antfly.Store.ProposalQueue
