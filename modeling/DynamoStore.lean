import DynamoStore.Lib.RpcPrograms
import DynamoStore.Lib.RpcInterleaving
import DynamoStore.Lib.CallAssertions
import DynamoStore.Lib.GuardedCalls
import DynamoStore.Lib.RpcSchedules
import DynamoStore.Lib.Continuations
import DynamoStore.StateMachine
import DynamoStore.GossipNode
import DynamoStore.HandlerContracts
import DynamoStore.RingOwners
import DynamoStore.ConflictVerdict
import DynamoStore.ClusterStores
import DynamoStore.AcknowledgedWrites
import DynamoStore.ReachableStates
import DynamoStore.VersionIdentity
import DynamoStore.StoredVersions
import DynamoStore.HandlerRuns
import DynamoStore.JoinSafety
import DynamoStore.KeyTransfers
import DynamoStore.LeaveTransfers
import DynamoStore.LeaveSafety
import DynamoStore.ReplicaSets
import DynamoStore.LeaveReplication
import DynamoStore.JoinTransfers
import DynamoStore.JoinReplication
import DynamoStore.Admin
import DynamoStore.RingAgreement
import DynamoStore.QuorumRuns
import DynamoStore.ReadFilter
import DynamoStore.ReadAfterWrite
import DynamoStore.ReconciledWrites
import DynamoStore.VerdictOrder
import DynamoStore.ConcurrentSiblings
import DynamoStore.Stamps
import DynamoStore.ReconciledClock
import DynamoStore.DeliveryOrders
import DynamoStore.CoordinatorChoice
import DynamoStore.AcknowledgedCopies
import DynamoStore.KeyValueStoreClient
import DynamoStore.StampAgreement
import DynamoStore.ReplicaCount
import DynamoStore.MissingStubs
import DynamoStore.EntryProvenance
import DynamoStore.HandoffRemovals
import DynamoStore.ReadResults
import DynamoStore.ReplicaWalk
import DynamoStore.RingHistories
import DynamoStore.Lib.CallLogs
import DynamoStore.JoinHandover
import DynamoStore.Lib.TextStreams
import DynamoStore.StorageFile
import DynamoStore.StorageRecovery
import DynamoStore.HeartbeatTables
import DynamoStore.StampedVerdict
import DynamoStore.LivenessTest
import DynamoStore.GossipContacts
import DynamoStore.Lib.AnsweredRuns
import DynamoStore.ServerContacts
import DynamoStore.GetResults
import DynamoStore.Lib.SequentialObjects
import DynamoStore.ClientOperations
import DynamoStore.SequentialStore
import DynamoStore.ExactReplicas
import DynamoStore.ElasticStore
import DynamoStore.NewestEntry
import DynamoStore.Lib.Effects
import DynamoStore.Lib.CallRanks
import DynamoStore.HandlerEffects
import DynamoStore.CallDepth
import DynamoStore.KeyIsolation
import DynamoStore.FailoverStore
import DynamoStore.SilentNodes
import DynamoStore.SteadyProgress
import DynamoStore.ServerNames
import DynamoStore.ClientReplies
import DynamoStore.ClientEffects
import DynamoStore.AdminBeliefs
import DynamoStore.ClusterStart
import DynamoStore.HeartbeatSpread
import DynamoStore.FreshHeartbeats
import DynamoStore.Lib.SharperContracts
import DynamoStore.ConcurrentReads
import DynamoStore.WarmStart
import DynamoStore.ReturningCalls
