import EtcdRaft.Cluster.Run
import EtcdRaft.Foundation.Outcome
import EtcdRaft.Refinement.Acts
import EtcdRaft.Refinement.Sends
import EtcdRaft.Refinement.Reaches
import EtcdRaft.Refinement.Followers
import EtcdRaft.Refinement.Leaders
import EtcdRaft.Refinement.Steps
import EtcdRaft.Refinement.View
import EtcdRaft.Refinement.Pipeline
import EtcdRaft.Refinement.LogChanges
import EtcdRaft.Refinement.Writes
import EtcdRaft.Membership.Changer
import EtcdRaft.Membership.Operations
import EtcdRaft.Membership.Quorums
import EtcdRaft.Membership.OneByOne
import EtcdRaft.Membership.Restore
import EtcdRaft.Membership.Proposals
import EtcdRaft.Runs.Ready
import EtcdRaft.Runs.Start
import EtcdRaft.Runs.Transitions
import EtcdRaft.Runs.Terms
import EtcdRaft.Runs.Clusters
import EtcdRaft.Runs.Polling
import EtcdRaft.Runs.PreVote
import EtcdRaft.Refinement.Durable
import EtcdRaft.Cluster.Lifetime
import EtcdRaft.Refinement.Answers
import EtcdRaft.Runs.Consecutive
import EtcdRaft.Runs.Lifetimes
import EtcdRaft.Runs.Deliveries
import EtcdRaft.Runs.Pipelines
import EtcdRaft.Runs.LogicalLogs
import EtcdRaft.Membership.CommittedIndex
import EtcdRaft.Membership.Dropped
import EtcdRaft.Refinement.MaybeAppend
import EtcdRaft.Runs.ApplyBudget
import EtcdRaft.Runs.HardState
import EtcdRaft.Runs.InRange
import EtcdRaft.Refinement.Probing
import EtcdRaft.Runs.Configurations
import EtcdRaft.Cluster.NodeLoop
import EtcdRaft.Runs.BetweenReadies
import EtcdRaft.Runs.HasReady
import EtcdRaft.Runs.Offers
import EtcdRaft.Cluster.ApplyThread
import EtcdRaft.Runs.Campaigns
import EtcdRaft.Runs.Promotable
import EtcdRaft.Foundation.Ring
import EtcdRaft.Membership.Votes
import EtcdRaft.Reads.Confirmations
import EtcdRaft.Tracking.Inflights
import EtcdRaft.Runs.Quota
import EtcdRaft.Reads.Parked
import EtcdRaft.Reads.Confirmable
import EtcdRaft.Membership.Tracked
import EtcdRaft.Tracking.Flow
import EtcdRaft.Runs.FlowControl
import EtcdRaft.Foundation.Consecutive
import EtcdRaft.Model.SliceStorage
import EtcdRaft.Model.Status
import EtcdRaft.Refinement.SliceStorage
import EtcdRaft.Refinement.StorageCalls
import EtcdRaft.Runs.Status
import EtcdRaft.Foundation.Decimal
import EtcdRaft.Membership.Strings
import EtcdRaft.Runs.PendingSnapshots
import EtcdRaft.Runs.PendingChanges
import EtcdRaft.Runs.DocumentedOrder
import EtcdRaft.Foundation.WriteBehind
import EtcdRaft.Runs.Pledges
import EtcdRaft.Runs.Commits
