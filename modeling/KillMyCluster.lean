import KillMyCluster.Lib.LeaderLog
import KillMyCluster.Lib.LeaderLogInv
import KillMyCluster.Lib.LeaderLogSafe
import KillMyCluster.Lib.Search
import KillMyCluster.Raft.Log
import KillMyCluster.Raft.Searches
import KillMyCluster.Raft.SliceLog
import KillMyCluster.Raft.Types
import KillMyCluster.Raft.Node
import KillMyCluster.Raft.Replicate
import KillMyCluster.Raft.Timing
import KillMyCluster.Raft.Persist
import KillMyCluster.Raft.Files
import KillMyCluster.Raft.Recover
import KillMyCluster.Raft.Cluster
import KillMyCluster.Election.Ledger
import KillMyCluster.Election.Tally
import KillMyCluster.Election.Count
import KillMyCluster.Election.Safety
import KillMyCluster.Election.Votes
import KillMyCluster.Raft.Leads
import KillMyCluster.Election.Terms
import KillMyCluster.Election.PreVote
import KillMyCluster.Election.Progress
import KillMyCluster.Election.Deadlock
import KillMyCluster.Sim.Ghost
import KillMyCluster.Sim.Disk
import KillMyCluster.Sim.Relation
import KillMyCluster.Sim.Election
import KillMyCluster.Sim.Append
import KillMyCluster.Sim.Snapshots
import KillMyCluster.Sim.Leader
import KillMyCluster.Sim.Step
import KillMyCluster.Sim.Run
import KillMyCluster.Safety.Delivery
import KillMyCluster.Safety.Leaders
import KillMyCluster.Safety.Cursors
import KillMyCluster.Safety.Matching
import KillMyCluster.Safety.Order
import KillMyCluster.Safety.CommitRule
import KillMyCluster.Safety.Books
import KillMyCluster.Safety.Settled
import KillMyCluster.Safety.CatchUp
import KillMyCluster.Durable.Acked
import KillMyCluster.Durable.Shippable
import KillMyCluster.Durable.Bytes
import KillMyCluster.Durable.Unflushed
import KillMyCluster.Durable.Recovery
import KillMyCluster.Read.Fresh
import KillMyCluster.Read.Lease
import KillMyCluster.Read.Contexts
import KillMyCluster.Timed.Watchdog
import KillMyCluster.Timed.Lease
import KillMyCluster.Live.Progress
import KillMyCluster.Kv.Dedup
import KillMyCluster.Kv.Sweep
import KillMyCluster.Kv.Watch
import KillMyCluster.Kv.Converge
import KillMyCluster.Kv.Codec
import KillMyCluster.Kv.Reads
import KillMyCluster.Kv.Once
import KillMyCluster.Kv.Propose
import KillMyCluster.Kv.RemoteLinear
import KillMyCluster.Kv.Walk
import KillMyCluster.Storage.Codec
import KillMyCluster.Storage.Durable
import KillMyCluster.Storage.Replay
import KillMyCluster.Storage.Failed
import KillMyCluster.Shutdown.Pipeline
import KillMyCluster.Control.Cache
import KillMyCluster.Control.AuditTrace
import KillMyCluster.Control.Heal
import KillMyCluster.Control.Engine
