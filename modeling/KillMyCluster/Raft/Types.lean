import KillMyCluster.Raft.Log

/-! The messages of `proto/raft.proto`, the state of a node (`internal/raft/node.go`)
and what a handler hands to its surroundings: persister calls and RPCs to send.

Clocks are left out. Where the source reads one, the model takes the outcome as an
argument, so that a run may choose it. -/

namespace KMC

inductive Role
  | follower
  | candidate
  | leader
deriving DecidableEq, Repr

structure RequestVoteRequest where
  term : ℕ
  candidateId : ℕ
  lastLogIndex : ℕ
  lastLogTerm : ℕ
  preVote : Bool := false
deriving DecidableEq, Repr

structure RequestVoteResponse where
  term : ℕ
  voteGranted : Bool := false
deriving DecidableEq, Repr

structure AppendEntriesRequest where
  term : ℕ
  leaderId : ℕ
  prevLogIndex : ℕ
  prevLogTerm : ℕ
  entries : List LogEntry
  leaderCommit : ℕ
deriving DecidableEq, Repr

structure AppendEntriesResponse where
  term : ℕ
  success : Bool := false
  conflictIndex : ℕ := 0
  conflictTerm : ℕ := 0
deriving DecidableEq, Repr

structure InstallSnapshotRequest where
  term : ℕ
  leaderId : ℕ
  lastIncludedIndex : ℕ
  lastIncludedTerm : ℕ
  data : Bytes
deriving DecidableEq, Repr

structure InstallSnapshotResponse where
  term : ℕ
deriving DecidableEq, Repr

/-- A state image and the log position it stands for; index 0 means there is none. -/
structure Snapshot where
  index : ℕ
  term : ℕ
  data : Bytes
deriving DecidableEq, Repr

/-- `ApplyMsg` with `CommandValid` or with `SnapshotValid`. -/
inductive ApplyMsg
  | command (e : LogEntry)
  | snapshot (s : Snapshot)
deriving DecidableEq, Repr

def ApplyMsg.index : ApplyMsg → ℕ
  | .command e => e.index
  | .snapshot s => s.index

inductive Call
  | saveHardState (term votedFor : ℕ)
  | appendEntries (entries : List LogEntry)
  | truncateFrom (start : ℕ)
  | saveSnapshot (snap : Snapshot) (hardTerm votedFor : ℕ) (keep : List LogEntry)
deriving DecidableEq, Repr

/-- An RPC as its sender knows it: the request and the closure that waits for the answer. -/
inductive Body
  | preVote (term round : ℕ) (req : RequestVoteRequest)
  | vote (req : RequestVoteRequest)
  | replicate (req : AppendEntriesRequest)
  | heartbeat (req : AppendEntriesRequest)
  | snapshot (req : InstallSnapshotRequest)
deriving DecidableEq, Repr

inductive Response
  | vote (resp : RequestVoteResponse)
  | append (resp : AppendEntriesResponse)
  | install (resp : InstallSnapshotResponse)
deriving DecidableEq, Repr

/-- The value of `votedFor` before a vote: node ids are 1-based. -/
def noVote : ℕ := 0

structure Node where
  id : ℕ
  peers : List ℕ
  snapshotRetain : ℕ
  snapCache : Snapshot
  currentTerm : ℕ
  votedFor : ℕ
  log : RaftLog
  role : Role
  leaderID : ℕ
  commitIndex : ℕ
  lastApplied : ℕ
  electionAttempts : ℕ
  preVoteRound : ℕ
  /-- The counter `votes` of the running poll. Its closure is the only one that passes the
  round check, so one counter stands for all of them; likewise `votes` below, by term. -/
  preVotes : ℕ
  votes : ℕ
  nextIndex : ℕ → ℕ
  matchIndex : ℕ → ℕ
  pendingSnapshot : Option Snapshot
  /-- Whether `readLeaseUntil` is set. -/
  readLease : Bool
  stopped : Bool

def Node.majority (n : Node) : ℕ := (n.peers.length + 1) / 2 + 1

/-- What a critical section leaves behind: the node, the persister calls it made, in order,
and the RPCs it starts. -/
structure Effect where
  node : Node
  calls : List Call := []
  sends : List (ℕ × Body) := []

def Effect.after (cs : List Call) (e : Effect) : Effect := { e with calls := cs ++ e.calls }

@[simp] theorem Effect.after_node (cs : List Call) (e : Effect) : (e.after cs).node = e.node := rfl

@[simp] theorem Effect.after_calls (cs : List Call) (e : Effect) :
    (e.after cs).calls = cs ++ e.calls := rfl

@[simp] theorem Effect.after_sends (cs : List Call) (e : Effect) :
    (e.after cs).sends = e.sends := rfl

end KMC
