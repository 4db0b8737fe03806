import KillMyCluster.Raft.Types

/-! Elections, the three RPC handlers, snapshots and the applier of
`internal/raft/node.go`. Each definition is one critical section under `mu`. The argument
`fail` tells which persister calls return an error; within one section no call is made
twice with the same arguments. -/

namespace KMC

namespace Node

/-! ## Terms and roles -/

def stepDownLocked (n : Node) : Node :=
  { n with role := .follower, leaderID := 0, readLease := false }

/-- The error of `saveHardState` is ignored here. -/
def becomeFollowerLocked (n : Node) (term : ℕ) : Effect where
  node := { n with currentTerm := term, role := .follower, votedFor := noVote, readLease := false }
  calls := [.saveHardState term noVote]

/-- The guard every message passes: a higher term is adopted. -/
def adoptTerm (n : Node) (term : ℕ) : Effect :=
  if n.currentTerm < term then n.becomeFollowerLocked term else { node := n }

def becomeLeaderLocked (n : Node) : Node :=
  { n with
    role := .leader
    leaderID := n.id
    electionAttempts := 0
    nextIndex := fun q => if q ∈ n.peers then n.log.lastIndex + 1 else 0
    matchIndex := fun _ => 0
    readLease := false }

/-- `recent` stands for `time.Since(n.electionReset) < n.tm.ElectionTimeoutMin`. -/
def heardLeaderRecentlyLocked (n : Node) (recent : Bool) : Bool := n.leaderID != 0 && recent

/-! ## Standing for election -/

def startElectionLocked (fail : Call → Bool) (n : Node) : Effect :=
  let n := { n with
    role := .candidate
    currentTerm := n.currentTerm + 1
    votedFor := n.id
    leaderID := 0 }
  let call := Call.saveHardState n.currentTerm n.votedFor
  if fail call then { node := { n with role := .follower }, calls := [call] }
  else
    let n := { n with votes := 1 }
    if n.majority ≤ 1 then { node := n.becomeLeaderLocked, calls := [call] }
    else
      { node := n
        calls := [call]
        sends := n.peers.map fun q => (q, .vote
          { term := n.currentTerm
            candidateId := n.id
            lastLogIndex := n.log.lastIndex
            lastLogTerm := n.log.lastTerm }) }

def startPreVoteLocked (fail : Call → Bool) (n : Node) : Effect :=
  let n := { n with
    electionAttempts := n.electionAttempts + 1
    preVoteRound := n.preVoteRound + 1
    preVotes := 1 }
  if n.majority ≤ 1 then n.startElectionLocked fail
  else
    { node := n
      sends := n.peers.map fun q => (q, .preVote n.currentTerm n.preVoteRound
        { term := n.currentTerm + 1
          candidateId := n.id
          lastLogIndex := n.log.lastIndex
          lastLogTerm := n.log.lastTerm
          preVote := true }) }

/-- The goroutine of `startPreVoteLocked` after its RPC returned. -/
def onPreVoteResponse (fail : Call → Bool) (n : Node) (term round : ℕ)
    (resp : RequestVoteResponse) : Effect :=
  if n.stopped then { node := n }
  else if n.currentTerm < resp.term then n.becomeFollowerLocked resp.term
  else if n.role ≠ .follower ∨ n.currentTerm ≠ term ∨ n.preVoteRound ≠ round ∨
      resp.voteGranted = false then { node := n }
  else
    let n := { n with preVotes := n.preVotes + 1 }
    if n.preVotes = n.majority then n.startElectionLocked fail else { node := n }

/-- The goroutine of `startElectionLocked` after its RPC returned. -/
def onVoteResponse (n : Node) (term : ℕ) (resp : RequestVoteResponse) : Effect :=
  if n.stopped then { node := n }
  else if n.currentTerm < resp.term then n.becomeFollowerLocked resp.term
  else if n.role ≠ .candidate ∨ n.currentTerm ≠ term ∨ resp.voteGranted = false then
    { node := n }
  else
    let n := { n with votes := n.votes + 1 }
    if n.votes = n.majority then { node := n.becomeLeaderLocked } else { node := n }

/-! ## RequestVote -/

def upToDate (n : Node) (req : RequestVoteRequest) : Bool :=
  decide (n.log.lastTerm < req.lastLogTerm ∨
    req.lastLogTerm = n.log.lastTerm ∧ n.log.lastIndex ≤ req.lastLogIndex)

def answerPreVote (n : Node) (recent : Bool) (req : RequestVoteRequest) : RequestVoteResponse where
  term := n.currentTerm
  voteGranted :=
    decide (n.currentTerm < req.term) && !n.heardLeaderRecentlyLocked recent && n.upToDate req

def castVote (fail : Call → Bool) (n : Node) (req : RequestVoteRequest) :
    Effect × RequestVoteResponse :=
  if n.votedFor ≠ noVote ∧ n.votedFor ≠ req.candidateId then
    ({ node := n }, { term := n.currentTerm })
  else if n.upToDate req = false then ({ node := n }, { term := n.currentTerm })
  else
    let call := Call.saveHardState n.currentTerm req.candidateId
    if fail call then
      ({ node := { n with votedFor := noVote }, calls := [call] }, { term := n.currentTerm })
    else
      ({ node := { n with votedFor := req.candidateId }, calls := [call] },
        { term := n.currentTerm, voteGranted := true })

def handleRequestVote (fail : Call → Bool) (recent : Bool) (n : Node) (req : RequestVoteRequest) :
    Effect × RequestVoteResponse :=
  if n.stopped then ({ node := n }, { term := n.currentTerm })
  else if req.preVote then ({ node := n }, n.answerPreVote recent req)
  else if n.currentTerm < req.term ∧ n.heardLeaderRecentlyLocked recent then
    ({ node := n }, { term := n.currentTerm })
  else
    let a := n.adoptTerm req.term
    if req.term < a.node.currentTerm then (a, { term := a.node.currentTerm })
    else
      let (e, resp) := a.node.castVote fail req
      (e.after a.calls, resp)

/-! ## AppendEntries -/

/-- A message of the node's own term proves that a leader exists. -/
def followLeader (n : Node) (leaderId : ℕ) : Node :=
  { n with role := .follower, leaderID := leaderId, electionAttempts := 0 }

/-- The walk over the incoming entries: where the log must be cut, if anywhere, and what is
left to append. -/
def mergeLoop (log : RaftLog) : List LogEntry → Option ℕ × List LogEntry
  | [] => (none, [])
  | e :: es =>
    if e.index ≤ log.firstIndex then mergeLoop log es
    else if log.lastIndex < e.index then (none, e :: es)
    else if (log.term e.index).getD 0 ≠ e.term then (some e.index, e :: es)
    else mergeLoop log es

def advanceCommit (n : Node) (req : AppendEntriesRequest) : Node :=
  if n.commitIndex < req.leaderCommit then
    { n with
      commitIndex :=
        min req.leaderCommit (max (req.prevLogIndex + req.entries.length) n.commitIndex) }
  else n

def appendNew (fail : Call → Bool) (n : Node) (req : AppendEntriesRequest)
    (new : List LogEntry) : Effect × AppendEntriesResponse :=
  if new = [] then
    ({ node := n.advanceCommit req }, { term := n.currentTerm, success := true })
  else
    let n := { n with log := n.log.append new }
    let call := Call.appendEntries new
    if fail call then ({ node := n, calls := [call] }, { term := n.currentTerm })
    else
      ({ node := n.advanceCommit req, calls := [call] },
        { term := n.currentTerm, success := true })

def mergeEntries (fail : Call → Bool) (n : Node) (req : AppendEntriesRequest) :
    Effect × AppendEntriesResponse :=
  match mergeLoop n.log req.entries with
  | (none, new) => n.appendNew fail req new
  | (some i, new) =>
    let n := { n with log := n.log.truncateFrom i }
    let call := Call.truncateFrom i
    if fail call then ({ node := n, calls := [call] }, { term := n.currentTerm })
    else
      let (e, resp) := n.appendNew fail req new
      (e.after [call], resp)

def conflict (n : Node) (ourTerm : ℕ) : AppendEntriesResponse where
  term := n.currentTerm
  conflictTerm := ourTerm
  conflictIndex :=
    if n.log.firstIndexOfTerm ourTerm = 0 then n.log.firstIndex + 1
    else n.log.firstIndexOfTerm ourTerm

def appendLocked (fail : Call → Bool) (n : Node) (req : AppendEntriesRequest) :
    Effect × AppendEntriesResponse :=
  if n.log.lastIndex < req.prevLogIndex then
    ({ node := n }, { term := n.currentTerm, conflictIndex := n.log.lastIndex + 1 })
  else if n.log.firstIndex ≤ req.prevLogIndex ∧
      n.log.term req.prevLogIndex ≠ some req.prevLogTerm then
    ({ node := n }, n.conflict ((n.log.term req.prevLogIndex).getD 0))
  else n.mergeEntries fail req

def handleAppendEntries (fail : Call → Bool) (n : Node) (req : AppendEntriesRequest) :
    Effect × AppendEntriesResponse :=
  if n.stopped then ({ node := n }, { term := n.currentTerm })
  else
    let a := n.adoptTerm req.term
    if req.term < a.node.currentTerm then (a, { term := a.node.currentTerm })
    else
      let (e, resp) := (a.node.followLeader req.leaderId).appendLocked fail req
      (e.after a.calls, resp)

/-! ## Snapshots -/

def installLocked (fail : Call → Bool) (n : Node) (req : InstallSnapshotRequest) :
    Effect × InstallSnapshotResponse :=
  if req.lastIncludedIndex ≤ n.commitIndex then ({ node := n }, { term := n.currentTerm })
  else
    let n := { n with log := n.log.compactTo req.lastIncludedIndex req.lastIncludedTerm }
    let snap : Snapshot := ⟨req.lastIncludedIndex, req.lastIncludedTerm, req.data⟩
    let call := Call.saveSnapshot snap n.currentTerm n.votedFor n.log.allEntries
    if fail call then ({ node := n, calls := [call] }, { term := n.currentTerm })
    else
      ({ node := { n with
           snapCache := snap
           commitIndex := snap.index
           lastApplied := snap.index
           pendingSnapshot := some snap }
         calls := [call] }, { term := n.currentTerm })

def handleInstallSnapshot (fail : Call → Bool) (n : Node) (req : InstallSnapshotRequest) :
    Effect × InstallSnapshotResponse :=
  if n.stopped then ({ node := n }, { term := n.currentTerm })
  else
    let a := n.adoptTerm req.term
    if req.term < a.node.currentTerm then (a, { term := a.node.currentTerm })
    else
      let (e, resp) := (a.node.followLeader req.leaderId).installLocked fail req
      (e.after a.calls, resp)

/-- How far `Snapshot(index)` compacts the log. -/
def snapshotCut (n : Node) (index : ℕ) : ℕ :=
  if 0 < n.snapshotRetain then
    if n.snapshotRetain < index then index - n.snapshotRetain else 0
  else index

def compactBehind (n : Node) (index : ℕ) : RaftLog :=
  if n.log.firstIndex < n.snapshotCut index then
    match n.log.term (n.snapshotCut index) with
    | some t => n.log.compactTo (n.snapshotCut index) t
    | none => n.log
  else n.log

/-- `Snapshot`; the second component is whether it returned nil. -/
def snapshot (fail : Call → Bool) (n : Node) (index : ℕ) (data : Bytes) : Effect × Bool :=
  if index ≤ n.log.firstIndex then ({ node := n }, true)
  else if n.lastApplied < index then ({ node := n }, false)
  else
    match n.log.term index with
    | none => ({ node := n }, false)
    | some snapTerm =>
      let n := { n with log := n.compactBehind index }
      let snap : Snapshot := ⟨index, snapTerm, data⟩
      let call := Call.saveSnapshot snap n.currentTerm n.votedFor n.log.allEntries
      if fail call then ({ node := n, calls := [call] }, false)
      else ({ node := { n with snapCache := snap }, calls := [call] }, true)

/-! ## The applier -/

/-- The messages for the indexes after `i`, `k` of them; `none` if one is not in the log. -/
def collectBatch (log : RaftLog) (i : ℕ) : ℕ → Option (List ApplyMsg)
  | 0 => some []
  | k + 1 => do
    let e ← log.entry (i + 1)
    let rest ← collectBatch log (i + 1) k
    return .command e :: rest

/-- What the applier picks up under the mutex, and the node it leaves; `none` while it sleeps,
once it is stopped, or if an index is out of range. -/
def applierTake (n : Node) : Option (Node × List ApplyMsg) :=
  if n.stopped then none
  else match n.pendingSnapshot with
    | some snap => some ({ n with pendingSnapshot := none }, [.snapshot snap])
    | none =>
      if n.commitIndex = n.lastApplied then none
      else (collectBatch n.log n.lastApplied (n.commitIndex - n.lastApplied)).map fun batch =>
        ({ n with lastApplied := n.commitIndex }, batch)

end Node

end KMC
