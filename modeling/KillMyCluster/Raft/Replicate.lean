import KillMyCluster.Raft.Node

/-! Log replication, the propose batcher and the read batcher: `internal/raft/replicate.go` and
`internal/raft/batch.go`. -/

namespace KMC

def maxAppendEntries : ℕ := 64

namespace Node

/-! ## Sending -/

def appendRequest (n : Node) (next : ℕ) (entries : List LogEntry) : AppendEntriesRequest where
  term := n.currentTerm
  leaderId := n.id
  prevLogIndex := next - 1
  prevLogTerm := (n.log.term (next - 1)).getD 0
  entries := entries
  leaderCommit := n.commitIndex

/-- The image comes from memory or, after a restart, from the snapshot file. -/
def sendSnapshotLocked (n : Node) (file : Option Snapshot) (peer : ℕ) : Effect :=
  let snap := if n.snapCache.index = 0 then file.getD ⟨0, 0, []⟩ else n.snapCache
  if snap.index = 0 then { node := n }
  else
    { node := { n with snapCache := snap }
      sends := [(peer, .snapshot
        { term := n.currentTerm
          leaderId := n.id
          lastIncludedIndex := snap.index
          lastIncludedTerm := snap.term
          data := snap.data })] }

/-- `replicateOnce` up to its RPC. `none` when this leadership is over: the replicator of a
term runs only while the node leads that term. -/
def replicateOnce (n : Node) (file : Option Snapshot) (peer : ℕ) : Option Effect :=
  if n.stopped ∨ n.role ≠ .leader then none
  else
    let next := n.nextIndex peer
    if next ≤ n.log.firstIndex then some (n.sendSnapshotLocked file peer)
    else
      let entries := (n.log.suffix next).take maxAppendEntries
      some { node := n, sends := [(peer, .replicate (n.appendRequest next entries))] }

/-- `heartbeatAck` up to its RPC; `none` where it returns false without one. -/
def heartbeatAck (n : Node) (peer : ℕ) : Option Effect :=
  if n.stopped ∨ n.role ≠ .leader then none
  else if n.nextIndex peer ≤ n.log.firstIndex then none
  else some
    { node := n, sends := [(peer, .heartbeat (n.appendRequest (n.nextIndex peer) []))] }

/-! ## The commit rule -/

/-- How many nodes hold the log up to `idx`, as far as the leader knows. -/
def replicas (n : Node) (idx : ℕ) : ℕ := 1 + n.peers.countP fun q => idx ≤ n.matchIndex q

/-- The downward loop of `maybeAdvanceCommitLocked`. -/
def commitScan (n : Node) : ℕ → Option ℕ
  | 0 => none
  | idx + 1 =>
    if idx + 1 ≤ n.commitIndex then none
    else if n.log.term (idx + 1) ≠ some n.currentTerm then none
    else if n.majority ≤ n.replicas (idx + 1) then some (idx + 1)
    else n.commitScan idx

def maybeAdvanceCommitLocked (n : Node) : Node :=
  match n.commitScan n.log.lastIndex with
  | some idx => { n with commitIndex := idx }
  | none => n

/-! ## Responses -/

def raiseMatch (n : Node) (peer idx : ℕ) : Node :=
  { n with
    matchIndex := Function.update n.matchIndex peer (max (n.matchIndex peer) idx)
    nextIndex := Function.update n.nextIndex peer (max (n.nextIndex peer) (idx + 1)) }

def backUp (n : Node) (peer : ℕ) (resp : AppendEntriesResponse) : ℕ :=
  let next :=
    if resp.conflictTerm ≠ 0 then
      if n.log.lastIndexOfTerm resp.conflictTerm ≠ 0 then
        n.log.lastIndexOfTerm resp.conflictTerm + 1
      else resp.conflictIndex
    else if resp.conflictIndex ≠ 0 then resp.conflictIndex
    else n.nextIndex peer - 1
  max next 1

/-- `replicateOnce` after its RPC returned. -/
def onAppendResponse (n : Node) (peer : ℕ) (req : AppendEntriesRequest)
    (resp : AppendEntriesResponse) : Effect :=
  if n.stopped then { node := n }
  else if n.currentTerm < resp.term then n.becomeFollowerLocked resp.term
  else if n.role ≠ .leader ∨ n.currentTerm ≠ req.term then { node := n }
  else if resp.success then
    { node := (n.raiseMatch peer (req.prevLogIndex + req.entries.length)).maybeAdvanceCommitLocked }
  else
    { node := { n with nextIndex := Function.update n.nextIndex peer (n.backUp peer resp) } }

/-- `heartbeatAck` after its RPC returned; it does not look at `stopped`. -/
def onHeartbeatResponse (n : Node) (resp : AppendEntriesResponse) : Effect :=
  if n.currentTerm < resp.term then n.becomeFollowerLocked resp.term else { node := n }

/-- `sendSnapshotLocked` after its RPC returned. -/
def onSnapshotResponse (n : Node) (peer : ℕ) (req : InstallSnapshotRequest)
    (resp : InstallSnapshotResponse) : Effect :=
  if n.stopped then { node := n }
  else if n.currentTerm < resp.term then n.becomeFollowerLocked resp.term
  else if n.role ≠ .leader ∨ n.currentTerm ≠ req.term then { node := n }
  else { node := n.raiseMatch peer req.lastIncludedIndex }

/-! ## Reads -/

/-- `serveReadBatch` up to its round: the term and commit index it starts from. `none` stands for
`failReads`. -/
def serveReadBatch (n : Node) : Option (ℕ × ℕ) :=
  if n.role ≠ .leader then none else some (n.currentTerm, n.commitIndex)

/-- The check that `confirmLeadership` and its heartbeats begin with. -/
def leads (n : Node) (term : ℕ) : Bool := !n.stopped && n.role == .leader && n.currentTerm == term

theorem leads_iff {n : Node} {term : ℕ} :
    n.leads term = true ↔ n.stopped = false ∧ n.role = .leader ∧ n.currentTerm = term := by
  simp [leads, and_assoc]

/-- The guards of `replicateOnce` let the answers to a leader's own requests through. -/
theorem onAppendResponse_leads {n : Node} {peer : ℕ} {req : AppendEntriesRequest}
    {resp : AppendEntriesResponse} (h : n.leads req.term = true) (hr : resp.term ≤ req.term) :
    n.onAppendResponse peer req resp = if resp.success then { node :=
        (n.raiseMatch peer (req.prevLogIndex + req.entries.length)).maybeAdvanceCommitLocked }
      else { node := { n with
        nextIndex := Function.update n.nextIndex peer (n.backUp peer resp) } } := by
  obtain ⟨hst, hrole, hterm⟩ := leads_iff.mp h
  unfold onAppendResponse
  rw [if_neg (by simp [hst]), if_neg (by omega), if_neg (by simp [hrole, hterm])]

theorem onSnapshotResponse_leads {n : Node} {peer : ℕ} {req : InstallSnapshotRequest}
    {resp : InstallSnapshotResponse} (h : n.leads req.term = true) (hr : resp.term ≤ req.term) :
    n.onSnapshotResponse peer req resp = { node := n.raiseMatch peer req.lastIncludedIndex } := by
  obtain ⟨hst, hrole, hterm⟩ := leads_iff.mp h
  unfold onSnapshotResponse
  rw [if_neg (by simp [hst]), if_neg (by omega), if_neg (by simp [hrole, hterm])]

/-- What makes `heartbeatAck` return true. -/
def acknowledges (n : Node) (term : ℕ) (resp : AppendEntriesResponse) : Bool :=
  decide (resp.term ≤ n.currentTerm) && resp.success && resp.term == term

/-- The lease is renewed after a confirmed round, whoever leads by then. -/
def renewLease (n : Node) : Node := { n with readLease := true }

/-- `serveReadBatch` after a confirmed round. -/
def readAfterRound (n : Node) (term readIndex : ℕ) : Option ℕ :=
  if n.role = .leader ∧ n.currentTerm = term then
    some (if readIndex < n.commitIndex then n.commitIndex else readIndex)
  else none

/-! ## Proposals -/

def newEntries (term : ℕ) (last : ℕ) : List Bytes → List LogEntry
  | [] => []
  | data :: rest => ⟨last + 1, term, data⟩ :: newEntries term (last + 1) rest

/-- `commitPropBatch`; the second component is what the proposers are told, `none` standing for
`failProps`. -/
def commitPropBatch (fail : Call → Bool) (n : Node) (batch : List Bytes) :
    Effect × Option (List LogEntry) :=
  if n.role ≠ .leader then ({ node := n }, none)
  else
    let entries := newEntries n.currentTerm n.log.lastIndex batch
    let call := Call.appendEntries entries
    let log := n.log.append entries
    if fail call then
      ({ node := { n with log := log.truncateFrom (n.log.lastIndex + 1) }, calls := [call] }, none)
    else ({ node := { n with log := log }, calls := [call] }, some entries)

end Node

end KMC
