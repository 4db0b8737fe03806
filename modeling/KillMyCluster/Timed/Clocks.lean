import KillMyCluster.Raft.Cluster
import KillMyCluster.Raft.Timing

/-! The instants that a `Node` keeps and what each critical section does to them: the election
timer, CheckQuorum, the commit-stall watchdog and the read lease. Instants are nanoseconds; a
section reads the clock once. `none` as a result is the panic of `rand.Int63n`. -/

namespace KMC

/-- `none` is the zero `time.Time`. -/
structure Clocks where
  electionReset : ℤ := 0
  electionTimeout : ℤ := 0
  lastContact : ℕ → Option ℤ := fun _ => none
  lastQuorumCheck : Option ℤ := none
  lastCommitProgress : Option ℤ := none
  lastProgressIndex : ℕ := 0
  commitStallStepdowns : ℕ := 0
  readLeaseUntil : Option ℤ := none

/-- `time.Since(t) >= d`. Since the zero time more has passed than any duration can tell. -/
def elapsed (now : ℤ) (t : Option ℤ) (d : Duration) : Bool :=
  t.all fun t => decide (d.toInt ≤ now - t)

namespace Clocks

variable (tm : Timings) (now : ℤ) (draw : ℕ)

def resetElectionTimerLocked (electionAttempts : ℕ) (c : Clocks) : Option Clocks :=
  (tm.electionTimeout electionAttempts draw).map fun d =>
    { c with electionReset := now, electionTimeout := d.toInt }

/-- `time.Since(n.electionReset) < n.tm.ElectionTimeoutMin`. -/
def recent (c : Clocks) : Bool := !elapsed now (some c.electionReset) tm.electionTimeoutMin

/-- `time.Now().Before(n.readLeaseUntil)`. -/
def leased (c : Clocks) : Bool := c.readLeaseUntil.any fun t => decide (now < t)

/-! ## Roles -/

/-- What ends a leadership, or whatever the node was. -/
def leaveOffice (n : Node) (c : Clocks) : Option Clocks :=
  { c with readLeaseUntil := none }.resetElectionTimerLocked tm now draw n.electionAttempts

def stepDownLocked (n : Node) (c : Clocks) : Option Clocks := c.leaveOffice tm now draw n

def becomeFollowerLocked (n : Node) (c : Clocks) : Option Clocks := c.leaveOffice tm now draw n

/-- Contacts, CheckQuorum and the stall clock start with a period of grace. -/
def becomeLeaderLocked (n : Node) (c : Clocks) : Clocks :=
  { c with
    lastContact := fun q => if q ∈ n.peers then some now else none
    lastQuorumCheck := some now
    lastCommitProgress := some now
    lastProgressIndex := n.commitIndex
    readLeaseUntil := none }

def startElectionLocked (fail : Call → Bool) (n : Node) (c : Clocks) : Option Clocks := do
  let c ← c.resetElectionTimerLocked tm now draw n.electionAttempts
  let m := (n.startElectionLocked fail).node
  return if m.role = .leader then c.becomeLeaderLocked now m else c

def startPreVoteLocked (fail : Call → Bool) (n : Node) (c : Clocks) : Option Clocks := do
  let n := { n with
    electionAttempts := n.electionAttempts + 1
    preVoteRound := n.preVoteRound + 1
    preVotes := 1 }
  let c ← c.resetElectionTimerLocked tm now draw n.electionAttempts
  if n.majority ≤ 1 then c.startElectionLocked tm now draw fail n else return c

/-! ## The leader's watch over itself -/

def noteContactLocked (peer : ℕ) (c : Clocks) : Clocks :=
  { c with lastContact := Function.update c.lastContact peer (some now) }

def quorumActiveLocked (n : Node) (c : Clocks) : Bool :=
  decide (n.majority ≤
    1 + n.peers.countP fun q => !elapsed now (c.lastContact q) tm.electionTimeoutMax)

def noteCommitProgressLocked (n : Node) (c : Clocks) : Clocks :=
  { c with lastCommitProgress := some now, lastProgressIndex := n.commitIndex }

inductive Turn
  | rest
  | stepDown
  | poll
deriving DecidableEq, Repr

def checkCommitStallLocked (n : Node) (c : Clocks) : Clocks × Turn :=
  if tm.commitStallTimeout < 0 then (c, .rest)
  else if n.log.lastIndex ≤ n.commitIndex then (c.noteCommitProgressLocked now n, .rest)
  else if c.lastCommitProgress = none ∨ n.commitIndex ≠ c.lastProgressIndex then
    (c.noteCommitProgressLocked now n, .rest)
  else if elapsed now c.lastCommitProgress tm.commitStallTimeout = false then (c, .rest)
  else if c.quorumActiveLocked tm now n = false then (c, .rest)
  else ({ c with commitStallStepdowns := c.commitStallStepdowns + 1 }, .stepDown)

def runElectionTimer (n : Node) (c : Clocks) : Clocks × Turn :=
  if n.stopped then (c, .rest)
  else if n.role = .leader then
    if elapsed now c.lastQuorumCheck tm.electionTimeoutMax then
      let c := { c with lastQuorumCheck := some now }
      if c.quorumActiveLocked tm now n then c.checkCommitStallLocked tm now n else (c, .stepDown)
    else c.checkCommitStallLocked tm now n
  else if now - c.electionReset < c.electionTimeout then (c, .rest)
  else (c, .poll)

/-! ## Messages -/

def adoptTerm (n : Node) (term : ℕ) (c : Clocks) : Option Clocks :=
  if n.currentTerm < term then c.becomeFollowerLocked tm now draw n else some c

def handleRequestVote (n : Node) (req : RequestVoteRequest) (granted : Bool) (c : Clocks) :
    Option Clocks :=
  if n.stopped then some c
  else if req.preVote then some c
  else if n.currentTerm < req.term ∧ n.heardLeaderRecentlyLocked (c.recent tm now) then some c
  else do
    let c ← c.adoptTerm tm now draw n req.term
    if granted then c.resetElectionTimerLocked tm now draw n.electionAttempts else return c

/-- AppendEntries and InstallSnapshot: a message of the node's own term, or of a later one, is a
sign of life of the leader. -/
def hearLeader (n : Node) (term : ℕ) (c : Clocks) : Option Clocks :=
  if n.stopped then some c
  else do
    let c ← c.adoptTerm tm now draw n term
    if term < n.currentTerm then return c else c.resetElectionTimerLocked tm now draw 0

def handle (n : Node) (c : Clocks) : Body → Response → Option Clocks
  | .preVote _ _ req, .vote resp => c.handleRequestVote tm now draw n req resp.voteGranted
  | .vote req, .vote resp => c.handleRequestVote tm now draw n req resp.voteGranted
  | .replicate req, _ => c.hearLeader tm now draw n req.term
  | .heartbeat req, _ => c.hearLeader tm now draw n req.term
  | .snapshot req, _ => c.hearLeader tm now draw n req.term
  | _, _ => some c

/-! ## Answers -/

def onPreVoteResponse (fail : Call → Bool) (n : Node) (term round : ℕ)
    (resp : RequestVoteResponse) (c : Clocks) : Option Clocks :=
  if n.stopped then some c
  else if n.currentTerm < resp.term then c.becomeFollowerLocked tm now draw n
  else if n.role ≠ .follower ∨ n.currentTerm ≠ term ∨ n.preVoteRound ≠ round ∨
      resp.voteGranted = false then some c
  else
    let n := { n with preVotes := n.preVotes + 1 }
    if n.preVotes = n.majority then c.startElectionLocked tm now draw fail n else some c

def onVoteResponse (n : Node) (term : ℕ) (resp : RequestVoteResponse) (c : Clocks) :
    Option Clocks :=
  if n.stopped then some c
  else if n.currentTerm < resp.term then c.becomeFollowerLocked tm now draw n
  else if n.role ≠ .candidate ∨ n.currentTerm ≠ term ∨ resp.voteGranted = false then some c
  else
    let n := { n with votes := n.votes + 1 }
    if n.votes = n.majority then some (c.becomeLeaderLocked now n) else some c

def onAppendResponse (n : Node) (peer : ℕ) (req : AppendEntriesRequest)
    (resp : AppendEntriesResponse) (c : Clocks) : Option Clocks :=
  if n.stopped then some c
  else if n.currentTerm < resp.term then c.becomeFollowerLocked tm now draw n
  else if n.role ≠ .leader ∨ n.currentTerm ≠ req.term then some c
  else
    let c := c.noteContactLocked now peer
    let m := (n.onAppendResponse peer req resp).node
    -- `maybeAdvanceCommitLocked` notes the progress it makes
    some (if m.commitIndex = n.commitIndex then c else c.noteCommitProgressLocked now m)

def onHeartbeatResponse (n : Node) (peer term : ℕ) (resp : AppendEntriesResponse) (c : Clocks) :
    Option Clocks :=
  if n.currentTerm < resp.term then c.becomeFollowerLocked tm now draw n
  else if n.role = .leader ∧ n.currentTerm = term then some (c.noteContactLocked now peer)
  else some c

def onSnapshotResponse (n : Node) (peer : ℕ) (req : InstallSnapshotRequest)
    (resp : InstallSnapshotResponse) (c : Clocks) : Option Clocks :=
  if n.stopped then some c
  else if n.currentTerm < resp.term then c.becomeFollowerLocked tm now draw n
  else if n.role ≠ .leader ∨ n.currentTerm ≠ req.term then some c
  else some (c.noteContactLocked now peer)

def receive (fail : Call → Bool) (n : Node) (peer : ℕ) (c : Clocks) :
    Body → Response → Option Clocks
  | .preVote term round _, .vote resp => c.onPreVoteResponse tm now draw fail n term round resp
  | .vote req, .vote resp => c.onVoteResponse tm now draw n req.term resp
  | .replicate req, .append resp => c.onAppendResponse tm now draw n peer req resp
  | .heartbeat req, .append resp => c.onHeartbeatResponse tm now draw n peer req.term resp
  | .snapshot req, .install resp => c.onSnapshotResponse tm now draw n peer req resp
  | _, _ => some c

def renewLease (c : Clocks) : Clocks :=
  { c with readLeaseUntil := some (now + tm.electionTimeoutMin.toInt / 3) }

def start : Option Clocks := ({} : Clocks).resetElectionTimerLocked tm now draw 0

end Clocks

end KMC
