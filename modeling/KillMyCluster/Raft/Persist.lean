import KillMyCluster.Raft.Replicate

/-! The persister of `internal/raft/persist.go` at the level of whole records: what each call
adds to the disk, what a crash or an error in the middle leaves, and what `openPersister`
and `NewNode` read back. -/

namespace KMC

inductive Rec
  | hardState (term votedFor : ℕ)
  | entry (e : LogEntry)
  | truncate (start : ℕ)
deriving DecidableEq, Repr

/-- The snapshot file and the records of `raft.wal`. Temporary files are never read. -/
structure Disk where
  snap : Option Snapshot := none
  wal : List Rec := []
deriving DecidableEq, Repr

/-- The records a call appends to the log; `saveSnapshot` writes a log of its own. -/
def Call.records : Call → List Rec
  | .saveHardState term votedFor => [.hardState term votedFor]
  | .appendEntries entries => entries.map .entry
  | .truncateFrom start => [.truncate start]
  | .saveSnapshot _ hardTerm votedFor keep => .hardState hardTerm votedFor :: keep.map .entry

namespace Disk

/-- A call that got no further than `k` durable writes: `k` records of an append, or of the two
renames of `saveSnapshot`. -/
def write (d : Disk) (k : ℕ) : Call → Disk
  | .saveSnapshot snap hardTerm votedFor keep =>
    match k with
    | 0 => d
    | 1 => { d with snap := some snap }
    | _ => ⟨some snap, (Call.saveSnapshot snap hardTerm votedFor keep).records⟩
  | c => { d with wal := d.wal ++ c.records.take k }

def run (d : Disk) : Call → Disk
  | .saveSnapshot snap hardTerm votedFor keep =>
    ⟨some snap, (Call.saveSnapshot snap hardTerm votedFor keep).records⟩
  | c => { d with wal := d.wal ++ c.records }

end Disk

/-! ## Recovery -/

structure PersistedState where
  term : ℕ := 0
  votedFor : ℕ := noVote
  entries : List LogEntry := []
  snap : Snapshot := ⟨0, 0, []⟩
deriving DecidableEq, Repr

/-- The loop of a truncate marker: entries are dropped from the end while their index is at
least `start`. -/
def dropTail (start : ℕ) (entries : List LogEntry) : List LogEntry :=
  (entries.reverse.dropWhile fun e => start ≤ e.index).reverse

def PersistedState.replay (st : PersistedState) : Rec → PersistedState
  | .hardState term votedFor => { st with term := term, votedFor := votedFor }
  | .entry e => { st with entries := st.entries ++ [e] }
  | .truncate start => { st with entries := dropTail start st.entries }

def Disk.image (d : Disk) : Snapshot := d.snap.getD ⟨0, 0, []⟩

def Disk.replayed (d : Disk) : PersistedState :=
  d.wal.foldl PersistedState.replay { snap := d.image }

def openPersister (d : Disk) : PersistedState :=
  let st := d.replayed
  if 0 < st.snap.index then
    { st with entries := st.entries.dropWhile fun e => e.index ≤ st.snap.index }
  else st

/-- `cfg.SnapshotRetain` as `NewNode` reads it. -/
def snapshotRetainOf (retain : ℤ) : ℕ :=
  if 0 < retain then retain.toNat else if retain = 0 then 1024 else 0

def newNode (id : ℕ) (peers : List ℕ) (retain : ℤ) (st : PersistedState) : Node where
  id := id
  peers := peers
  snapshotRetain := snapshotRetainOf retain
  snapCache := ⟨0, 0, []⟩
  currentTerm := st.term
  votedFor := st.votedFor
  log := (RaftLog.newRaftLog st.snap.index st.snap.term).append st.entries
  role := .follower
  leaderID := 0
  commitIndex := st.snap.index
  lastApplied := st.snap.index
  electionAttempts := 0
  preVoteRound := 0
  preVotes := 0
  votes := 0
  nextIndex := fun _ => 0
  matchIndex := fun _ => 0
  pendingSnapshot := if 0 < st.snap.index then some st.snap else none
  readLease := false
  stopped := false

end KMC
