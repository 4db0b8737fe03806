import KillMyCluster.Raft.Persist
import KillMyCluster.Storage.Wal

/-! The persister of `internal/raft/persist.go` down to the bytes of its files: how records and
snapshots are written, the file operations of each call, and `openPersister` with its errors. A call
that is not cut short returns nil. -/

namespace KMC

open Files Storage

/-- `proto.Marshal` and `proto.Unmarshal` of a log entry, whose numbers are 64 bits wide and which
fits into memory. -/
structure Proto where
  marshal : LogEntry → Bytes
  unmarshal : Bytes → Except String LogEntry
  roundTrip : ∀ e, e.index < 2 ^ 64 → e.term < 2 ^ 64 → (marshal e).length < 2 ^ 63 →
    unmarshal (marshal e) = .ok e

/-- `raftWALName`, `raftWALTmpName`, `raftSnapName` and `raftSnapTmpName`. -/
inductive RaftFile
  | wal
  | walTmp
  | snapshot
  | snapshotTmp
deriving DecidableEq, Repr

abbrev RaftDir := Dir RaftFile UInt8

/-! ## Records -/

def recHardState : UInt8 := 1

def recEntry : UInt8 := 2

def recTruncate : UInt8 := 3

variable (pb : Proto)

def Rec.encode : Rec → Bytes
  | .hardState term votedFor => recHardState :: (BigEndian.put 8 term ++ BigEndian.put 8 votedFor)
  | .entry e => recEntry :: pb.marshal e
  | .truncate start => recTruncate :: BigEndian.put 8 start

/-- The switch in the callback of `openPersister`. -/
def Rec.decode : Bytes → Except String Rec
  | [] => .error "raft: empty wal record"
  | tag :: body =>
    if tag = recHardState then
      if body.length + 1 ≠ 17 then
        .error ("raft: bad hardstate record len " ++ toString (body.length + 1))
      else .ok (.hardState (BigEndian.read (body.take 8)) (BigEndian.read ((body.drop 8).take 8)))
    else if tag = recEntry then
      match pb.unmarshal body with
      | .error err => .error ("raft: unmarshal wal entry: " ++ err)
      | .ok e => .ok (.entry e)
    else if tag = recTruncate then
      if body.length + 1 ≠ 9 then
        .error ("raft: bad truncate record len " ++ toString (body.length + 1))
      else .ok (.truncate (BigEndian.read (body.take 8)))
    else .error ("raft: unknown wal record type " ++ toString tag)

def Snapshot.encode (snap : Snapshot) : Bytes :=
  BigEndian.put 8 snap.index ++ BigEndian.put 8 snap.term ++ snap.data

def Snapshot.decode (raw : Bytes) : Except String Snapshot :=
  if raw.length < 16 then
    .error ("raft: snapshot file too short: " ++ toString raw.length ++ " bytes")
  else .ok ⟨BigEndian.read (raw.take 8), BigEndian.read ((raw.drop 8).take 8), raw.drop 16⟩

/-! ## Calls -/

def Rec.frames (rs : List Rec) : Bytes := Storage.frames.putAll (rs.map (Rec.encode pb))

/-- The file operations of a call. The records of an append share one flush and one fsync. -/
def Call.ops (c : Call) : List (Op RaftFile UInt8) :=
  match c with
  | .saveSnapshot snap _ _ _ =>
    [.create .snapshotTmp snap.encode, .rename .snapshotTmp .snapshot, .remove .walTmp,
      .append .walTmp (Rec.frames pb c.records), .rename .walTmp .wal, .append .wal []]
  | _ => [.append .wal (Rec.frames pb c.records)]

/-! ## Open -/

def PersistedState.replayRecord (st : PersistedState) (payload : Bytes) :
    Except String PersistedState :=
  (Rec.decode pb payload).map st.replay

def loadImage (dir : RaftDir) : Except String Snapshot :=
  match dir .snapshot with
  | none => .ok ⟨0, 0, []⟩
  | some raw => Snapshot.decode raw

/-- `openPersister` on the files of `dir`: what it recovers, and the operations on files. -/
def openPersisterAt (dir : RaftDir) :
    Except String (PersistedState × List (Op RaftFile UInt8)) := do
  let snap ← loadImage dir
  match replayWAL (dir .wal) (PersistedState.replayRecord pb) { snap := snap } with
  | (_, .error err) => throw err
  | (validOffset, .ok st) =>
    let st :=
      if 0 < st.snap.index then
        { st with entries := st.entries.dropWhile fun e => e.index ≤ st.snap.index }
      else st
    return (st, reopenOps dir .wal validOffset)

end KMC
