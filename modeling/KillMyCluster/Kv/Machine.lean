import KillMyCluster.Lib.Table
import KillMyCluster.Raft.Log

/-! The replicated state machine of `internal/kv/machine.go`: commands over a map, the table of
results that makes a retried request harmless, and the image of both that goes into a snapshot.
Watchers are left out; they do not influence the state. -/

namespace KMC

/-- A byte slice of the source; `none` is nil. -/
abbrev Slice := Option Bytes

def Slice.bytes (s : Slice) : Bytes := s.getD []

/-! ## Commands -/

/-- `OpType`; a byte other than these four is an operation that does nothing. -/
abbrev OpType := UInt8

def opGet : OpType := 1

def opPut : OpType := 2

def opCAS : OpType := 3

def opCheckpoint : OpType := 4

structure Command where
  op : OpType
  clientID : Bytes
  requestID : UInt64
  key : Bytes := []
  value : Slice := none
  expect : Slice := none
deriving DecidableEq, Repr

structure ApplyResult where
  found : Bool := false
  value : Slice := none
  duplicate : Bool := false
deriving DecidableEq, Repr

structure DedupKey where
  client : Bytes
  requestID : UInt64
deriving DecidableEq, Repr

/-- The bytes of `_checkpoint/` and the client. -/
def checkpointKey (clientID : Bytes) : Bytes :=
  [95, 99, 104, 101, 99, 107, 112, 111, 105, 110, 116, 47] ++ clientID

/-- Whether the results of a command are kept for its retries. -/
def Command.tracked (cmd : Command) : Bool := cmd.clientID ≠ [] && cmd.requestID ≠ 0

def Command.dedupKey (cmd : Command) : DedupKey := ⟨cmd.clientID, cmd.requestID⟩

/-! ## The machine -/

def dedupWindow : UInt64 := 128

def dedupHighWater : ℕ := 16384

def dedupSweepEvery : UInt64 := 1024

structure Machine where
  data : Table Bytes Slice := ∅
  applied : Table DedupKey ApplyResult := ∅
  maxReq : Table Bytes UInt64 := ∅
  applyCount : UInt64 := 0
deriving DecidableEq

def newMachine : Machine := {}

namespace Machine

def execute (data : Table Bytes Slice) (cmd : Command) : Table Bytes Slice × ApplyResult :=
  if cmd.op = opGet then
    match data.get cmd.key with
    | some v => (data, { found := true, value := v })
    | none => (data, {})
  else if cmd.op = opPut then
    (data.set cmd.key cmd.value, { found := true, value := (data.get cmd.key).getD none })
  else if cmd.op = opCAS then
    match data.get cmd.key with
    | none =>
      if cmd.expect.bytes ≠ [] then (data, {})
      else (data.set cmd.key cmd.value, { found := true })
    | some cur =>
      if cur.bytes = cmd.expect.bytes then
        (data.set cmd.key cmd.value, { found := true, value := cur })
      else (data, { value := cur })
  else if cmd.op = opCheckpoint then
    (data.set (checkpointKey cmd.clientID) cmd.value, { found := true, value := cmd.value })
  else (data, {})

def maxRequest (m : Machine) (client : Bytes) : UInt64 := (m.maxReq.get client).getD 0

def sweepDedupLocked (m : Machine) : Machine :=
  { m with
    applied := m.applied.prune fun k => k.requestID + dedupWindow < m.maxRequest k.client }

def note (m : Machine) (cmd : Command) (res : ApplyResult) : Machine :=
  { m with
    applied := m.applied.set cmd.dedupKey { res with duplicate := false }
    maxReq := if m.maxRequest cmd.clientID < cmd.requestID then
        m.maxReq.set cmd.clientID cmd.requestID
      else m.maxReq
    applyCount := m.applyCount + 1 }

/-- The last part of `Apply`: the result is kept, and now and then the table is swept. -/
def remember (m : Machine) (cmd : Command) (res : ApplyResult) : Machine :=
  let m := m.note cmd res
  if dedupHighWater ≤ m.applied.size ∧ m.applyCount % dedupSweepEvery = 0 then
    m.sweepDedupLocked
  else m

def apply (m : Machine) (cmd : Command) : Machine × ApplyResult :=
  match if cmd.tracked then m.applied.get cmd.dedupKey else none with
  | some prev => (m, { prev with duplicate := true })
  | none =>
    let (data, res) := execute m.data cmd
    let m := { m with data := data }
    (if cmd.tracked then m.remember cmd res else m, res)

def get (m : Machine) (key : Bytes) : Slice × Bool :=
  ((m.data.get key).getD none, (m.data.get key).isSome)

def applyAll (m : Machine) : List Command → Machine × List ApplyResult
  | [] => (m, [])
  | cmd :: cmds =>
    let (m, res) := m.apply cmd
    let (m, rest) := m.applyAll cmds
    (m, res :: rest)

end Machine

/-! ## Images -/

/-- `snapshotData`; `none` is a nil map. -/
structure SnapshotData where
  data : Option (Table Bytes Slice)
  applied : Option (Table DedupKey ApplyResult)
  maxReq : Option (Table Bytes UInt64)
  applyCount : UInt64
deriving DecidableEq

def ApplyResult.copy (res : ApplyResult) : ApplyResult :=
  if res.value ≠ none then { res with duplicate := false } else res

/-- A nil slice counts as an empty one. -/
def Slice.norm (s : Slice) : Slice := some s.bytes

def ApplyResult.norm (res : ApplyResult) : ApplyResult := { res with value := res.value.norm }

def Machine.norm (m : Machine) : Machine :=
  { m with data := m.data.mapVals Slice.norm, applied := m.applied.mapVals ApplyResult.norm }

def SnapshotData.contents (snap : SnapshotData) : Machine where
  data := snap.data.getD ∅
  applied := snap.applied.getD ∅
  maxReq := snap.maxReq.getD ∅
  applyCount := snap.applyCount

/-- An encoding of images that gives back the maps it was given, up to nil and empty. -/
structure Gob where
  encode : SnapshotData → Option Bytes
  decode : Bytes → Option SnapshotData
  roundTrip : ∀ snap raw, encode snap = some raw →
    ∃ snap', decode raw = some snap' ∧ snap'.contents.norm = snap.contents.norm

namespace Machine

def snapshotData (m : Machine) : SnapshotData where
  data := some m.data
  applied := some (m.applied.mapVals ApplyResult.copy)
  maxReq := some m.maxReq
  applyCount := m.applyCount

/-- `Snapshot`; `none` if the encoder fails. -/
def snapshot (gob : Gob) (m : Machine) : Option Bytes := gob.encode m.snapshotData

/-- `Restore`; `none` if the decoder fails. -/
def restore (gob : Gob) (m : Machine) (raw : Bytes) : Option Machine :=
  (gob.decode raw).map fun snap =>
    { m with
      data := snap.contents.data
      applied := snap.contents.applied
      maxReq := snap.contents.maxReq
      applyCount := snap.contents.applyCount }

end Machine

end KMC
