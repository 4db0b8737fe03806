import KillMyCluster.Lib.Files
import KillMyCluster.Lib.Table
import KillMyCluster.Lib.Trace
import KillMyCluster.Storage.Record
import KillMyCluster.Storage.Wal

/-! The durable map of `internal/storage/store.go` and `snapshot.go`: the operations on files that
each call makes, and lifetimes of a process on one directory. A call that is not cut short returns
nil. -/

namespace KMC.Storage

open Files

abbrev Data := Table Bytes Bytes

structure Gob where
  encode : Data → Bytes
  decode : Bytes → Except String Data
  roundTrip : ∀ data, decode (encode data) = .ok data

inductive File
  | wal
  | snapshot
  | snapshotTmp
deriving DecidableEq, Repr

abbrev Directory := Dir File UInt8

def apply (data : Data) (cmd : Command) : Data :=
  if cmd.op = opPut then data.set cmd.key cmd.value
  else if cmd.op = opDelete then data.delete cmd.key
  else data

/-! ## Open -/

def loadSnapshot (gob : Gob) (dir : Directory) : Except Failure Data :=
  match dir .snapshot with
  | none => .ok ∅
  | some raw => (gob.decode raw).mapError .error

def replayCommand (data : Data) (payload : Bytes) : Except Failure Data :=
  (decodeCommand payload).map (apply data)

/-- `Open`: the map, and the operations on files. -/
def openStore (gob : Gob) (dir : Directory) : Except Failure (Data × List (Op File UInt8)) := do
  let data ← loadSnapshot gob dir
  match replayWAL (dir .wal) replayCommand data with
  | (_, .error err) => throw err
  | (validOffset, .ok data) => return (data, reopenOps dir .wal validOffset)

/-! ## Calls -/

inductive Api
  | put (key value : Bytes)
  | delete (key : Bytes)
  | snapshot
deriving DecidableEq, Repr

def Api.command : Api → Option Command
  | .put key value => some ⟨opPut, key, value⟩
  | .delete key => some ⟨opDelete, key, []⟩
  | .snapshot => none

def logOps (cmd : Command) : List (Op File UInt8) := [.append .wal (frame (encodeCommand cmd))]

def snapshotOps (gob : Gob) (data : Data) : List (Op File UInt8) :=
  [.create .snapshotTmp (gob.encode data), .rename .snapshotTmp .snapshot, .truncate .wal 0,
    .append .wal []]

def Api.ops (gob : Gob) (data : Data) (api : Api) : List (Op File UInt8) :=
  match api.command with
  | some cmd => logOps cmd
  | none => snapshotOps gob data

/-! ## Lifetimes -/

/-- A directory and, while a process has it open, the map in memory. -/
structure StoreState where
  dir : Directory := fun _ => none
  data : Option Data := none

inductive StoreAction
  /-- A call that returns. -/
  | call (api : Api)
  /-- The process dies in a call. -/
  | interrupt (api : Api) (pt : CrashPoint)
  /-- The process dies between calls. -/
  | crash
  | reopen
  /-- The process dies in `Open`. -/
  | interruptOpen (pt : CrashPoint)

def storeStep (gob : Gob) (s : StoreState) : StoreAction → Option StoreState
  | .call api => s.data.map fun data =>
      ⟨runs s.dir (api.ops gob data), some (api.command.elim data (apply data))⟩
  | .interrupt api pt => s.data.map fun data => ⟨crashed s.dir (api.ops gob data) pt, none⟩
  | .crash => s.data.map fun _ => { s with data := none }
  | .reopen =>
    match s.data, openStore gob s.dir with
    | none, .ok (data, ops) => some ⟨runs s.dir ops, some data⟩
    | _, _ => none
  | .interruptOpen pt =>
    match s.data, openStore gob s.dir with
    | none, .ok (_, ops) => some ⟨crashed s.dir ops pt, none⟩
    | _, _ => none

def Command.Written (cmd : Command) (pt : CrashPoint) : Prop :=
  1 ≤ pt.done ∨ ∃ k ∈ pt.bytes, (frame (encodeCommand cmd)).length ≤ k

instance (cmd : Command) (pt : CrashPoint) : Decidable (cmd.Written pt) := by
  unfold Command.Written
  infer_instance

/-- The commands of a step: the acknowledged one, and an interrupted one if it was written. -/
def StoreAction.commands : StoreAction → List Command
  | .call api => api.command.toList
  | .interrupt api pt => api.command.toList.filter fun cmd => cmd.Written pt
  | .crash | .reopen | .interruptOpen _ => []

end KMC.Storage
