import Mathlib.Algebra.Order.Ring.Int
import Mathlib.Data.List.Basic

/-! The audit log of `internal/controlplane/audit.go`: what `observe` remembers of one snapshot, and
the lines it hands to `write` at the next, which writes them or drops them. Times are nanoseconds
since 1970. -/

namespace KMC.ControlPlane

/-! ## Durations -/

def second : ℤ := 1_000_000_000

/-- `time.Time.Sub`, which stops at the ends of `int64`. -/
def timeSub (t u : ℤ) : ℤ := max (-2 ^ 63) (min (t - u) (2 ^ 63 - 1))

/-- `Duration.Round` to seconds: halves go away from zero, at the ends of `int64` it stops. -/
def roundSecond (d : ℤ) : ℤ :=
  let r := d.natAbs % 1_000_000_000
  let n : ℤ := if r + r < 1_000_000_000 then d.natAbs - r else d.natAbs + 1_000_000_000 - r
  if d < 0 then max (-2 ^ 63) (-n) else min n (2 ^ 63 - 1)

/-- The digits after the point, without the zeros at their end. -/
def fraction (nanos : ℕ) : String :=
  if nanos = 0 then ""
  else
    let digits := toString (1_000_000_000 + nanos)
    "." ++ String.ofList ((digits.toList.drop 1).reverse.dropWhile (· = '0')).reverse

/-- `Duration.String`, for zero and from a second on: what a rounded duration is. -/
def durationString (d : ℤ) : String :=
  let u := d.natAbs / 1_000_000_000
  let hours := if u / 3600 = 0 then "" else toString (u / 3600) ++ "h"
  let minutes := if u / 60 = 0 then "" else toString (u / 60 % 60) ++ "m"
  (if d < 0 then "-" else "") ++ hours ++ minutes ++ toString (u % 60) ++
    fraction (d.natAbs % 1_000_000_000) ++ "s"

example : durationString (roundSecond 75_400_000_000) = "1m15s" := by decide

/-! ## Entries -/

abbrev Float64 := UInt64

/-- Neither NaN nor infinite: the exponent is not all ones. -/
def Float64.Finite (x : Float64) : Prop := x.toNat / 2 ^ 52 % 2 ^ 11 ≠ 2 ^ 11 - 1

instance (x : Float64) : Decidable (Float64.Finite x) := inferInstanceAs (Decidable (_ ≠ _))

structure Status where
  commitIndex : ℕ
deriving DecidableEq, Repr

structure ChaosInfo where
  node : ℕ
  ageMs : ℤ
deriving DecidableEq, Repr

structure Snapshot where
  nodes : List Status
  alive : ℤ
  total : ℤ
  quorum : Bool
  term : ℕ
  leaderID : ℕ
  writesPerSec : Float64
  readsPerSec : Float64
  hostCpuBusyPct : Option Float64
  chaos : Option ChaosInfo
deriving DecidableEq, Repr

inductive AuditKind
  | controlplaneStarted
  | quorumRegained
  | quorumLost
  | leaderChanged
  | progressResumed
  | progressStalled
  | watchdogStepdown
deriving DecidableEq, Repr

structure AuditEntry where
  time : ℤ
  kind : AuditKind
  detail : String
  alive : ℤ
  total : ℤ
  quorum : Bool
  term : ℕ
  leaderID : ℕ
  commitIndex : ℕ
  writesPerSec : Float64
  readsPerSec : Float64
  hostCPUPct : Option Float64
  chaosNode : ℕ
  chaosAgeMs : ℤ
deriving DecidableEq, Repr

/-- The file as `write` finds it: closed, or open for a `Write` that fails or takes the whole line,
which does not go on from a part of another that a failed `Write` has left. -/
inductive AuditFile
  | closed
  | fails
  | takes
deriving DecidableEq, Repr

/-- One call of `observe`. For a line of each kind, `clock` is what `time.Now` returns and `file` is
the file. -/
structure Observation where
  snap : Snapshot
  stepdowns : ℕ
  stepdownsOK : Bool
  now : ℤ
  clock : AuditKind → ℤ
  file : AuditKind → AuditFile

/-- In milliseconds. -/
def chaosAuditContext : ℤ := 300_000

def auditStallAfter : ℤ := 60 * second

def entryFrom (kind : AuditKind) (detail : String) (snap : Snapshot) (maxCommit : ℕ) (now : ℤ) :
    AuditEntry :=
  let context := snap.chaos.filter fun c =>
    decide (c.node ≠ 0 ∧ 0 ≤ c.ageMs ∧ c.ageMs ≤ chaosAuditContext)
  { time := now
    kind, detail
    alive := snap.alive
    total := snap.total
    quorum := snap.quorum
    term := snap.term
    leaderID := snap.leaderID
    commitIndex := maxCommit
    writesPerSec := snap.writesPerSec
    readsPerSec := snap.readsPerSec
    hostCPUPct := snap.hostCpuBusyPct
    chaosNode := (context.map ChaosInfo.node).getD 0
    chaosAgeMs := (context.map ChaosInfo.ageMs).getD 0 }

/-- `json.Marshal` has no error: the year has four digits and the numbers are finite. -/
def AuditEntry.Marshals (e : AuditEntry) : Prop :=
  (-62_167_219_200 * second ≤ e.time ∧ e.time < 253_402_300_800 * second) ∧
    Float64.Finite e.writesPerSec ∧ Float64.Finite e.readsPerSec ∧
    e.hostCPUPct.all (Float64.Finite ·)

instance (e : AuditEntry) : Decidable e.Marshals := inferInstanceAs (Decidable (_ ∧ _))

def AuditEntry.write (e : AuditEntry) : AuditFile → List AuditEntry
  | .closed => []
  | .fails => []
  | .takes => if e.Marshals then [e] else []

def maxCommitIndex (nodes : List Status) : ℕ :=
  nodes.foldl (fun m n => if m < n.commitIndex then n.commitIndex else m) 0

namespace Observation

def commit (o : Observation) : ℕ := maxCommitIndex o.snap.nodes

def entry (o : Observation) (kind : AuditKind) (detail : String) : AuditEntry :=
  entryFrom kind detail o.snap o.commit (o.clock kind)

@[simp] theorem entry_kind (o : Observation) (kind : AuditKind) (detail : String) :
    (o.entry kind detail).kind = kind := rfl

@[simp] theorem entry_detail (o : Observation) (kind : AuditKind) (detail : String) :
    (o.entry kind detail).detail = detail := rfl

@[simp] theorem entry_commitIndex (o : Observation) (kind : AuditKind) (detail : String) :
    (o.entry kind detail).commitIndex = o.commit := rfl

def Records (o : Observation) (kind : AuditKind) : Prop :=
  o.file kind = .takes ∧ (o.entry kind "").Marshals

instance (o : Observation) (kind : AuditKind) : Decidable (o.Records kind) :=
  inferInstanceAs (Decidable (_ ∧ _))

def write (o : Observation) (lines : List AuditEntry) : List AuditEntry :=
  lines.flatMap fun e => e.write (o.file e.kind)

@[simp] theorem write_nil (o : Observation) : o.write [] = [] := rfl

theorem write_eq_filter (o : Observation) (lines : List AuditEntry) :
    o.write lines = lines.filter fun e => o.file e.kind = .takes ∧ e.Marshals := by
  induction lines with
  | nil => rfl
  | cons e lines ih =>
    rw [write, List.flatMap_cons, List.filter_cons, ← ih]
    cases hf : o.file e.kind <;> simp only [AuditEntry.write, write] <;> split <;> simp_all

theorem write_entry (o : Observation) (kind : AuditKind) (detail : String) :
    o.write [o.entry kind detail] = if o.Records kind then [o.entry kind detail] else [] := by
  have hkept : (o.file (o.entry kind detail).kind = .takes ∧ (o.entry kind detail).Marshals) ↔
      o.Records kind := Iff.rfl
  simp only [write_eq_filter, List.filter_singleton, hkept]
  split <;> simp_all

theorem filter_write (o : Observation) (p : AuditKind → Bool) (lines : List AuditEntry) :
    (o.write lines).filter (p ·.kind) = o.write (lines.filter (p ·.kind)) := by
  simp only [write_eq_filter, List.filter_filter, Bool.and_comm]

theorem mem_write {o : Observation} {lines : List AuditEntry} {e : AuditEntry}
    (h : e ∈ o.write lines) : e ∈ lines := by
  rw [write_eq_filter] at h
  exact List.mem_of_mem_filter h

end Observation

/-! ## Edges -/

structure AuditLog where
  started : Bool
  lastQuorum : Bool
  lastLeader : ℕ
  lastCommit : ℕ
  commitSince : ℤ
  stalled : Bool
  lastStepdow : ℕ
  seenStepdow : Bool
deriving DecidableEq, Repr

namespace AuditLog

def opened : AuditLog := ⟨false, false, 0, 0, 0, false, 0, false⟩

def quorumEdge (a : AuditLog) (o : Observation) : List AuditEntry :=
  if o.snap.quorum = a.lastQuorum then []
  else if o.snap.quorum then [o.entry .quorumRegained ""]
  else [o.entry .quorumLost (toString o.snap.alive ++ " of " ++ toString o.snap.total ++ " alive")]

def leaderDetail (leader prev term : ℕ) : String :=
  if prev = 0 then "node " ++ toString leader ++ " now leader at term " ++ toString term
  else "node " ++ toString leader ++ " replaced node " ++ toString prev ++ " at term " ++
    toString term

def leaderEdge (a : AuditLog) (o : Observation) : List AuditEntry :=
  if o.snap.leaderID ≠ 0 ∧ o.snap.leaderID ≠ a.lastLeader then
    [o.entry .leaderChanged (leaderDetail o.snap.leaderID a.lastLeader o.snap.term)]
  else []

def progressEdge (a : AuditLog) (o : Observation) : ℤ × Bool × List AuditEntry :=
  let age := durationString (roundSecond (timeSub o.now a.commitSince))
  if o.commit ≠ a.lastCommit then
    (o.now, false,
      if a.stalled then
        [o.entry .progressResumed ("commit index moving again after " ++ age ++ " stalled at " ++
          toString a.lastCommit)]
      else [])
  else if o.snap.quorum ∧ o.snap.leaderID ≠ 0 ∧ ¬ a.stalled ∧
      auditStallAfter ≤ timeSub o.now a.commitSince then
    (a.commitSince, true,
      [o.entry .progressStalled ("commit index frozen at " ++ toString o.commit ++ " for " ++ age ++
        " with quorum and a leader")])
  else (a.commitSince, a.stalled, [])

def stepdownEdge (a : AuditLog) (o : Observation) : List AuditEntry :=
  if o.stepdownsOK ∧ a.seenStepdow ∧ a.lastStepdow < o.stepdowns then
    [o.entry .watchdogStepdown ("raft commit-stall watchdog deposed a leader (" ++
      toString o.stepdowns ++ " total since node start)")]
  else []

/-- The lines that `observe` hands to `write`, in this order. -/
def edges (a : AuditLog) (o : Observation) : List AuditEntry :=
  if ¬ a.started then [o.entry .controlplaneStarted "audit log opened"]
  else a.quorumEdge o ++ a.leaderEdge o ++ (a.progressEdge o).2.2 ++ a.stepdownEdge o

def observe (a : AuditLog) (o : Observation) : AuditLog × List AuditEntry :=
  if ¬ a.started then
    (⟨true, o.snap.quorum, o.snap.leaderID, o.commit, o.now, false, o.stepdowns, o.stepdownsOK⟩,
      o.write (a.edges o))
  else
    ({ started := true
       lastQuorum := o.snap.quorum
       lastLeader := o.snap.leaderID
       lastCommit := o.commit
       commitSince := (a.progressEdge o).1
       stalled := (a.progressEdge o).2.1
       lastStepdow := if o.stepdownsOK then o.stepdowns else a.lastStepdow
       seenStepdow := o.stepdownsOK || a.seenStepdow },
      o.write (a.edges o))

end AuditLog

end KMC.ControlPlane
