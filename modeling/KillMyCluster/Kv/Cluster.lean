import KillMyCluster.Kv.Codec
import KillMyCluster.Read.Model

/-! `kv.Cluster` over the cluster of Raft nodes: client calls, the propose loop with its retries,
the applier behind the bounded channel, and the tables through which the applier hands results to
the calls. Both tables are keyed by log index. -/

namespace KMC

/-! ## Calls -/

inductive Api
  | put (clientID : Bytes) (requestID : UInt64) (key : Bytes) (value : Slice)
  | cas (clientID : Bytes) (requestID : UInt64) (key : Bytes) (expect value : Slice)
  | executeOnce (clientID : Bytes) (requestID : UInt64) (cmd : Command)
  | checkpoint (clientID : Bytes) (requestID : UInt64) (state : Slice)

def Api.command : Api → Except String Command
  | .put clientID requestID key value =>
    .ok { op := opPut, clientID := clientID, requestID := requestID, key := key, value := value }
  | .cas clientID requestID key expect value =>
    .ok { op := opCAS, clientID := clientID, requestID := requestID, key := key, value := value,
          expect := expect }
  | .executeOnce clientID requestID cmd =>
    if cmd.op ≠ opPut ∧ cmd.op ≠ opCAS ∧ cmd.op ≠ opCheckpoint then
      .error ("kv: ExecuteOnce requires mutating op, got " ++ toString cmd.op)
    else .ok { cmd with clientID := clientID, requestID := requestID }
  | .checkpoint clientID requestID state =>
    .ok { op := opCheckpoint, clientID := clientID, requestID := requestID, value := state }

inductive CallError
  | notLeader
  | cancelled
deriving DecidableEq

inductive CallStatus
  /-- At the head of the loop. -/
  | proposing
  /-- In `raft.Propose`, its request with the batcher. -/
  | queued
  /-- Back from `raft.Propose` with an index; the term is not used by the source. -/
  | registering (index term : ℕ)
  /-- In the select, on a channel that may hold a result. -/
  | waiting (index term : ℕ) (ch : Option ApplyResult)
  | done (res : Except CallError ApplyResult)

/-- A call, the process it runs in, and the log entries that were made for it. -/
structure KvCall where
  server : ℕ
  epoch : ℕ
  cmd : Command
  status : CallStatus := .proposing
  proposed : List LogEntry := []

/-! ## Processes -/

inductive Applier
  | idle
  /-- With a message received and not yet given to the machine. -/
  | holding
  | notifying (index : ℕ) (res : ApplyResult)
  /-- In `maybeSnapshotAt`, before and after the caught-up gate. -/
  | deciding (index : ℕ)
  | compacting (index : ℕ)
deriving DecidableEq

structure KvServer where
  machine : Machine := newMachine
  /-- How many of the messages sent on `applyCh` the machine has been given. -/
  taken : ℕ := 0
  applier : Applier := .idle
  /-- The calls whose requests the propose batcher has. -/
  props : List ℕ := []
  waiters : Table ℕ ℕ := ∅
  recent : Table ℕ ApplyResult := ∅
  lastSnapIndex : ℕ := 0

/-- A record of one `machine.Apply`: the process, its commit index at that moment, the entry, the
machine before and after, and the result. -/
structure Outcome where
  server : ℕ
  epoch : ℕ
  commitIndex : ℕ
  entry : LogEntry
  before : Machine
  after : Machine
  result : ApplyResult

structure KvState where
  reads : ReadState
  kvs : ℕ → KvServer := fun _ => {}
  calls : List KvCall := []
  outcomes : List Outcome := []

structure KvConfig where
  raft : Config
  gob : Gob
  snapshotEntries : ℕ → ℕ := fun _ => 0

def KvConfig.init (cfg : KvConfig) : KvState where
  reads := { base := cfg.raft.init }

def KvConfig.snapEvery (cfg : KvConfig) (p : ℕ) : ℕ :=
  if cfg.snapshotEntries p = 0 then 10000 else cfg.snapshotEntries p

def applyChCap : ℕ := 256

def proposeBatchMax : ℕ := 64

inductive KvAction
  | reads (a : ReadAction)
  | call (p : ℕ) (api : Api)
  | enqueue (k : ℕ)
  | propose (p m : ℕ) (io : Io)
  | refuse (k : ℕ)
  | register (k : ℕ)
  | receive (k : ℕ)
  | cancel (k : ℕ)
  | timeout (k : ℕ)
  | take (p : ℕ)
  | apply (p : ℕ)
  | notify (p : ℕ)
  | gate (p : ℕ)
  | compact (p : ℕ) (io : Io)

namespace KvState

def raft (s : KvState) : State := s.reads.base

def advance (s : KvState) (t : ReadState) : KvState :=
  { s with
    reads := t
    kvs := fun p =>
      if (t.base.servers p).epoch = (s.raft.servers p).epoch then s.kvs p else {} }

def setKv (s : KvState) (p : ℕ) (kv : KvServer) : KvState :=
  { s with kvs := Function.update s.kvs p kv }

def setStatus (s : KvState) (k : ℕ) (st : CallStatus) : KvState :=
  { s with calls := s.calls.modify k fun x => { x with status := st } }

def live (s : KvState) (k : ℕ) : Option KvCall := do
  let x ← s.calls[k]?
  let _ ← s.raft.node x.server
  if (s.raft.servers x.server).epoch = x.epoch then return x else none

def data (s : KvState) (k : ℕ) : Bytes := (s.calls[k]?.map fun x => x.cmd.encode).getD []

end KvState

def KvCall.record (x : KvCall) (e : LogEntry) : KvCall := { x with proposed := x.proposed ++ [e] }

/-- `raft.Propose` returns to a call that still waits for it. -/
def KvCall.accepted (x : KvCall) (e : LogEntry) : KvCall :=
  match x.status with
  | .queued => { x with status := .registering e.index e.term }
  | _ => x

def KvCall.refused (x : KvCall) : KvCall :=
  match x.status with
  | .queued => { x with status := .done (.error .notLeader) }
  | _ => x

def updateCalls {β : Type} (f : KvCall → β → KvCall) (ps : List (ℕ × β)) (calls : List KvCall) :
    List KvCall :=
  ps.foldl (fun calls p => calls.modify p.1 (f · p.2)) calls

/-- The entries that `commitPropBatch` made for the requests `ks`, and its answers unless the
process died in it. -/
def answerProps (ks : List ℕ) (entries : Option (List LogEntry)) (io : Io)
    (calls : List KvCall) : List KvCall :=
  match entries with
  | some entries =>
    let calls := updateCalls KvCall.record (ks.zip entries) calls
    if io.crash = none then updateCalls KvCall.accepted (ks.zip entries) calls else calls
  | none =>
    if io.crash = none then updateCalls (fun x _ => x.refused) (ks.map (·, ())) calls else calls

/-- The result goes into the channel that the call made for its attempt at `index`. -/
def KvCall.deliver (x : KvCall) (index : ℕ) (res : ApplyResult) : KvCall :=
  match x.status with
  | .waiting i term none =>
    if i = index then { x with status := .waiting i term (some res) } else x
  | _ => x

/-- What `handleApply` does after `machine.Apply`, up to the question of compaction. -/
def KvServer.settle (kv : KvServer) (index : ℕ) (res : ApplyResult) : KvServer :=
  match kv.waiters.get index with
  | some _ => { kv with waiters := kv.waiters.delete index }
  | none => { kv with recent := (kv.recent.set index res).prune fun i => i + 256 < index }

def KvServer.received (kv : KvServer) : ℕ :=
  if kv.applier = .holding then kv.taken + 1 else kv.taken

/-- Steps of the nodes that only `Cluster` makes, or for which `applyCh` has no room. -/
def KvState.blocks (s : KvState) : ReadAction → Bool
  | .cluster (.propose _ _ _) | .cluster (.snapshot _ _ _ _) => true
  | .cluster (.applierSend p) =>
    applyChCap ≤ (s.raft.servers p).sent.length - (s.kvs p).received
  | _ => false

def kvStep (cfg : KvConfig) (s : KvState) : KvAction → Option KvState
  | .reads a => if s.blocks a then none else (readStep cfg.raft s.reads a).map s.advance
  | .call p api => do
    let _ ← s.raft.node p
    match api.command with
    | .ok cmd =>
      return { s with calls := s.calls ++ [⟨p, (s.raft.servers p).epoch, cmd, .proposing, []⟩] }
    | .error _ => none
  | .enqueue k => do
    let x ← s.live k
    match x.status with
    | .proposing =>
      let kv := s.kvs x.server
      return (s.setKv x.server { kv with props := kv.props ++ [k] }).setStatus k .queued
    | _ => none
  | .propose p m io => do
    let n ← s.raft.node p
    let kv := s.kvs p
    if kv.props = [] ∨ proposeBatchMax ≤ m then none
    else
      let ks := kv.props.take (m + 1)
      let batch := ks.map s.data
      let t ← readStep cfg.raft s.reads (.cluster (.propose p batch io))
      return { (s.advance t).setKv p { kv with props := kv.props.drop (m + 1) } with
        calls := answerProps ks (n.commitPropBatch io.fail batch).2 io s.calls }
  | .refuse k => do
    -- `raft.Propose` on a node that was stopped
    let x ← s.live k
    let n ← s.raft.node x.server
    if n.stopped then
      match x.status with
      | .proposing | .queued => return s.setStatus k (.done (.error .notLeader))
      | _ => none
    else none
  | .register k => do
    let x ← s.live k
    let kv := s.kvs x.server
    match x.status with
    | .registering index term =>
      match kv.recent.get index with
      | some res =>
        return (s.setKv x.server { kv with recent := kv.recent.delete index }).setStatus k
          (.done (.ok res))
      | none =>
        return (s.setKv x.server { kv with waiters := kv.waiters.set index k }).setStatus k
          (.waiting index term none)
    | _ => none
  | .receive k => do
    let x ← s.live k
    match x.status with
    | .waiting _ _ (some res) => return s.setStatus k (.done (.ok res))
    | _ => none
  | .cancel k => do
    let x ← s.live k
    let kv := s.kvs x.server
    match x.status with
    | .proposing => return s.setStatus k (.done (.error .cancelled))
    | .waiting index _ _ =>
      return (s.setKv x.server { kv with waiters := kv.waiters.delete index }).setStatus k
        (.done (.error .cancelled))
    | _ => none
  | .timeout k => do
    let x ← s.live k
    let kv := s.kvs x.server
    match x.status with
    | .waiting index _ _ =>
      let kv := { kv with waiters := kv.waiters.delete index }
      match kv.recent.get index with
      | some res =>
        return (s.setKv x.server { kv with recent := kv.recent.delete index }).setStatus k
          (.done (.ok res))
      | none => return (s.setKv x.server kv).setStatus k .proposing
    | _ => none
  | .take p => do
    let _ ← s.raft.node p
    let kv := s.kvs p
    if kv.applier = .idle ∧ kv.taken < (s.raft.servers p).sent.length then
      return s.setKv p { kv with applier := .holding }
    else none
  | .apply p => do
    let n ← s.raft.node p
    let kv := s.kvs p
    if kv.applier ≠ .holding then none
    else
      match ← (s.raft.servers p).sent[kv.taken]? with
      | .snapshot snap =>
        match kv.machine.restore cfg.gob snap.data with
        | some m =>
          return s.setKv p { kv with
            machine := m, taken := kv.taken + 1, applier := .idle, lastSnapIndex := snap.index }
        | none => (readStep cfg.raft s.reads (.cluster (.crash p))).map s.advance
      | .command e =>
        match Command.decode e.data with
        | .ok cmd =>
          let (m, res) := kv.machine.apply cmd
          return { s.setKv p
              { kv with
                machine := m, taken := kv.taken + 1, applier := .notifying e.index res } with
            outcomes := s.outcomes ++
              [⟨p, (s.raft.servers p).epoch, n.commitIndex, e, kv.machine, m, res⟩] }
        | .error _ => (readStep cfg.raft s.reads (.cluster (.crash p))).map s.advance
  | .notify p => do
    let _ ← s.raft.node p
    let kv := s.kvs p
    match kv.applier with
    | .notifying index res =>
      let s := match kv.waiters.get index with
        | some k => { s with calls := s.calls.modify k (·.deliver index res) }
        | none => s
      return s.setKv p { kv.settle index res with
        applier := if kv.lastSnapIndex + cfg.snapEvery p ≤ index then .deciding index else .idle }
    | _ => none
  | .gate p => do
    let n ← s.raft.node p
    let kv := s.kvs p
    match kv.applier with
    | .deciding index =>
      return s.setKv p { kv with
        applier := if index + cfg.snapEvery p < n.commitIndex then .idle else .compacting index }
    | _ => none
  | .compact p io => do
    let n ← s.raft.node p
    let kv := s.kvs p
    match kv.applier with
    | .compacting index =>
      match kv.machine.snapshot cfg.gob with
      | none => return s.setKv p { kv with applier := .idle }
      | some raw =>
        let t ← readStep cfg.raft s.reads (.cluster (.snapshot p index raw io))
        return (s.advance t).setKv p { kv with
          applier := .idle
          lastSnapIndex := if (n.snapshot io.fail index raw).2 then index else kv.lastSnapIndex }
    | _ => none

/-! ## What a step can do -/

inductive KvMove (cfg : KvConfig) (s : KvState) : KvAction → KvState → Prop
  | reads {a : ReadAction} {t : ReadState} : s.blocks a = false →
      readStep cfg.raft s.reads a = some t → KvMove cfg s (.reads a) (s.advance t)
  | call {p : ℕ} {api : Api} {n : Node} {cmd : Command} : s.raft.node p = some n →
      api.command = .ok cmd →
      KvMove cfg s (.call p api)
        { s with calls := s.calls ++ [⟨p, (s.raft.servers p).epoch, cmd, .proposing, []⟩] }
  | enqueue {k : ℕ} {x : KvCall} : s.live k = some x → x.status = .proposing →
      KvMove cfg s (.enqueue k)
        ((s.setKv x.server
          { s.kvs x.server with props := (s.kvs x.server).props ++ [k] }).setStatus k .queued)
  | propose {p m : ℕ} {io : Io} {n : Node} {t : ReadState} : s.raft.node p = some n →
      readStep cfg.raft s.reads
        (.cluster (.propose p (((s.kvs p).props.take (m + 1)).map s.data) io)) = some t →
      KvMove cfg s (.propose p m io)
        { (s.advance t).setKv p { s.kvs p with props := (s.kvs p).props.drop (m + 1) } with
          calls := answerProps ((s.kvs p).props.take (m + 1)) (n.commitPropBatch io.fail
            (((s.kvs p).props.take (m + 1)).map s.data)).2 io s.calls }
  /-- The call leaves the loop with an error or goes back to its head. -/
  | leave {a : KvAction} {k : ℕ} {x : KvCall} {st : CallStatus} {waiters : Table ℕ ℕ} :
      s.live k = some x → st = .proposing ∨ (∃ err, st = .done (.error err)) →
      (∀ i j, waiters.get i = some j → (s.kvs x.server).waiters.get i = some j) →
      KvMove cfg s a
        ((s.setKv x.server { s.kvs x.server with waiters := waiters }).setStatus k st)
  | wait {k index term : ℕ} {x : KvCall} : s.live k = some x →
      x.status = .registering index term →
      KvMove cfg s (.register k)
        ((s.setKv x.server { s.kvs x.server with
          waiters := (s.kvs x.server).waiters.set index k }).setStatus k (.waiting index term none))
  /-- The call finds its result in the table. -/
  | find {a : KvAction} {k index term : ℕ} {x : KvCall} {res : ApplyResult}
      {waiters : Table ℕ ℕ} : s.live k = some x →
      a = .register k ∧ x.status = .registering index term ∨
        a = .timeout k ∧ (∃ ch, x.status = .waiting index term ch) →
      (∀ i j, waiters.get i = some j → (s.kvs x.server).waiters.get i = some j) →
      (s.kvs x.server).recent.get index = some res →
      KvMove cfg s a
        ((s.setKv x.server { s.kvs x.server with
          waiters := waiters
          recent := (s.kvs x.server).recent.delete index }).setStatus k (.done (.ok res)))
  | receive {k index term : ℕ} {x : KvCall} {res : ApplyResult} : s.live k = some x →
      x.status = .waiting index term (some res) →
      KvMove cfg s (.receive k) (s.setStatus k (.done (.ok res)))
  | restore {p : ℕ} {n : Node} {snap : Snapshot} {m : Machine} : s.raft.node p = some n →
      (s.kvs p).applier = .holding →
      (s.raft.servers p).sent[(s.kvs p).taken]? = some (.snapshot snap) →
      (s.kvs p).machine.restore cfg.gob snap.data = some m →
      KvMove cfg s (.apply p) (s.setKv p { s.kvs p with
        machine := m
        taken := (s.kvs p).taken + 1
        applier := .idle
        lastSnapIndex := snap.index })
  | apply {p : ℕ} {n : Node} {e : LogEntry} {cmd : Command} : s.raft.node p = some n →
      (s.kvs p).applier = .holding →
      (s.raft.servers p).sent[(s.kvs p).taken]? = some (.command e) →
      Command.decode e.data = .ok cmd →
      KvMove cfg s (.apply p) { s.setKv p { s.kvs p with
          machine := ((s.kvs p).machine.apply cmd).1
          taken := (s.kvs p).taken + 1
          applier := .notifying e.index ((s.kvs p).machine.apply cmd).2 } with
        outcomes := s.outcomes ++ [⟨p, (s.raft.servers p).epoch, n.commitIndex, e,
          (s.kvs p).machine, ((s.kvs p).machine.apply cmd).1, ((s.kvs p).machine.apply cmd).2⟩] }
  /-- The image or the command cannot be read. -/
  | panics {p : ℕ} {t : ReadState} :
      readStep cfg.raft s.reads (.cluster (.crash p)) = some t →
      KvMove cfg s (.apply p) (s.advance t)
  | notify {p index : ℕ} {n : Node} {res : ApplyResult} {calls : List KvCall} {app : Applier} :
      s.raft.node p = some n → (s.kvs p).applier = .notifying index res →
      ((s.kvs p).waiters.get index = none ∧ calls = s.calls) ∨
        (∃ k, (s.kvs p).waiters.get index = some k ∧
          calls = s.calls.modify k (·.deliver index res)) →
      app = .idle ∨ app = .deciding index →
      KvMove cfg s (.notify p)
        (KvState.setKv { s with calls := calls } p
          { (s.kvs p).settle index res with applier := app })
  /-- The applier receives a message, skips the compaction or goes on to it. -/
  | go {a : KvAction} {p : ℕ} {app : Applier} :
      app = .idle ∨ app = .holding ∨
        (∃ index, (s.kvs p).applier = .deciding index ∧ app = .compacting index) →
      KvMove cfg s a (s.setKv p { s.kvs p with applier := app })
  | compact {p index last : ℕ} {io : Io} {n : Node} {raw : Bytes} {t : ReadState} :
      s.raft.node p = some n → (s.kvs p).applier = .compacting index →
      (s.kvs p).machine.snapshot cfg.gob = some raw →
      readStep cfg.raft s.reads (.cluster (.snapshot p index raw io)) = some t →
      KvMove cfg s (.compact p io)
        ((s.advance t).setKv p { s.kvs p with applier := .idle, lastSnapIndex := last })

theorem KvState.setKv_self (s : KvState) (p : ℕ) : s.setKv p (s.kvs p) = s := by
  simp [setKv]

section Moves

variable {cfg : KvConfig} {s t : KvState} {p : ℕ}

theorem KvMove.leaves {a : KvAction} {k : ℕ} {x : KvCall} {st : CallStatus}
    (hx : s.live k = some x) (hst : st = .proposing ∨ ∃ err, st = .done (.error err)) :
    KvMove cfg s a (s.setStatus k st) := by
  have hmove : KvMove cfg s a ((s.setKv x.server (s.kvs x.server)).setStatus k st) :=
    .leave hx hst fun _ _ => id
  rwa [s.setKv_self] at hmove

theorem kvStep_apply (h : kvStep cfg s (.apply p) = some t) : KvMove cfg s (.apply p) t := by
  simp only [kvStep, Option.bind_eq_bind, Option.bind_eq_some_iff] at h
  obtain ⟨n, hn, h⟩ := h
  split at h
  · cases h
  rename_i hhold
  simp only [ne_eq, not_not] at hhold
  obtain ⟨m, hm, h⟩ := Option.bind_eq_some_iff.mp h
  split at h
  · split at h
    · rename_i hres
      obtain rfl := Option.some.inj h
      exact .restore hn hhold hm hres
    · obtain ⟨u, hu, rfl⟩ := Option.map_eq_some_iff.mp h
      exact .panics hu
  · split at h
    · rename_i hdec
      obtain rfl := Option.some.inj h
      exact .apply hn hhold hm hdec
    · obtain ⟨u, hu, rfl⟩ := Option.map_eq_some_iff.mp h
      exact .panics hu

theorem kvStep_notify (h : kvStep cfg s (.notify p) = some t) : KvMove cfg s (.notify p) t := by
  simp only [kvStep, Option.bind_eq_bind, Option.bind_eq_some_iff] at h
  obtain ⟨n, hn, h⟩ := h
  split at h
  · rename_i index res happ
    obtain rfl := Option.some.inj h
    have happ' : ∀ c : Prop, [Decidable c] → (if c then Applier.deciding index else .idle) =
        .idle ∨ (if c then Applier.deciding index else .idle) = .deciding index := by
      intro c _
      split
      · exact .inr rfl
      · exact .inl rfl
    cases hw : (s.kvs p).waiters.get index with
    | none => exact .notify hn happ (.inl ⟨hw, rfl⟩) (happ' _)
    | some k => exact .notify hn happ (.inr ⟨k, hw, rfl⟩) (happ' _)
  · cases h

theorem kvStep_compact {io : Io} (h : kvStep cfg s (.compact p io) = some t) :
    KvMove cfg s (.compact p io) t := by
  simp only [kvStep, Option.bind_eq_bind, Option.bind_eq_some_iff] at h
  obtain ⟨n, hn, h⟩ := h
  split at h
  · rename_i index happ
    split at h
    · obtain rfl := Option.some.inj h
      exact .go (.inl rfl)
    · rename_i raw hraw
      obtain ⟨u, hu, h⟩ := Option.bind_eq_some_iff.mp h
      obtain rfl := Option.some.inj h
      exact .compact hn happ hraw hu
  · cases h

theorem kvStep_cases {a : KvAction} (h : kvStep cfg s a = some t) : KvMove cfg s a t := by
  cases a with
  | reads a =>
    simp only [kvStep] at h
    split at h
    · cases h
    rename_i hb
    obtain ⟨u, hu, rfl⟩ := Option.map_eq_some_iff.mp h
    exact .reads (by simpa using hb) hu
  | call p api =>
    simp only [kvStep, Option.bind_eq_bind, Option.bind_eq_some_iff] at h
    obtain ⟨n, hn, h⟩ := h
    split at h
    · rename_i cmd hc
      obtain rfl := Option.some.inj h
      exact .call hn hc
    · cases h
  | enqueue k =>
    simp only [kvStep, Option.bind_eq_bind, Option.bind_eq_some_iff] at h
    obtain ⟨x, hx, h⟩ := h
    split at h
    · rename_i hst
      obtain rfl := Option.some.inj h
      exact .enqueue hx hst
    · cases h
  | propose p m io =>
    simp only [kvStep, Option.bind_eq_bind, Option.bind_eq_some_iff] at h
    obtain ⟨n, hn, h⟩ := h
    split at h
    · cases h
    obtain ⟨u, hu, h⟩ := Option.bind_eq_some_iff.mp h
    obtain rfl := Option.some.inj h
    exact .propose hn hu
  | refuse k =>
    simp only [kvStep, Option.bind_eq_bind, Option.bind_eq_some_iff] at h
    obtain ⟨x, hx, n, hn, h⟩ := h
    split at h
    · split at h
      · obtain rfl := Option.some.inj h
        exact .leaves hx (.inr ⟨_, rfl⟩)
      · obtain rfl := Option.some.inj h
        exact .leaves hx (.inr ⟨_, rfl⟩)
      · cases h
    · cases h
  | register k =>
    simp only [kvStep, Option.bind_eq_bind, Option.bind_eq_some_iff] at h
    obtain ⟨x, hx, h⟩ := h
    split at h
    · rename_i index term hst
      split at h
      · rename_i res hres
        obtain rfl := Option.some.inj h
        exact .find hx (.inl ⟨rfl, hst⟩) (fun _ _ => id) hres
      · obtain rfl := Option.some.inj h
        exact .wait hx hst
    · cases h
  | receive k =>
    simp only [kvStep, Option.bind_eq_bind, Option.bind_eq_some_iff] at h
    obtain ⟨x, hx, h⟩ := h
    split at h
    · rename_i hst
      obtain rfl := Option.some.inj h
      exact .receive hx hst
    · cases h
  | cancel k =>
    simp only [kvStep, Option.bind_eq_bind, Option.bind_eq_some_iff] at h
    obtain ⟨x, hx, h⟩ := h
    split at h
    · obtain rfl := Option.some.inj h
      exact .leaves hx (.inr ⟨_, rfl⟩)
    · obtain rfl := Option.some.inj h
      exact .leave hx (.inr ⟨_, rfl⟩) fun _ _ => Table.get_of_delete
    · cases h
  | timeout k =>
    simp only [kvStep, Option.bind_eq_bind, Option.bind_eq_some_iff] at h
    obtain ⟨x, hx, h⟩ := h
    split at h
    · rename_i index term ch hst
      split at h
      · rename_i res hres
        obtain rfl := Option.some.inj h
        exact .find hx (.inr ⟨rfl, ch, hst⟩) (fun _ _ => Table.get_of_delete) hres
      · obtain rfl := Option.some.inj h
        exact .leave hx (.inl rfl) fun _ _ => Table.get_of_delete
    · cases h
  | take p =>
    simp only [kvStep, Option.bind_eq_bind, Option.bind_eq_some_iff] at h
    obtain ⟨n, hn, h⟩ := h
    split at h
    · obtain rfl := Option.some.inj h
      exact .go (.inr (.inl rfl))
    · cases h
  | apply p => exact kvStep_apply h
  | notify p => exact kvStep_notify h
  | gate p =>
    simp only [kvStep, Option.bind_eq_bind, Option.bind_eq_some_iff] at h
    obtain ⟨n, hn, h⟩ := h
    split at h
    · rename_i index happ
      obtain rfl := Option.some.inj h
      refine .go ?_
      split
      · exact .inl rfl
      · exact .inr (.inr ⟨index, happ, rfl⟩)
    · cases h
  | compact p io => exact kvStep_compact h

end Moves

/-! ## Small clusters -/

def noImages : Gob where
  encode _ := none
  decode _ := none
  roundTrip _ _ h := by cases h

def KvConfig.pair : KvConfig := ⟨.pair, noImages, fun _ => 0⟩

def KvConfig.trio : KvConfig := ⟨.trio, noImages, fun _ => 0⟩

def onNodes (acts : List Action) : List KvAction := acts.map fun x => .reads (.cluster x)

/-- Node 1 of a pair is elected, and a call of `Put` on it gets its entry committed. -/
def firstPut : List KvAction :=
  onNodes electFirst ++ [.call 1 (.put [1] 5 [7] (some [1])), .enqueue 0, .propose 1 0 {}] ++
    onNodes [.replicate 1 2, .deliver 2 false {}, .respond 2 0 {}]

end KMC
