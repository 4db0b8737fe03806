import KillMyCluster.Lib.Trace
import KillMyCluster.Raft.Recover

/-! The cluster: servers with a disk and perhaps a running process, and the RPCs between them.
Every critical section of a node is one step. An RPC may be delivered late, more than once or
never; each caller handles at most one response, and only while its process lives. -/

namespace KMC

structure Config where
  ids : List ℕ
  nodup : ids.Nodup
  pos : 0 ∉ ids
  retain : ℕ → ℤ := fun _ => 0

def Config.peers (cfg : Config) (p : ℕ) : List ℕ := cfg.ids.filter (· ≠ p)

theorem Config.mem_peers {cfg : Config} {p q : ℕ} : q ∈ cfg.peers p ↔ q ∈ cfg.ids ∧ q ≠ p := by
  simp [Config.peers]

theorem Config.length_peers {cfg : Config} {p : ℕ} (h : p ∈ cfg.ids) :
    (cfg.peers p).length + 1 = cfg.ids.length := by
  have he : (cfg.ids.filter (· != p)) = cfg.peers p :=
    List.filter_congr fun x _ => by by_cases hx : x = p <;> simp [hx]
  have hlen := List.length_erase_of_mem h
  rw [cfg.nodup.erase_eq_filter, he] at hlen
  have hpos := List.length_pos_of_mem h
  omega

theorem Config.ne_noVote {cfg : Config} {p : ℕ} (h : p ∈ cfg.ids) : p ≠ noVote := by
  rintro rfl
  exact cfg.pos h

/-- What the disk does during a step: which calls fail and how many durable writes they still
made, and whether the process dies after `k` calls, the next one having made `r` writes. -/
structure Io where
  fault : Call → Option ℕ := fun _ => none
  crash : Option (ℕ × ℕ) := none

def Io.fail (io : Io) (c : Call) : Bool := (io.fault c).isSome

def Io.apply (io : Io) (d : Disk) (c : Call) : Disk :=
  match io.fault c with
  | some k => d.write k c
  | none => d.run c

structure Server where
  proc : Option Node := none
  disk : Disk := {}
  epoch : ℕ := 0
  /-- Messages the applier has picked up and not yet sent. -/
  batch : List ApplyMsg := []
  /-- Messages handed to `applyCh` since the process started. -/
  sent : List ApplyMsg := []

structure Rpc where
  src : ℕ
  dst : ℕ
  epoch : ℕ
  body : Body
  resps : List Response := []
  handled : Bool := false

structure State where
  servers : ℕ → Server
  rpcs : List Rpc

def Config.init (_ : Config) : State where
  servers := fun _ => {}
  rpcs := []

inductive Action
  | tick (p : ℕ) (io : Io)
  | stepDown (p : ℕ)
  | deliver (k : ℕ) (recent : Bool) (io : Io)
  | respond (k j : ℕ) (io : Io)
  | propose (p : ℕ) (batch : List Bytes) (io : Io)
  | replicate (p q : ℕ)
  | heartbeat (p q : ℕ)
  | lease (p : ℕ)
  | applierTake (p : ℕ)
  | applierSend (p : ℕ)
  | snapshot (p index : ℕ) (data : Bytes) (io : Io)
  | crash (p : ℕ)
  | restart (p : ℕ)
  | stop (p : ℕ)

/-! ## Pieces of a step -/

def Server.die (srv : Server) (d : Disk) : Server := { srv with proc := none, disk := d }

def rpcsOf (p epoch : ℕ) (sends : List (ℕ × Body)) : List Rpc :=
  sends.map fun (q, body) => { src := p, dst := q, epoch := epoch, body := body }

namespace State

def setServer (s : State) (p : ℕ) (srv : Server) : State :=
  { s with servers := Function.update s.servers p srv }

def node (s : State) (p : ℕ) : Option Node := (s.servers p).proc

def finish (s : State) (p : ℕ) (io : Io) (e : Effect) : State :=
  let srv := s.servers p
  match io.crash with
  | none =>
    { servers := Function.update s.servers p
        { srv with proc := some e.node, disk := e.calls.foldl io.apply srv.disk }
      rpcs := s.rpcs ++ rpcsOf p srv.epoch e.sends }
  | some (k, r) =>
    let d := (e.calls.take k).foldl io.apply srv.disk
    s.setServer p (srv.die (((e.calls.drop k).head?).elim d (d.write r)))

/-- The response of a delivered RPC leaves only if the process survives the handler. -/
def answer (s : State) (k : ℕ) (io : Io) (resp : Response) : State :=
  match io.crash with
  | none => { s with rpcs := s.rpcs.modify k fun r => { r with resps := r.resps ++ [resp] } }
  | some _ => s

def markHandled (s : State) (k : ℕ) : State :=
  { s with rpcs := s.rpcs.modify k fun r => { r with handled := true } }

end State

def handle (io : Io) (recent : Bool) (n : Node) : Body → Effect × Response
  | .preVote _ _ req =>
    let (e, resp) := n.handleRequestVote io.fail recent req; (e, .vote resp)
  | .vote req => let (e, resp) := n.handleRequestVote io.fail recent req; (e, .vote resp)
  | .replicate req => let (e, resp) := n.handleAppendEntries io.fail req; (e, .append resp)
  | .heartbeat req => let (e, resp) := n.handleAppendEntries io.fail req; (e, .append resp)
  | .snapshot req => let (e, resp) := n.handleInstallSnapshot io.fail req; (e, .install resp)

def receive (io : Io) (n : Node) (peer : ℕ) : Body → Response → Option Effect
  | .preVote term round _, .vote resp => some (n.onPreVoteResponse io.fail term round resp)
  | .vote req, .vote resp => some (n.onVoteResponse req.term resp)
  | .replicate req, .append resp => some (n.onAppendResponse peer req resp)
  | .heartbeat _, .append resp => some (n.onHeartbeatResponse resp)
  | .snapshot req, .install resp => some (n.onSnapshotResponse peer req resp)
  | _, _ => none

/-- The election timer fires on a node that does not lead. -/
def Node.timeout (io : Io) (n : Node) : Option Effect :=
  if n.stopped ∨ n.role = .leader then none else some (n.startPreVoteLocked io.fail)

/-- CheckQuorum or the commit-stall watchdog. -/
def Node.resign (n : Node) : Option Effect :=
  if n.stopped ∨ n.role ≠ .leader then none else some { node := n.stepDownLocked }

/-! ## Steps -/

def State.local (s : State) (p : ℕ) (io : Io) (f : Node → Option Effect) : Option State := do
  let n ← s.node p
  let e ← f n
  return s.finish p io e

def step (cfg : Config) (s : State) : Action → Option State
  | .tick p io => s.local p io (Node.timeout io)
  | .stepDown p => s.local p {} Node.resign
  | .deliver k recent io => do
    let r ← s.rpcs[k]?
    let n ← s.node r.dst
    let (e, resp) := handle io recent n r.body
    return (s.finish r.dst io e).answer k io resp
  | .respond k j io => do
    let r ← s.rpcs[k]?
    let resp ← r.resps[j]?
    if r.handled ∨ (s.servers r.src).epoch ≠ r.epoch then none
    else (s.markHandled k).local r.src io fun n => receive io n r.dst r.body resp
  | .propose p batch io => s.local p io fun n => some (n.commitPropBatch io.fail batch).1
  | .replicate p q =>
    if q ∈ cfg.peers p then s.local p {} fun n => n.replicateOnce (s.servers p).disk.snap q
    else none
  | .heartbeat p q =>
    if q ∈ cfg.peers p then s.local p {} fun n => n.heartbeatAck q else none
  | .lease p => s.local p {} fun n => some { node := n.renewLease }
  | .applierTake p => do
    let n ← s.node p
    let (n, batch) ← n.applierTake
    if (s.servers p).batch = [] then
      return s.setServer p { s.servers p with proc := some n, batch := batch }
    else none
  | .applierSend p => do
    let n ← s.node p
    match (s.servers p).batch with
    | [] => none
    | m :: rest =>
      return s.setServer p
        { s.servers p with proc := some n, batch := rest, sent := (s.servers p).sent ++ [m] }
  | .snapshot p index data io => s.local p io fun n => some (n.snapshot io.fail index data).1
  | .crash p => do
    let _ ← s.node p
    return s.setServer p ((s.servers p).die (s.servers p).disk)
  | .restart p =>
    if p ∈ cfg.ids ∧ (s.node p).isNone then
      let srv := s.servers p
      let n := newNode p (cfg.peers p) (cfg.retain p) (openPersister srv.disk)
      some (s.setServer p
        { proc := some n, disk := srv.disk, epoch := srv.epoch + 1, batch := [], sent := [] })
    else none
  | .stop p => do
    let n ← s.node p
    return s.setServer p { s.servers p with proc := some { n with stopped := true } }

theorem State.local_some {s t : State} {p : ℕ} {io : Io} {f : Node → Option Effect}
    (h : s.local p io f = some t) :
    ∃ n e, s.node p = some n ∧ f n = some e ∧ t = s.finish p io e := by
  simp only [State.local, Option.bind_eq_bind, Option.bind_eq_some_iff, Option.pure_def,
    Option.some.injEq] at h
  obtain ⟨n, hn, e, he, rfl⟩ := h
  exact ⟨n, e, hn, he, rfl⟩

theorem Node.timeout_some {n : Node} {io : Io} {e : Effect} (h : n.timeout io = some e) :
    (n.stopped = false ∧ n.role ≠ .leader) ∧ e = n.startPreVoteLocked io.fail := by
  unfold Node.timeout at h
  split at h
  · cases h
  · rename_i hno
    simp only [not_or, Bool.not_eq_true] at hno
    exact ⟨hno, (Option.some.inj h).symm⟩

theorem Node.resign_some {n : Node} {e : Effect} (h : n.resign = some e) :
    (n.stopped = false ∧ n.role = .leader) ∧ e = { node := n.stepDownLocked } := by
  unfold Node.resign at h
  split at h
  · cases h
  · rename_i hno
    simp only [not_or, Bool.not_eq_true, ne_eq, not_not] at hno
    exact ⟨hno, (Option.some.inj h).symm⟩

theorem getElem_append_rpcs {rpcs : List Rpc} {p epoch : ℕ} {sends : List (ℕ × Body)} {k : ℕ}
    {r : Rpc} (h : (rpcs ++ rpcsOf p epoch sends)[k]? = some r) :
    rpcs[k]? = some r ∨ rpcs.length ≤ k ∧ ∃ q body, sends[k - rpcs.length]? = some (q, body) ∧
      r = { src := p, dst := q, epoch := epoch, body := body } := by
  by_cases hk : k < rpcs.length
  · rw [List.getElem?_append_left hk] at h
    exact Or.inl h
  · rw [List.getElem?_append_right (by omega), rpcsOf, List.getElem?_map,
      Option.map_eq_some_iff] at h
    obtain ⟨⟨q, body⟩, h1, h2⟩ := h
    exact Or.inr ⟨by omega, q, body, h1, h2.symm⟩

theorem getElem_modify_rpcs {rpcs : List Rpc} {k j : ℕ} {f : Rpc → Rpc} {r' : Rpc}
    (h : (rpcs.modify k f)[j]? = some r') :
    ∃ r, rpcs[j]? = some r ∧ r' = if k = j then f r else r := by
  rw [List.getElem?_modify] at h
  obtain ⟨r, hr, hf⟩ := Option.map_eq_some_iff.mp h
  exact ⟨r, hr, hf.symm⟩

/-! ## Conditions on steps -/

def Action.io : Action → Io
  | .tick _ io | .deliver _ _ io | .respond _ _ io | .propose _ _ io | .snapshot _ _ _ io => io
  | _ => {}

/-- Every persister call succeeds or the process dies in it. -/
def Action.Reliable (a : Action) : Prop := a.io.fault = fun _ => none

def replayMsgs (stands : Bytes → List Bytes) (msgs : List ApplyMsg) : ℕ × List Bytes :=
  msgs.foldl (fun acc m => match m with
    | .command e => (e.index, acc.2 ++ [e.data])
    | .snapshot snap => (snap.index, stands snap.data)) (0, [])

/-- `Snapshot(index, data)` is called with an image of what was delivered up to `index`, as
`maybeSnapshotAt` calls it; `stands` reads an image as the list of commands it stands for. -/
def Action.Honest (stands : Bytes → List Bytes) (s : State) : Action → Prop
  | .snapshot p index data _ =>
    ∃ k, replayMsgs stands ((s.servers p).sent.take k) = (index, stands data)
  | _ => True

/-- The steps of the safety results: no persister errors, honest snapshots. -/
def Sound (stands : Bytes → List Bytes) (s : State) (a : Action) : Prop :=
  a.Reliable ∧ a.Honest stands s

/-! ## Small clusters -/

def Config.pair : Config := ⟨[1, 2], by decide, by decide, fun _ => 0⟩

/-- Three nodes that keep no entries behind a snapshot. -/
def Config.trio : Config := ⟨[1, 2, 3], by decide, by decide, fun _ => -1⟩

/-- Both nodes of a pair start and node 1 is elected in term 1. -/
def electFirst : List Action :=
  [.restart 1, .restart 2, .tick 1 {}, .deliver 0 false {}, .respond 0 0 {}, .deliver 1 false {},
    .respond 1 0 {}]

/-- Node 1 of a pair is elected and commits one command with node 2. -/
def firstCommit : List Action :=
  electFirst ++ [.propose 1 [[7]] {}, .replicate 1 2, .deliver 2 false {}, .respond 2 0 {}]

/-- Node 1 of a trio is elected by node 2, commits one command with it and applies it. -/
def trioCommit : List Action :=
  [.restart 1, .restart 2, .restart 3, .tick 1 {}, .deliver 0 false {}, .respond 0 0 {},
    .deliver 2 false {}, .respond 2 0 {}, .propose 1 [[7]] {}, .replicate 1 2,
    .deliver 4 false {}, .respond 4 0 {}, .applierTake 1, .applierSend 1]

end KMC
