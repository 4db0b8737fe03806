import KillMyCluster.Raft.Loops
import KillMyCluster.Raft.Steps

/-! The goroutines of a process and the end of `Stop`. `Stop` waits for the goroutines of the node's
WaitGroup and then closes the persister. The goroutines that ask for votes or confirm reads are not
in the WaitGroup, and neither are RPC handlers and the callers of `Snapshot`: what keeps them from
the closed persister is that they look at `stopped` first, if they do. -/

namespace KMC

open Trace

inductive Thread
  | electionTimer
  | applier
  | proposeBatcher
  | readIndexBatcher
  | replicator (peer term : ℕ)
  deriving DecidableEq

structure Lifetime where
  threads : List Thread := []
  /-- `persist.close` has set the WAL to nil. -/
  closed : Bool := false

structure LifeState where
  base : State
  lives : ℕ → Lifetime := fun _ => {}

inductive LifeAction
  | act (a : Action)
  | exit (p : ℕ) (th : Thread)
  | close (p : ℕ)

/-! ## Goroutines -/

/-- The goroutine returns from its loop. The applier does so only between two batches, and the RPC
that a replicator waits for may fail at any time. -/
def Thread.done (n : Node) (batch : List ApplyMsg) : Thread → Bool
  | .electionTimer | .proposeBatcher | .readIndexBatcher => n.stopped
  | .applier => n.stopped && batch.isEmpty
  | .replicator _ term => n.stopped || n.role != .leader || n.currentTerm != term

def firstThreads : List Thread := [.electionTimer, .applier, .proposeBatcher, .readIndexBatcher]

def Lifetime.next (life : Lifetime) : Option Node → Option Node → Lifetime
  | _, none => {}
  | none, some _ => { threads := firstThreads }
  | some n, some m =>
    if n.role ≠ .leader ∧ m.role = .leader then
      { life with threads := life.threads ++ m.peers.map (.replicator · m.currentTerm) }
    else life

namespace LifeState

def setLife (s : LifeState) (p : ℕ) (life : Lifetime) : LifeState :=
  { s with lives := Function.update s.lives p life }

def advance (s : LifeState) (t : State) : LifeState where
  base := t
  lives := fun p => (s.lives p).next (s.base.node p) (t.node p)

/-- The goroutine that the action belongs to is there. Handlers, votes, read confirmations and
`Snapshot` run in goroutines of their own. -/
def ready (s : LifeState) : Action → Bool
  | .tick p _ | .stepDown p => .electionTimer ∈ (s.lives p).threads
  | .propose p _ _ => .proposeBatcher ∈ (s.lives p).threads
  | .lease p => .readIndexBatcher ∈ (s.lives p).threads
  | .applierTake p | .applierSend p => .applier ∈ (s.lives p).threads
  | .replicate p q => (s.base.node p).any fun n => .replicator q n.currentTerm ∈ (s.lives p).threads
  | .respond k _ _ => (s.base.rpcs[k]?).any fun r => match r.body with
    | .replicate req => .replicator r.dst req.term ∈ (s.lives r.src).threads
    | .snapshot req => .replicator r.dst req.term ∈ (s.lives r.src).threads
    | .preVote .. | .vote _ | .heartbeat _ => true
  | .deliver .. | .heartbeat .. | .snapshot .. | .crash _ | .restart _ | .stop _ => true

end LifeState

/-! ## Calls -/

/-- How far a call gets with a nil WAL: `saveSnapshot` has replaced the snapshot file before it
comes to the WAL. -/
def Call.reach : Call → ℕ
  | .saveSnapshot .. => 1
  | _ => 0

def State.nilDeref (s : State) (p : ℕ) (call : Call) : State :=
  s.setServer p ((s.servers p).die ((s.servers p).disk.write call.reach call))

def LifeState.useClosed (s : LifeState) (a : Action) : Option (ℕ × Call) := do
  let (p, e) ← a.effect s.base
  let call ← e.calls.head?
  if (s.lives p).closed then some (p, call) else none

def lifeStep (cfg : Config) (s : LifeState) : LifeAction → Option LifeState
  | .act a => do
    let t ← step cfg s.base a
    if s.ready a then
      match s.useClosed a with
      | some (p, call) => return s.advance (s.base.nilDeref p call)
      | none => return s.advance t
    else none
  | .exit p th => do
    let n ← s.base.node p
    if th ∈ (s.lives p).threads ∧ th.done n (s.base.servers p).batch then
      return s.setLife p { s.lives p with threads := (s.lives p).threads.erase th }
    else none
  -- the second half of `Stop`, behind `wg.Wait`
  | .close p => do
    let n ← s.base.node p
    if n.stopped ∧ (s.lives p).threads = [] ∧ (s.lives p).closed = false then
      return s.setLife p { s.lives p with closed := true }
    else none

def Config.births (cfg : Config) : LifeState := { base := cfg.init }

variable {cfg : Config} {s t : State} {a : Action} {p : ℕ} {io : Io} {n m : Node} {e : Effect}

/-! ## A stopped node -/

theorem handle_stopped {recent : Bool} {body : Body} (h : n.stopped = true) :
    (handle io recent n body).1 = { node := n } := by
  cases body <;>
    simp [handle, Node.handleRequestVote, Node.handleAppendEntries, Node.handleInstallSnapshot, h]

/-- The check of `stopped` that opens every response handler but one. -/
theorem receive_stopped {q : ℕ} {body : Body} {resp : Response} (h : n.stopped = true)
    (he : receive io n q body resp = some e) : e = { node := n } ∨
      ∃ req ack, body = .heartbeat req ∧ resp = .append ack ∧ e = n.onHeartbeatResponse ack := by
  unfold receive at he
  split at he
  case h_4 req ack => exact .inr ⟨req, ack, rfl, rfl, (Option.some.inj he).symm⟩
  case h_6 => cases he
  all_goals
    obtain rfl := Option.some.inj he
    simp [Node.onPreVoteResponse, Node.onVoteResponse, Node.onAppendResponse,
      Node.onSnapshotResponse, h]

/-- What is left to a stopped node: the batch of the propose batcher, a call of `Snapshot`, and an
answer to a read confirmation from a later term. -/
inductive Stirs (s : State) (n : Node) (p : ℕ) : Action → Prop
  | propose {batch : List Bytes} {io : Io} : Stirs s n p (.propose p batch io)
  | snapshot {index : ℕ} {data : Bytes} {io : Io} : n.log.firstIndex < index →
      index ≤ n.lastApplied → Stirs s n p (.snapshot p index data io)
  | outvoted {k j : ℕ} {io : Io} {r : Rpc} {req : AppendEntriesRequest}
      {resp : AppendEntriesResponse} : s.rpcs[k]? = some r → r.src = p →
      r.body = .heartbeat req → r.resps[j]? = some (.append resp) → n.currentTerm < resp.term →
      Stirs s n p (.respond k j io)

theorem Section.stopped (h : Section cfg s n a p io e t) (hst : n.stopped = true) :
    e.node.stopped = true ∧ (e.node.role = .leader → n.role = .leader) ∧
      (e.calls = [] ∨ Stirs s n p a) := by
  cases h with
  | tick he => simp [Node.timeout, hst] at he
  | stepDown he => simp [Node.resign, hst] at he
  | deliver hr =>
    rw [handle_stopped hst]
    exact ⟨hst, id, .inl rfl⟩
  | respond hr hresp _ _ he =>
    rcases receive_stopped hst he with rfl | ⟨req, ack, hb, rfl, rfl⟩
    · exact ⟨hst, id, .inl rfl⟩
    unfold Node.onHeartbeatResponse
    split
    · rename_i hlt
      exact ⟨hst, by simp [Node.becomeFollowerLocked], .inr (.outvoted hr rfl hb hresp hlt)⟩
    · exact ⟨hst, id, .inl rfl⟩
  | propose =>
    refine ⟨?_, ?_, .inr .propose⟩
    · unfold Node.commitPropBatch
      split
      · exact hst
      · simp only
        split <;> exact hst
    · unfold Node.commitPropBatch
      split
      · exact id
      · simp only
        split <;> exact id
  | replicate _ he =>
    obtain ⟨hno, -⟩ := Node.replicateOnce_cases he
    simp [hst] at hno
  | heartbeat _ he =>
    obtain ⟨hno, -⟩ := Node.heartbeatAck_cases he
    simp [hst] at hno
  | lease => exact ⟨hst, id, .inl rfl⟩
  | @snapshot _ index data _ =>
    unfold Node.snapshot
    split
    · exact ⟨hst, id, .inl rfl⟩
    split
    · exact ⟨hst, id, .inl rfl⟩
    split
    · exact ⟨hst, id, .inl rfl⟩
    rename_i h1 h2 _ _ _
    have hin : Stirs s n p (.snapshot p index data io) := .snapshot (not_le.mp h1) (not_lt.mp h2)
    simp only
    split <;> exact ⟨hst, id, .inr hin⟩

theorem step_stopped (h : step cfg s a = some t) (hn : s.node p = some n) (hst : n.stopped = true)
    (hm : t.node p = some m) : m.stopped = true ∧ (m.role = .leader → n.role = .leader) := by
  have key := step_servers h (I := fun q srv => q = p → ∀ m, srv.proc = some m →
    m.stopped = true ∧ (m.role = .leader → n.role = .leader)) ?_ ?_ ?_ ?_ p rfl m hm
  · exact key
  · rintro q rfl m hm
    obtain rfl := Option.mem_unique hn hm
    exact ⟨hst, id⟩
  · rintro q io n' e hn' hsec - rfl m hm
    obtain rfl := Option.mem_unique hn hn'
    obtain rfl := Option.some.inj hm
    exact ⟨(hsec.stopped hst).1, (hsec.stopped hst).2.1⟩
  · rintro q io n' e k r - - - rfl m hm
    cases hm
  · rintro q srv hch rfl m hm
    cases hch with
    | applierTake hn' ht _ =>
      obtain rfl := Option.mem_unique hn hn'
      simp [Node.applierTake, hst] at ht
    | applierSend hn' _ =>
      obtain rfl := Option.mem_unique hn hn'
      obtain rfl := Option.some.inj hm
      exact ⟨hst, id⟩
    | crash _ => cases hm
    | restart _ hno => exact absurd (hno.symm.trans hn) (by simp)
    | stop hn' =>
      obtain rfl := Option.mem_unique hn hn'
      obtain rfl := Option.some.inj hm
      exact ⟨rfl, id⟩

/-! ## The closed persister -/

/-- A closed persister belongs to a stopped node without goroutines. -/
def Orderly (s : LifeState) : Prop :=
  ∀ p, (s.lives p).closed = true →
    (s.lives p).threads = [] ∧ ∀ n, s.base.node p = some n → n.stopped = true

theorem orderly_births (cfg : Config) : Orderly cfg.births := by
  intro p hp
  cases hp

/-- Steps of stopped nodes start nothing. -/
theorem Orderly.advance {s : LifeState} (h : Orderly s)
    (hkeep : ∀ p n m, s.base.node p = some n → n.stopped = true → t.node p = some m →
      m.stopped = true ∧ (m.role = .leader → n.role = .leader)) : Orderly (s.advance t) := by
  intro p hp
  simp only [LifeState.advance] at hp ⊢
  cases hm : t.node p with
  | none => simp [hm, Lifetime.next] at hp
  | some m =>
    cases hn : s.base.node p with
    | none => simp [hm, hn, Lifetime.next] at hp
    | some n =>
      simp only [hm, hn, Lifetime.next] at hp ⊢
      have hcl : (s.lives p).closed = true := by
        split at hp <;> exact hp
      obtain ⟨hth, hst⟩ := h p hcl
      obtain ⟨hst', hrole⟩ := hkeep p n m hn (hst n hn) hm
      rw [if_neg fun hlead => hlead.1 (hrole hlead.2)]
      refine ⟨hth, fun m' hm' => ?_⟩
      exact Option.some.inj hm' ▸ hst'

theorem Orderly.setLife {s : LifeState} (h : Orderly s) {life : Lifetime}
    (hl : life.closed = true →
      life.threads = [] ∧ ∀ n, s.base.node p = some n → n.stopped = true) :
    Orderly (s.setLife p life) := by
  intro q hq
  by_cases hqp : q = p
  · subst hqp
    simp only [LifeState.setLife, Function.update_self] at hq ⊢
    exact hl hq
  · simp only [LifeState.setLife, Function.update_of_ne hqp] at hq ⊢
    exact h q hq

theorem Orderly.step {s t : LifeState} {a : LifeAction} (h : Orderly s)
    (hs : lifeStep cfg s a = some t) : Orderly t := by
  cases a with
  | act a =>
    simp only [lifeStep, Option.bind_eq_bind, Option.bind_eq_some_iff] at hs
    obtain ⟨u, hu, hs⟩ := hs
    split at hs
    · split at hs
      · rename_i q call _
        obtain rfl := Option.some.inj hs
        refine h.advance fun p n m hn hst hm => ?_
        by_cases hp : p = q
        · subst hp
          simp [State.nilDeref, State.setServer, State.node, Server.die] at hm
        · have hm' : s.base.node p = some m := by
            simpa [State.nilDeref, State.setServer, State.node, hp] using hm
          obtain rfl := Option.mem_unique hn hm'
          exact ⟨hst, id⟩
      · obtain rfl := Option.some.inj hs
        exact h.advance fun p n m hn hst hm => step_stopped hu hn hst hm
    · cases hs
  | exit p th =>
    simp only [lifeStep, Option.bind_eq_bind, Option.bind_eq_some_iff] at hs
    obtain ⟨n, -, hs⟩ := hs
    split at hs
    · rename_i hg
      obtain rfl := Option.some.inj hs
      refine h.setLife fun hcl => ?_
      rw [(h p hcl).1] at hg
      simp at hg
    · cases hs
  | close p =>
    simp only [lifeStep, Option.bind_eq_bind, Option.bind_eq_some_iff] at hs
    obtain ⟨n, hn, hs⟩ := hs
    split at hs
    · rename_i hg
      obtain rfl := Option.some.inj hs
      refine h.setLife fun _ => ⟨hg.2.1, fun m hm => ?_⟩
      obtain rfl := Option.mem_unique hn hm
      exact hg.1
    · cases hs

/-- The answer to a read confirmation does not come from a later term when its caller is closed. -/
def Rpc.Late (s : LifeState) (r : Rpc) (j : ℕ) : Bool :=
  match r.body, r.resps[j]?, s.base.node r.src with
  | .heartbeat _, some (.append resp), some n =>
    (s.lives r.src).closed && decide (n.currentTerm < resp.term)
  | _, _, _ => false

/-- A closed node gets no answer from a later term to a read confirmation, and no call of `Snapshot`
that would compact its log. -/
def LifeAction.Spares (s : LifeState) : LifeAction → Prop
  | .act (.respond k j _) => ∀ r ∈ s.base.rpcs[k]?, r.Late s j = false
  | .act (.snapshot p index _ _) => (s.lives p).closed = true → ∀ n ∈ s.base.node p,
      index ≤ n.log.firstIndex ∨ n.lastApplied < index
  | _ => True

theorem Orderly.unused {s t : LifeState} (h : Orderly s) (ha : (LifeAction.act a).Spares s)
    (hs : lifeStep cfg s (.act a) = some t) : s.useClosed a = none := by
  simp only [lifeStep, Option.bind_eq_bind, Option.bind_eq_some_iff] at hs
  obtain ⟨u, hu, hs⟩ := hs
  have hready : s.ready a = true := by
    by_contra hno
    simp [hno] at hs
  unfold LifeState.useClosed
  rcases step_cases hu with ⟨p, io, n, e, hn, hsec⟩ | ⟨p, srv, hch, -⟩
  · rw [hsec.effect_eq hn]
    by_cases hcl : (s.lives p).closed = true
    · obtain ⟨hth, hst⟩ := h p hcl
      obtain ⟨-, -, hcalls | hstirs⟩ := hsec.stopped (hst n hn)
      · simp [hcalls]
      cases hstirs with
      | propose => simp [LifeState.ready, hth] at hready
      | snapshot h1 h2 =>
        have := ha hcl n hn
        omega
      | outvoted hr hsrc hb hresp hlt =>
        have hlate := ha _ hr
        subst hsrc
        simp [Rpc.Late, hb, hresp, hn, hcl, hlt] at hlate
    · simp [hcl]
  · simp [hch.effect_eq]

/-- In a run that spares the closed nodes no step calls a closed persister. -/
theorem closed_persister_unused {s t : LifeState}
    (h : Reaches (lifeStep cfg) (fun s a => a.Spares s) cfg.births s)
    (ha : (LifeAction.act a).Spares s) (hs : lifeStep cfg s (.act a) = some t) :
    s.useClosed a = none := by
  have horder : Orderly s :=
    h.invariant (I := Orderly) (fun _ _ _ hI _ hs => hI.step hs) (orderly_births cfg)
  exact horder.unused ha hs

instance (s : LifeState) : (a : LifeAction) → Decidable (a.Spares s)
  | .act (.respond k j _) => inferInstanceAs (Decidable (∀ r ∈ s.base.rpcs[k]?, r.Late s j = false))
  | .act (.snapshot p index _ _) => inferInstanceAs (Decidable ((s.lives p).closed = true →
      ∀ n ∈ s.base.node p, index ≤ n.log.firstIndex ∨ n.lastApplied < index))
  | .act (.tick ..) | .act (.stepDown _) | .act (.deliver ..) | .act (.propose ..)
  | .act (.replicate ..) | .act (.heartbeat ..) | .act (.lease _) | .act (.applierTake _)
  | .act (.applierSend _) | .act (.crash _) | .act (.restart _) | .act (.stop _) | .exit ..
  | .close _ => isTrue trivial

/-- Node 1 of a pair confirms its leadership for a read; `between` happens; node 2 answers, and node
1 is stopped before it sees the answer. -/
def stopAfter (between : List Action) : List LifeAction :=
  (electFirst ++ Action.heartbeat 1 2 :: between ++
      [Action.deliver 2 false {}, Action.stop 1]).map .act ++
    [.exit 1 .electionTimer, .exit 1 .applier, .exit 1 .proposeBatcher, .exit 1 .readIndexBatcher,
      .exit 1 (.replicator 2 1), .close 1]

/-- Node 2 acknowledges. -/
theorem closed_persister_unused_pair : ∃ s t,
    Reaches (lifeStep .pair) (fun s a => a.Spares s) Config.pair.births s ∧
    (s.lives 1).closed = true ∧ lifeStep .pair s (.act (.respond 2 0 {})) = some t ∧
    s.useClosed (.respond 2 0 {}) = none := by
  have hs := Reaches.of_exec (lifeStep .pair) (fun s a => a.Spares s) Config.pair.births
    (stopAfter []) (by decide) rfl
  exact ⟨_, _, hs, rfl, rfl, closed_persister_unused hs (by decide) rfl⟩

/-- Node 2 stands for election, with the pre-vote of node 1, before it gets the heartbeat. Its
answer makes node 1 save the new term to a WAL that is nil. -/
theorem closed_persister_used : ∃ s t,
    Reaches (lifeStep .pair) (fun _ _ => True) Config.pair.births s ∧
    (s.lives 1).closed = true ∧ lifeStep .pair s (.act (.respond 2 0 {})) = some t ∧
    s.useClosed (.respond 2 0 {}) = some (1, .saveHardState 2 0) ∧ (t.base.node 1).isNone := by
  have hs := Reaches.of_exec (lifeStep .pair) (fun _ _ => True) Config.pair.births
    (stopAfter [.tick 2 {}, .deliver 3 false {}, .respond 3 0 {}])
    (.of_forall (fun _ _ _ => trivial) _) rfl
  exact ⟨_, _, hs, rfl, rfl, rfl, rfl⟩

end KMC
