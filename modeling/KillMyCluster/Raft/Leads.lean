import KillMyCluster.Raft.Moves

/-! What a critical section does to role, term and lease, and to the bookkeeping of a leader. A
node leads after a section if it was elected in it or led before; then only proposals, snapshots
and the answers to its own requests touch the log and the cursors of its peers. -/

namespace KMC

/-- What a section other than the renewal of the lease does to role, term and lease. -/
inductive Node.Turn (n m : Node) : Prop
  | keeps : m.role = n.role → m.currentTerm = n.currentTerm → m.readLease = n.readLease → Turn n m
  | follows : m.role = .follower → n.currentTerm ≤ m.currentTerm → Turn n m
  | stands : m.role = .candidate → m.currentTerm = n.currentTerm + 1 → Turn n m
  | leads : m.role = .leader → m.readLease = false →
      n.role = .candidate ∧ m.currentTerm = n.currentTerm ∨
        n.majority ≤ 1 ∧ m.currentTerm = n.currentTerm + 1 → Turn n m

structure Node.Idle (n m : Node) : Prop where
  term : m.currentTerm = n.currentTerm
  peers : m.peers = n.peers
  log : m.log = n.log
  commitIndex : m.commitIndex = n.commitIndex
  nextIndex : m.nextIndex = n.nextIndex
  matchIndex : m.matchIndex = n.matchIndex

inductive Leads (s : State) (n : Node) : Action → Effect → Prop
  | elected {a : Action} {e : Effect} {m : Node} : m.log = n.log → m.peers = n.peers →
      m.commitIndex = n.commitIndex → e.node = m.becomeLeaderLocked → Leads s n a e
  | idle {a : Action} {e : Effect} : n.role = .leader → n.Idle e.node → Leads s n a e
  | proposed {p : ℕ} {batch : List Bytes} {io : Io} : n.role = .leader →
      Leads s n (.propose p batch io) (n.commitPropBatch io.fail batch).1
  | compacted {p index : ℕ} {data : Bytes} {io : Io} : n.role = .leader →
      Leads s n (.snapshot p index data io) (n.snapshot io.fail index data).1
  | acked {k j : ℕ} {io : Io} {r : Rpc} {req : AppendEntriesRequest}
      {resp : AppendEntriesResponse} : n.role = .leader → s.rpcs[k]? = some r →
      r.body = .replicate req → .append resp ∈ r.resps → (s.servers r.src).epoch = r.epoch →
      n.currentTerm = req.term → resp.success = true →
      Leads s n (.respond k j io) { node :=
        (n.raiseMatch r.dst (req.prevLogIndex + req.entries.length)).maybeAdvanceCommitLocked }
  | refused {k j : ℕ} {io : Io} {r : Rpc} {req : AppendEntriesRequest}
      {resp : AppendEntriesResponse} : n.role = .leader → s.rpcs[k]? = some r →
      r.body = .replicate req → .append resp ∈ r.resps → (s.servers r.src).epoch = r.epoch →
      n.currentTerm = req.term → resp.success = false →
      Leads s n (.respond k j io) { node :=
        { n with nextIndex := Function.update n.nextIndex r.dst (n.backUp r.dst resp) } }
  | installed {k j : ℕ} {io : Io} {r : Rpc} {req : InstallSnapshotRequest} :
      n.role = .leader → s.rpcs[k]? = some r → r.body = .snapshot req →
      (s.servers r.src).epoch = r.epoch → n.currentTerm = req.term →
      Leads s n (.respond k j io) { node := n.raiseMatch r.dst req.lastIncludedIndex }

variable {n m : Node} {fail : Call → Bool} {e : Effect}

theorem Node.Turn.refl (n : Node) : n.Turn n := .keeps rfl rfl rfl

theorem Node.Turn.term_le (h : n.Turn m) : n.currentTerm ≤ m.currentTerm := by
  cases h with
  | keeps _ ht _ => exact ht.ge
  | follows _ ht => exact ht
  | stands _ ht => omega
  | leads _ _ ht => omega

theorem Node.Idle.refl (n : Node) : n.Idle n := ⟨rfl, rfl, rfl, rfl, rfl, rfl⟩

/-! ## Elections -/

theorem Node.becomeFollower_turn {t : ℕ} (h : n.currentTerm < t) :
    n.Turn (n.becomeFollowerLocked t).node := .follows rfl h.le

theorem Node.adoptTerm_turn (n : Node) (t : ℕ) : n.Turn (n.adoptTerm t).node := by
  unfold Node.adoptTerm
  split
  · rename_i h
    exact becomeFollower_turn h
  · exact .refl n

theorem Node.adoptTerm_stale {t : ℕ} (h : t < (n.adoptTerm t).node.currentTerm) :
    (n.adoptTerm t).node = n := by
  unfold Node.adoptTerm at h ⊢
  split
  · rename_i hlt
    rw [if_pos hlt] at h
    exact absurd h (lt_irrefl _)
  · rfl

theorem Node.startElection_turn (ht : m.currentTerm = n.currentTerm) (hp : m.peers = n.peers) :
    n.Turn (m.startElectionLocked fail).node := by
  unfold Node.startElectionLocked
  simp only
  split
  · exact .follows rfl (by simp only; omega)
  split
  · rename_i hm
    refine .leads rfl rfl (.inr ⟨?_, congrArg (· + 1) ht⟩)
    simpa only [Node.majority, hp] using hm
  · exact .stands rfl (congrArg (· + 1) ht)

theorem Node.startPreVote_turn (n : Node) : n.Turn (n.startPreVoteLocked fail).node := by
  unfold Node.startPreVoteLocked
  simp only
  split
  · exact startElection_turn rfl rfl
  · exact .keeps rfl rfl rfl

/-- A vote touches nothing else. -/
theorem Node.castVote_node (fail : Call → Bool) (n : Node) (req : RequestVoteRequest) :
    ∃ v, (n.castVote fail req).1.node = { n with votedFor := v } := by
  unfold Node.castVote
  split
  · exact ⟨_, rfl⟩
  split
  · exact ⟨_, rfl⟩
  simp only
  split <;> exact ⟨_, rfl⟩

theorem Node.handleRequestVote_node (fail : Call → Bool) (recent : Bool) (n : Node)
    (req : RequestVoteRequest) :
    ∃ v, (n.handleRequestVote fail recent req).1.node = { n with votedFor := v } ∨
      n.currentTerm < req.term ∧ (n.handleRequestVote fail recent req).1.node =
        { (n.becomeFollowerLocked req.term).node with votedFor := v } := by
  unfold Node.handleRequestVote
  split
  · exact ⟨_, .inl rfl⟩
  split
  · exact ⟨_, .inl rfl⟩
  split
  · exact ⟨_, .inl rfl⟩
  simp only
  by_cases hlt : n.currentTerm < req.term
  · have ha : (n.adoptTerm req.term).node = (n.becomeFollowerLocked req.term).node := by
      rw [Node.adoptTerm, if_pos hlt]
    split
    · exact ⟨_, .inr ⟨hlt, ha⟩⟩
    · obtain ⟨v, hv⟩ := castVote_node fail (n.adoptTerm req.term).node req
      exact ⟨v, .inr ⟨hlt, by rw [Effect.after_node, hv, ha]⟩⟩
  · have ha : (n.adoptTerm req.term).node = n := by
      rw [Node.adoptTerm, if_neg hlt]
    split
    · exact ⟨_, .inl ha⟩
    · obtain ⟨v, hv⟩ := castVote_node fail (n.adoptTerm req.term).node req
      exact ⟨v, .inl (by rw [Effect.after_node, hv, ha])⟩

/-! ## Messages from a leader -/

def Node.SameRole (n m : Node) : Prop := m.role = n.role ∧ m.currentTerm = n.currentTerm

theorem Node.advanceCommit_sameRole (n : Node) (req : AppendEntriesRequest) :
    n.SameRole (n.advanceCommit req) := by
  unfold Node.advanceCommit
  split <;> exact ⟨rfl, rfl⟩

theorem Node.appendNew_sameRole (fail : Call → Bool) (n : Node) (req : AppendEntriesRequest)
    (new : List LogEntry) : n.SameRole (n.appendNew fail req new).1.node := by
  unfold Node.appendNew
  split
  · exact n.advanceCommit_sameRole req
  simp only
  split
  · exact ⟨rfl, rfl⟩
  · exact advanceCommit_sameRole { n with log := n.log.append new } req

theorem Node.appendLocked_sameRole (fail : Call → Bool) (n : Node) (req : AppendEntriesRequest) :
    n.SameRole (n.appendLocked fail req).1.node := by
  unfold Node.appendLocked
  split
  · exact ⟨rfl, rfl⟩
  split
  · exact ⟨rfl, rfl⟩
  unfold Node.mergeEntries
  split
  · exact appendNew_sameRole fail n req _
  simp only
  split
  · exact ⟨rfl, rfl⟩
  · rename_i i new _ _
    exact appendNew_sameRole fail { n with log := n.log.truncateFrom i } req new

theorem Node.installLocked_sameRole (fail : Call → Bool) (n : Node) (req : InstallSnapshotRequest) :
    n.SameRole (n.installLocked fail req).1.node := by
  unfold Node.installLocked
  split
  · exact ⟨rfl, rfl⟩
  simp only
  split <;> exact ⟨rfl, rfl⟩

/-- A stopped node or a stale message changes nothing; else the node follows. -/
theorem Node.handleAppendEntries_node (fail : Call → Bool) (n : Node) (req : AppendEntriesRequest) :
    (n.handleAppendEntries fail req).1.node = n ∨
      (n.handleAppendEntries fail req).1.node.role = .follower ∧
        n.currentTerm ≤ (n.handleAppendEntries fail req).1.node.currentTerm := by
  unfold Node.handleAppendEntries
  split
  · exact .inl rfl
  have hle := (n.adoptTerm_turn req.term).term_le
  simp only
  split
  · rename_i hterm
    exact .inl (adoptTerm_stale hterm)
  · have hs := appendLocked_sameRole fail
      ((n.adoptTerm req.term).node.followLeader req.leaderId) req
    exact .inr ⟨hs.1, hle.trans hs.2.ge⟩

theorem Node.handleInstallSnapshot_node (fail : Call → Bool) (n : Node)
    (req : InstallSnapshotRequest) :
    (n.handleInstallSnapshot fail req).1.node = n ∨
      (n.handleInstallSnapshot fail req).1.node.role = .follower ∧
        n.currentTerm ≤ (n.handleInstallSnapshot fail req).1.node.currentTerm := by
  unfold Node.handleInstallSnapshot
  split
  · exact .inl rfl
  have hle := (n.adoptTerm_turn req.term).term_le
  simp only
  split
  · rename_i hterm
    exact .inl (adoptTerm_stale hterm)
  · have hs := installLocked_sameRole fail
      ((n.adoptTerm req.term).node.followLeader req.leaderId) req
    exact .inr ⟨hs.1, hle.trans hs.2.ge⟩

theorem Node.appendNew_term (fail : Call → Bool) (n : Node) (req : AppendEntriesRequest)
    (new : List LogEntry) : (n.appendNew fail req new).2.term =
      (n.appendNew fail req new).1.node.currentTerm := by
  unfold Node.appendNew
  split
  · exact (n.advanceCommit_sameRole req).2.symm
  simp only
  split
  · rfl
  · exact (advanceCommit_sameRole { n with log := n.log.append new } req).2.symm

/-- An answer to AppendEntries carries the term its sender is left in. -/
theorem Node.handleAppendEntries_term (n : Node) (req : AppendEntriesRequest) :
    (n.handleAppendEntries fail req).2.term =
      (n.handleAppendEntries fail req).1.node.currentTerm := by
  unfold Node.handleAppendEntries
  split
  · rfl
  simp only
  split
  · rfl
  unfold Node.appendLocked
  split
  · rfl
  split
  · rfl
  unfold Node.mergeEntries
  split
  · exact appendNew_term fail _ req _
  simp only
  split
  · rfl
  · exact appendNew_term fail _ req _

theorem handle_node (io : Io) (recent : Bool) (n : Node) (body : Body) :
    (∃ v, (handle io recent n body).1.node = { n with votedFor := v }) ∨
      (handle io recent n body).1.node.role = .follower ∧
        n.currentTerm ≤ (handle io recent n body).1.node.currentTerm := by
  have hvote : ∀ req, (∃ v, (n.handleRequestVote io.fail recent req).1.node =
      { n with votedFor := v }) ∨ (n.handleRequestVote io.fail recent req).1.node.role = .follower ∧
        n.currentTerm ≤ (n.handleRequestVote io.fail recent req).1.node.currentTerm := by
    intro req
    obtain ⟨v, hv | ⟨hlt, hv⟩⟩ := Node.handleRequestVote_node io.fail recent n req
    · exact .inl ⟨v, hv⟩
    · rw [hv]
      exact .inr ⟨rfl, hlt.le⟩
  have happend := fun req => (Node.handleAppendEntries_node io.fail n req).imp_left
    fun h => (⟨n.votedFor, h⟩ : ∃ v, _ = { n with votedFor := v })
  cases body with
  | preVote _ _ req => exact hvote req
  | vote req => exact hvote req
  | replicate req => exact happend req
  | heartbeat req => exact happend req
  | snapshot req =>
    exact (Node.handleInstallSnapshot_node io.fail n req).imp_left fun h => ⟨n.votedFor, h⟩

/-- A node that leads after a message left everything a leader keeps alone. -/
theorem handle_leads {s : State} {a : Action} {io : Io} {recent : Bool} {body : Body}
    (hl : (handle io recent n body).1.node.role = .leader) :
    Leads s n a (handle io recent n body).1 := by
  rcases handle_node io recent n body with ⟨v, hv⟩ | ⟨hr, -⟩
  · rw [hv] at hl
    refine .idle hl ?_
    rw [hv]
    exact ⟨rfl, rfl, rfl, rfl, rfl, rfl⟩
  · rw [hr] at hl
    cases hl

/-! ## Leaders -/

theorem Node.maybeAdvanceCommit_node (n : Node) :
    ∃ ci, n.maybeAdvanceCommitLocked = { n with commitIndex := ci } := by
  unfold Node.maybeAdvanceCommitLocked
  split <;> exact ⟨_, rfl⟩

theorem receive_turn {io : Io} {q : ℕ} {body : Body} {resp : Response}
    (h : receive io n q body resp = some e) : n.Turn e.node := by
  cases receive_cases h with
  | ignored => exact .refl n
  | outvoted hlt => exact Node.becomeFollower_turn hlt
  | stands _ _ _ => exact Node.startElection_turn rfl rfl
  | wins hrole _ _ _ => exact .leads rfl rfl (.inl ⟨hrole, rfl⟩)
  | @acked req _ _ _ _ =>
    obtain ⟨ci, hci⟩ := (n.raiseMatch q
      (req.prevLogIndex + req.entries.length)).maybeAdvanceCommit_node
    rw [hci]
    exact .keeps rfl rfl rfl
  | polled | voted | refused | installed => exact .keeps rfl rfl rfl

theorem Node.replicateOnce_idle {file : Option Snapshot} {q : ℕ}
    (h : n.replicateOnce file q = some e) :
    ∃ snap, e.node = { n with snapCache := snap } := by
  obtain ⟨-, -, rfl | ⟨snap, -, -, rfl⟩ | ⟨-, rfl⟩⟩ := replicateOnce_cases h
  · exact ⟨n.snapCache, rfl⟩
  · exact ⟨snap, rfl⟩
  · exact ⟨n.snapCache, rfl⟩

theorem Node.snapshot_node (fail : Call → Bool) (n : Node) (index : ℕ) (data : Bytes) :
    ∃ log snap, (n.snapshot fail index data).1.node = { n with log := log, snapCache := snap } := by
  unfold Node.snapshot
  split
  · exact ⟨_, _, rfl⟩
  split
  · exact ⟨_, _, rfl⟩
  split
  · exact ⟨_, _, rfl⟩
  simp only
  split <;> exact ⟨_, _, rfl⟩

theorem Node.commitPropBatch_node (fail : Call → Bool) (n : Node) (batch : List Bytes) :
    ∃ log, (n.commitPropBatch fail batch).1.node = { n with log := log } := by
  unfold Node.commitPropBatch
  split
  · exact ⟨_, rfl⟩
  simp only
  split <;> exact ⟨_, rfl⟩

section Sections

variable {cfg : Config} {s t : State} {a : Action} {p : ℕ} {io : Io}

theorem Node.startElection_leads (hlog : m.log = n.log) (hp : m.peers = n.peers)
    (hc : m.commitIndex = n.commitIndex) : (m.startElectionLocked fail).node.role = .leader →
      Leads s n a (m.startElectionLocked fail) := by
  unfold Node.startElectionLocked
  simp only
  split
  · nofun
  split
  · intro _
    refine .elected ?_ ?_ ?_ rfl
    exacts [hlog, hp, hc]
  · nofun

theorem Node.startPreVote_leads :
    (n.startPreVoteLocked fail).node.role = .leader → Leads s n a (n.startPreVoteLocked fail) := by
  unfold Node.startPreVoteLocked
  simp only
  split
  · exact startElection_leads rfl rfl rfl
  · exact fun hl => .idle hl ⟨rfl, rfl, rfl, rfl, rfl, rfl⟩

theorem receive_leads {k j : ℕ} {r : Rpc} (hr : s.rpcs[k]? = some r)
    (hep : (s.servers r.src).epoch = r.epoch) {resp : Response} (hm : resp ∈ r.resps)
    (h : receive io n r.dst r.body resp = some e) (hl : e.node.role = .leader) :
    Leads s n (.respond k j io) e := by
  generalize hb : r.body = body at h
  cases receive_cases h with
  | ignored => exact .idle hl (.refl n)
  | outvoted _ => cases hl
  | stands _ _ _ => exact Node.startElection_leads rfl rfl rfl hl
  | wins _ _ _ _ =>
    refine .elected ?_ ?_ ?_ rfl <;> rfl
  | acked hrole hterm hok => exact .acked hrole hr hb hm hep hterm hok
  | refused hrole hterm hno => exact .refused hrole hr hb hm hep hterm hno
  | installed hrole hterm _ => exact .installed hrole hr hb hep hterm
  | polled | voted => exact .idle hl ⟨rfl, rfl, rfl, rfl, rfl, rfl⟩

theorem Section.leads (h : Section cfg s n a p io e t) (hl : e.node.role = .leader) :
    Leads s n a e := by
  cases h with
  | tick he =>
    obtain ⟨-, rfl⟩ := Node.timeout_some he
    exact Node.startPreVote_leads hl
  | stepDown he =>
    obtain ⟨-, rfl⟩ := Node.resign_some he
    cases hl
  | deliver _ => exact handle_leads hl
  | respond hr hresp _ hep he => exact receive_leads hr hep (List.mem_of_getElem? hresp) he hl
  | @propose _ batch =>
    obtain ⟨log, hlog⟩ := Node.commitPropBatch_node io.fail n batch
    rw [hlog] at hl
    exact .proposed hl
  | replicate _ he =>
    obtain ⟨snap, hs⟩ := Node.replicateOnce_idle he
    rw [hs] at hl
    exact .idle hl (hs ▸ ⟨rfl, rfl, rfl, rfl, rfl, rfl⟩)
  | heartbeat _ he =>
    obtain ⟨-, -, -, rfl⟩ := Node.heartbeatAck_cases he
    exact .idle hl (.refl n)
  | lease => exact .idle hl ⟨rfl, rfl, rfl, rfl, rfl, rfl⟩
  | @snapshot _ index data =>
    obtain ⟨log, snap, hs⟩ := Node.snapshot_node io.fail n index data
    rw [hs] at hl
    exact .compacted hl

theorem Section.turn (h : Section cfg s n a p io e t) :
    n.Turn e.node ∨ a = .lease p ∧ e.node = n.renewLease := by
  cases h with
  | tick he =>
    obtain ⟨-, rfl⟩ := Node.timeout_some he
    exact .inl n.startPreVote_turn
  | stepDown he =>
    obtain ⟨-, rfl⟩ := Node.resign_some he
    exact .inl (.follows rfl le_rfl)
  | @deliver _ recent _ r hr =>
    rcases handle_node io recent n r.body with ⟨v, hv⟩ | ⟨h1, h2⟩
    · rw [hv]
      exact .inl (.keeps rfl rfl rfl)
    · exact .inl (.follows h1 h2)
  | respond _ _ _ _ he => exact .inl (receive_turn he)
  | propose =>
    obtain ⟨log, hlog⟩ := Node.commitPropBatch_node io.fail n _
    rw [hlog]
    exact .inl (.keeps rfl rfl rfl)
  | replicate _ he =>
    obtain ⟨snap, hs⟩ := Node.replicateOnce_idle he
    rw [hs]
    exact .inl (.keeps rfl rfl rfl)
  | heartbeat _ he =>
    obtain ⟨-, -, -, rfl⟩ := Node.heartbeatAck_cases he
    exact .inl (.refl n)
  | lease => exact .inr ⟨rfl, rfl⟩
  | snapshot =>
    obtain ⟨log, snap, hs⟩ := Node.snapshot_node io.fail n _ _
    rw [hs]
    exact .inl (.keeps rfl rfl rfl)

/-- Outside of the critical sections only the applier's cursors and `stopped` move in a process;
else the process is new. -/
theorem Change.proc {srv : Server} (h : Change cfg s a p srv) (hm : srv.proc = some m) :
    (∃ n, s.node p = some n ∧ srv.epoch = (s.servers p).epoch ∧ ∃ applied pending stopped,
      m = { n with lastApplied := applied, pendingSnapshot := pending, stopped := stopped }) ∨
    p ∈ cfg.ids ∧ s.node p = none ∧ srv.epoch = (s.servers p).epoch + 1 ∧
      m = newNode p (cfg.peers p) (cfg.retain p) (openPersister (s.servers p).disk) := by
  cases h with
  | applierTake hn htake _ =>
    obtain rfl := Option.some.inj hm
    obtain ⟨_, -, rfl, -⟩ | ⟨-, rfl, -⟩ := Node.applierTake_cases htake <;>
      exact .inl ⟨_, hn, rfl, _, _, _, rfl⟩
  | applierSend hn _ =>
    obtain rfl := Option.some.inj hm
    exact .inl ⟨_, hn, rfl, _, _, _, rfl⟩
  | crash _ => cases hm
  | restart hp hn =>
    obtain rfl := Option.some.inj hm
    exact .inr ⟨hp, hn, rfl, rfl⟩
  | stop hn =>
    obtain rfl := Option.some.inj hm
    exact .inl ⟨_, hn, rfl, _, _, _, rfl⟩

/-- Where a process comes from: it ran a section, it rested, or it has just started. -/
inductive Lineage (cfg : Config) (s : State) (a : Action) (t : State) (p : ℕ) (m : Node) : Prop
  | acts {n : Node} {io : Io} {e : Effect} : s.node p = some n → Section cfg s n a p io e t →
      io.crash = none → (t.servers p).epoch = (s.servers p).epoch → m = e.node →
      Lineage cfg s a t p m
  | rests {n : Node} {applied : ℕ} {pending : Option Snapshot} {stopped : Bool} :
      s.node p = some n → (t.servers p).epoch = (s.servers p).epoch →
      m = { n with lastApplied := applied, pendingSnapshot := pending, stopped := stopped } →
      Lineage cfg s a t p m
  | starts : p ∈ cfg.ids → s.node p = none → (t.servers p).epoch = (s.servers p).epoch + 1 →
      m = newNode p (cfg.peers p) (cfg.retain p) (openPersister (s.servers p).disk) →
      Lineage cfg s a t p m

theorem step_lineage (h : step cfg s a = some t) (hm : t.node p = some m) :
    Lineage cfg s a t p m := by
  rcases step_cases h with ⟨q, io, n, e, hn, hsec⟩ | ⟨q, srv, hch, rfl⟩
  · by_cases hq : p = q
    · subst hq
      rcases hsec.server with ⟨hc, hsrv⟩ | ⟨k, r, -, hsrv⟩
      · rw [State.node, hsrv] at hm
        exact .acts hn hsec hc (by rw [hsrv]) (Option.some.inj hm).symm
      · rw [State.node, hsrv] at hm
        cases hm
    · rw [State.node, hsec.other hq] at hm
      exact .rests hm (by rw [hsec.other hq]) rfl
  · by_cases hq : p = q
    · subst hq
      have hsrv : (s.setServer p srv).servers p = srv := by simp [State.setServer]
      rw [State.node, hsrv] at hm
      obtain ⟨n, hn, hep, _, _, _, rfl⟩ | ⟨hp, hn, hep, rfl⟩ := hch.proc hm
      · exact .rests hn (by rw [hsrv, hep]) rfl
      · exact .starts hp hn (by rw [hsrv, hep]) rfl
    · have hsrv : (s.setServer q srv).servers p = s.servers p := by simp [State.setServer, hq]
      rw [State.node, hsrv] at hm
      exact .rests hm (by rw [hsrv]) rfl

/-- The commit index of a process never falls. -/
theorem step_commit_le (h : step cfg s a = some t) (hn : s.node p = some n)
    (hm : t.node p = some m) : n.commitIndex ≤ m.commitIndex := by
  cases step_lineage h hm with
  | acts hn' hsec _ _ he =>
    obtain rfl := Option.mem_unique hn hn'
    exact he ▸ hsec.moves.commit_le
  | rests hn' _ he =>
    obtain rfl := Option.mem_unique hn hn'
    exact he ▸ le_rfl
  | starts _ hno _ _ =>
    rw [hno] at hn
    cases hn

theorem step_epoch (h : step cfg s a = some t) (p : ℕ) :
    (s.servers p).epoch ≤ (t.servers p).epoch := by
  refine step_servers (I := fun p srv => (s.servers p).epoch ≤ srv.epoch) h (fun _ => le_rfl)
    (fun _ _ _ _ _ _ _ => le_rfl) (fun _ _ _ _ _ _ _ _ _ => le_rfl) (fun q srv hch => ?_) p
  cases hch with
  | restart _ _ => exact Nat.le_succ _
  | _ => exact le_rfl

/-- Every RPC after a step was there before or was sent in it. -/
theorem step_rpc (h : step cfg s a = some t) {k : ℕ} {r' : Rpc} (hr : t.rpcs[k]? = some r') :
    (∃ r, s.rpcs[k]? = some r ∧ r.Same r') ∨
    ∃ p io n e q body, s.node p = some n ∧ Section cfg s n a p io e t ∧ io.crash = none ∧
      (q, body) ∈ e.sends ∧
      r' = { src := p, dst := q, epoch := (s.servers p).epoch, body := body } := by
  rcases step_cases h with ⟨p, io, n, e, hn, hsec⟩ | ⟨p, srv, -, rfl⟩
  · cases hsec.origin hn hr with
    | old r₀ hr₀ hsame _ => exact .inl ⟨r₀, hr₀, hsame⟩
    | answered r₀ _ _ hr₀ hsame _ _ _ _ => exact .inl ⟨r₀, hr₀, hsame⟩
    | sent q body _ hm hc hr' => exact .inr ⟨p, io, n, e, q, body, hn, hsec, hc, hm, hr'⟩
  · exact .inl ⟨r', hr, .refl r'⟩

end Sections

end KMC
