import KillMyCluster.Raft.Loops
import KillMyCluster.Raft.Steps

/-! What a critical section can do to the log, its cursors and the snapshots of a node, whether
persister calls fail or not. Elections and refusals leave them alone; what is left are six pieces
of code. -/

namespace KMC

structure Node.Same (n m : Node) : Prop where
  log : m.log = n.log
  commitIndex : m.commitIndex = n.commitIndex
  lastApplied : m.lastApplied = n.lastApplied
  pendingSnapshot : m.pendingSnapshot = n.pendingSnapshot
  snapCache : m.snapCache = n.snapCache
  snapshotRetain : m.snapshotRetain = n.snapshotRetain

/-- A request that carries no snapshot; an AppendEntries is cut from the sender's log. -/
def Body.From (n : Node) : Body → Prop
  | .replicate req | .heartbeat req => ∃ next k, n.log.firstIndex < next ∧
      req = n.appendRequest next ((n.log.suffix next).take k)
  | .snapshot _ => False
  | _ => True

def Saves (calls : List Call) : Prop := ∀ c ∈ calls, ∃ t v, c = .saveHardState t v

structure Effect.Stays (n : Node) (e : Effect) : Prop where
  same : n.Same e.node
  saves : Saves e.calls
  sends : ∀ q body, (q, body) ∈ e.sends → body.From n

/-- The snapshot that `sendSnapshotLocked` ships; index 0 stands for none. -/
def Node.shipped (n : Node) (file : Option Snapshot) : Snapshot :=
  if n.snapCache.index = 0 then file.getD ⟨0, 0, []⟩ else n.snapCache

inductive Moves (s : State) (file : Option Snapshot) (n : Node) : Action → Io → Effect → Prop
  | stays {a : Action} {io : Io} {e : Effect} : e.Stays n → Moves s file n a io e
  | ship {p q : ℕ} : (n.shipped file).index ≠ 0 → Moves s file n (.replicate p q) {}
      { node := { n with snapCache := n.shipped file }
        sends := [(q, .snapshot ⟨n.currentTerm, n.id, (n.shipped file).index,
          (n.shipped file).term, (n.shipped file).data⟩)] }
  | commit {a : Action} {io : Io} {m : Node} {idx : ℕ} : n.Same m →
      m.commitScan m.log.lastIndex = some idx →
      Moves s file n a io { node := { m with commitIndex := idx } }
  | merge {k : ℕ} {recent : Bool} {io : Io} {r : Rpc} {req : AppendEntriesRequest} {m : Node}
      {hs : List Call} : s.rpcs[k]? = some r → r.body = .replicate req ∨ r.body = .heartbeat req →
      n.stopped = false → n.currentTerm ≤ req.term → n.Same m → Saves hs →
      req.prevLogIndex ≤ n.log.lastIndex →
      Moves s file n (.deliver k recent io) io ((m.mergeEntries io.fail req).1.after hs)
  | install {k : ℕ} {recent : Bool} {io : Io} {r : Rpc} {req : InstallSnapshotRequest} {m : Node}
      {hs : List Call} : s.rpcs[k]? = some r → r.body = .snapshot req → n.stopped = false →
      n.Same m → Saves hs → n.commitIndex < req.lastIncludedIndex →
      Moves s file n (.deliver k recent io) io ((m.installLocked io.fail req).1.after hs)
  | propose {p : ℕ} {batch : List Bytes} {io : Io} : n.role = .leader →
      Moves s file n (.propose p batch io) io (n.commitPropBatch io.fail batch).1
  | snapshot {p index : ℕ} {data : Bytes} {io : Io} :
      Moves s file n (.snapshot p index data io) io (n.snapshot io.fail index data).1

variable {n m : Node} {fail : Call → Bool} {e : Effect} {q : ℕ}

theorem Body.From.consecutive {body : Body} (h : body.From n) (hwf : n.log.WF) :
    body.Consecutive := by
  cases body with
  | preVote | vote | snapshot => trivial
  | replicate req | heartbeat req =>
    obtain ⟨next, k, hnext, rfl⟩ := h
    exact Node.appendRequest_consecutive hwf hnext k

theorem Node.Same.refl (n : Node) : n.Same n := ⟨rfl, rfl, rfl, rfl, rfl, rfl⟩

theorem Node.Same.trans {n₁ n₂ n₃ : Node} (h : n₁.Same n₂) (h' : n₂.Same n₃) : n₁.Same n₃ :=
  ⟨h'.log.trans h.log, h'.commitIndex.trans h.commitIndex, h'.lastApplied.trans h.lastApplied,
    h'.pendingSnapshot.trans h.pendingSnapshot, h'.snapCache.trans h.snapCache,
    h'.snapshotRetain.trans h.snapshotRetain⟩

theorem Saves.nil : Saves [] := by simp [Saves]

theorem Saves.one (t v : ℕ) : Saves [.saveHardState t v] := by simp [Saves]

theorem Effect.Stays.refl (n : Node) : Effect.Stays n { node := n } :=
  ⟨.refl n, .nil, by simp⟩

/-! ## Elections -/

theorem Node.becomeFollower_stays (n : Node) (t : ℕ) : (n.becomeFollowerLocked t).Stays n :=
  ⟨⟨rfl, rfl, rfl, rfl, rfl, rfl⟩, .one _ _, by simp [Node.becomeFollowerLocked]⟩

theorem Node.adoptTerm_stays (n : Node) (t : ℕ) : (n.adoptTerm t).Stays n := by
  unfold Node.adoptTerm
  split
  · exact n.becomeFollower_stays t
  · exact .refl n

theorem Node.adoptTerm_le (n : Node) {t u : ℕ} (h : (n.adoptTerm t).node.currentTerm ≤ u) :
    n.currentTerm ≤ u := by
  unfold Node.adoptTerm at h
  split at h
  · rename_i hlt
    exact hlt.le.trans h
  · exact h

theorem Node.startElection_stays (hn : n.Same m) : (m.startElectionLocked fail).Stays n := by
  have hcall : Saves [.saveHardState (m.currentTerm + 1) m.id] := .one _ _
  unfold Node.startElectionLocked
  simp only
  split
  · exact ⟨hn.trans ⟨rfl, rfl, rfl, rfl, rfl, rfl⟩, hcall, by simp⟩
  split
  · exact ⟨hn.trans ⟨rfl, rfl, rfl, rfl, rfl, rfl⟩, hcall, by simp⟩
  · exact ⟨hn.trans ⟨rfl, rfl, rfl, rfl, rfl, rfl⟩, hcall, by simp [Body.From]⟩

theorem Node.startPreVote_stays (n : Node) : (n.startPreVoteLocked fail).Stays n := by
  unfold Node.startPreVoteLocked
  simp only
  split
  · refine startElection_stays ?_
    exact ⟨rfl, rfl, rfl, rfl, rfl, rfl⟩
  · exact ⟨⟨rfl, rfl, rfl, rfl, rfl, rfl⟩, .nil, by simp [Body.From]⟩

theorem Node.castVote_stays (hn : n.Same m) (req : RequestVoteRequest) {hs : List Call}
    (hc : Saves hs) : ((m.castVote fail req).1.after hs).Stays n := by
  have hcalls : Saves (hs ++ [.saveHardState m.currentTerm req.candidateId]) := by
    intro c hm
    rcases List.mem_append.mp hm with hm | hm
    · exact hc c hm
    · exact ⟨_, _, List.mem_singleton.mp hm⟩
  unfold Node.castVote
  split
  · exact ⟨hn, by simpa using hc, by simp⟩
  split
  · exact ⟨hn, by simpa using hc, by simp⟩
  simp only
  split <;> exact ⟨hn.trans ⟨rfl, rfl, rfl, rfl, rfl, rfl⟩, hcalls, by simp⟩

theorem Node.handleRequestVote_stays (n : Node) (recent : Bool) (req : RequestVoteRequest) :
    (n.handleRequestVote fail recent req).1.Stays n := by
  unfold Node.handleRequestVote
  split
  · exact .refl n
  split
  · exact .refl n
  split
  · exact .refl n
  have ha := n.adoptTerm_stays req.term
  simp only
  split
  · exact ha
  · exact castVote_stays ha.same req ha.saves

/-! ## Messages from a leader -/

section Messages

variable {s : State} {file : Option Snapshot} {k : ℕ} {recent : Bool} {io : Io} {r : Rpc}

/-- Following a leader, after the guard. -/
theorem Node.adopted_same (n : Node) (term leader : ℕ) :
    n.Same ((n.adoptTerm term).node.followLeader leader) :=
  (n.adoptTerm_stays term).same.trans ⟨rfl, rfl, rfl, rfl, rfl, rfl⟩

theorem Node.handleAppendEntries_moves {req : AppendEntriesRequest} (hr : s.rpcs[k]? = some r)
    (hb : r.body = .replicate req ∨ r.body = .heartbeat req) :
    Moves s file n (.deliver k recent io) io (n.handleAppendEntries io.fail req).1 := by
  unfold Node.handleAppendEntries
  split
  · exact .stays (.refl n)
  rename_i hst
  have ha := n.adoptTerm_stays req.term
  have hm := n.adopted_same req.term req.leaderId
  simp only
  split
  · exact .stays ha
  rename_i hterm
  have hrefuse : ∀ resp : AppendEntriesResponse, Moves s file n (.deliver k recent io) io
      ((({ node := (n.adoptTerm req.term).node.followLeader req.leaderId } : Effect), resp).1.after
        (n.adoptTerm req.term).calls) :=
    fun resp => .stays ⟨hm, by simpa using ha.saves, by simp⟩
  unfold Node.appendLocked
  split
  · exact hrefuse _
  rename_i hlast
  split
  · exact hrefuse _
  · rw [hm.log] at hlast
    exact .merge hr hb (by simpa using hst) (n.adoptTerm_le (not_lt.mp hterm)) hm ha.saves
      (by omega)

theorem Node.handleInstallSnapshot_moves {req : InstallSnapshotRequest} (hr : s.rpcs[k]? = some r)
    (hb : r.body = .snapshot req) :
    Moves s file n (.deliver k recent io) io (n.handleInstallSnapshot io.fail req).1 := by
  unfold Node.handleInstallSnapshot
  split
  · exact .stays (.refl n)
  rename_i hst
  have ha := n.adoptTerm_stays req.term
  have hm := n.adopted_same req.term req.leaderId
  simp only
  split
  · exact .stays ha
  by_cases hci : n.commitIndex < req.lastIncludedIndex
  · exact .install hr hb (by simpa using hst) hm ha.saves hci
  · unfold Node.installLocked
    rw [if_pos (by rw [hm.commitIndex]; omega)]
    exact .stays ⟨hm, by simpa using ha.saves, by simp⟩

theorem handle_moves (hr : s.rpcs[k]? = some r) :
    Moves s file n (.deliver k recent io) io (handle io recent n r.body).1 := by
  cases hb : r.body with
  | preVote _ _ req => exact .stays (n.handleRequestVote_stays recent req)
  | vote req => exact .stays (n.handleRequestVote_stays recent req)
  | replicate req => exact Node.handleAppendEntries_moves hr (Or.inl hb)
  | heartbeat req => exact Node.handleAppendEntries_moves hr (Or.inr hb)
  | snapshot req => exact Node.handleInstallSnapshot_moves hr hb

end Messages

/-! ## Leaders -/

section Leaders

variable {s : State} {file : Option Snapshot} {a : Action} {io : Io}

theorem Node.maybeAdvanceCommit_moves (hn : n.Same m) :
    Moves s file n a io { node := m.maybeAdvanceCommitLocked } := by
  unfold maybeAdvanceCommitLocked
  split
  · rename_i hscan
    exact .commit hn hscan
  · exact .stays ⟨hn, .nil, by simp⟩

theorem receive_moves {body : Body} {resp : Response} (h : receive io n q body resp = some e) :
    Moves s file n a io e := by
  cases receive_cases h with
  | ignored => exact .stays (.refl n)
  | outvoted _ => exact .stays (n.becomeFollower_stays _)
  | stands _ _ _ =>
    refine .stays (Node.startElection_stays ?_)
    exact ⟨rfl, rfl, rfl, rfl, rfl, rfl⟩
  | acked _ _ _ => exact Node.maybeAdvanceCommit_moves ⟨rfl, rfl, rfl, rfl, rfl, rfl⟩
  | polled | voted | wins | refused | installed =>
    exact .stays ⟨⟨rfl, rfl, rfl, rfl, rfl, rfl⟩, .nil, by simp⟩

theorem Node.replicateOnce_moves {p : ℕ} (h : n.replicateOnce file q = some e) :
    Moves s file n (.replicate p q) {} e := by
  obtain ⟨-, -, rfl | ⟨snap, hne, hsnap, rfl⟩ | ⟨hnext, rfl⟩⟩ := replicateOnce_cases h
  · exact .stays (.refl n)
  · obtain rfl : snap = n.shipped file := hsnap
    exact .ship hne
  · refine .stays ⟨.refl n, .nil, fun q body hm => ?_⟩
    obtain ⟨rfl, rfl⟩ := Prod.mk.inj (List.mem_singleton.mp hm)
    exact ⟨_, _, hnext, rfl⟩

theorem Node.heartbeatAck_stays (h : n.heartbeatAck q = some e) : e.Stays n := by
  obtain ⟨-, -, hnext, rfl⟩ := heartbeatAck_cases h
  refine ⟨.refl n, .nil, fun q body hm => ?_⟩
  obtain ⟨rfl, rfl⟩ := Prod.mk.inj (List.mem_singleton.mp hm)
  exact ⟨_, 0, hnext, by simp⟩

end Leaders

theorem Section.moves {cfg : Config} {s t : State} {a : Action} {p : ℕ} {io : Io}
    (h : Section cfg s n a p io e t) : Moves s (s.servers p).disk.snap n a io e := by
  cases h with
  | tick he =>
    obtain ⟨-, rfl⟩ := Node.timeout_some he
    exact .stays n.startPreVote_stays
  | stepDown he =>
    obtain ⟨-, rfl⟩ := Node.resign_some he
    exact .stays ⟨⟨rfl, rfl, rfl, rfl, rfl, rfl⟩, .nil, by simp⟩
  | deliver hr => exact handle_moves hr
  | respond _ _ _ _ he => exact receive_moves he
  | propose =>
    by_cases hl : n.role = .leader
    · exact .propose hl
    · rw [Node.commitPropBatch, if_pos hl]
      exact .stays (.refl n)
  | replicate _ he => exact Node.replicateOnce_moves he
  | heartbeat _ he => exact .stays (Node.heartbeatAck_stays he)
  | lease => exact .stays ⟨⟨rfl, rfl, rfl, rfl, rfl, rfl⟩, .nil, by simp⟩
  | snapshot => exact .snapshot

/-! ## What goes out -/

def Body.leader : Body → Option (ℕ × ℕ)
  | .replicate req | .heartbeat req => some (req.term, req.leaderId)
  | .snapshot req => some (req.term, req.leaderId)
  | .preVote .. | .vote _ => none

theorem Node.appendNew_sends (n : Node) (req : AppendEntriesRequest) (new : List LogEntry) :
    (n.appendNew fail req new).1.sends = [] := by
  unfold Node.appendNew
  split
  · rfl
  simp only
  split <;> rfl

theorem Node.mergeEntries_sends (n : Node) (req : AppendEntriesRequest) :
    (n.mergeEntries fail req).1.sends = [] := by
  unfold Node.mergeEntries
  split
  · exact n.appendNew_sends req _
  simp only
  split
  · rfl
  · exact Node.appendNew_sends _ req _

theorem Node.installLocked_sends (n : Node) (req : InstallSnapshotRequest) :
    (n.installLocked fail req).1.sends = [] := by
  unfold Node.installLocked
  split
  · rfl
  simp only
  split <;> rfl

theorem Node.commitPropBatch_sends (n : Node) (batch : List Bytes) :
    (n.commitPropBatch fail batch).1.sends = [] := by
  unfold Node.commitPropBatch
  split
  · rfl
  simp only
  split <;> rfl

theorem Node.snapshot_sends (n : Node) (index : ℕ) (data : Bytes) :
    (n.snapshot fail index data).1.sends = [] := by
  unfold Node.snapshot
  split
  · rfl
  split
  · rfl
  split
  · rfl
  simp only
  split <;> rfl

theorem handle_sends (io : Io) (recent : Bool) (n : Node) (body : Body) :
    (handle io recent n body).1.sends = [] := by
  have hadopt : ∀ t, (n.adoptTerm t).sends = [] := by
    intro t
    unfold Node.adoptTerm
    split_ifs <;> rfl
  have hvote : ∀ req, (n.handleRequestVote io.fail recent req).1.sends = [] := by
    intro req
    unfold Node.handleRequestVote Node.castVote
    simp only
    split_ifs <;> first | rfl | exact hadopt _
  have happend : ∀ req, (n.handleAppendEntries io.fail req).1.sends = [] := by
    intro req
    unfold Node.handleAppendEntries Node.appendLocked
    simp only
    split_ifs <;> first | rfl | exact hadopt _ | exact Node.mergeEntries_sends _ req
  cases body with
  | preVote _ _ req => exact hvote req
  | vote req => exact hvote req
  | replicate req => exact happend req
  | heartbeat req => exact happend req
  | snapshot req =>
    change (n.handleInstallSnapshot io.fail req).1.sends = []
    unfold Node.handleInstallSnapshot
    simp only
    split_ifs <;> first | rfl | exact hadopt _ | exact Node.installLocked_sends _ req

/-- The snapshot that goes out is the one at hand. -/
theorem Moves.sends {s : State} {file : Option Snapshot} {a : Action} {io : Io}
    (h : Moves s file n a io e) : ∀ q body, (q, body) ∈ e.sends → body.From n ∨
      (n.shipped file).index ≠ 0 ∧ body = .snapshot ⟨n.currentTerm, n.id, (n.shipped file).index,
        (n.shipped file).term, (n.shipped file).data⟩ := by
  cases h with
  | stays hq => exact fun q body hb => .inl (hq.sends q body hb)
  | ship h0 =>
    intro q body hb
    obtain ⟨-, rfl⟩ := Prod.mk.inj (List.mem_singleton.mp hb)
    exact .inr ⟨h0, rfl⟩
  | commit _ _ => simp
  | merge _ _ _ _ _ _ _ => simp [Node.mergeEntries_sends]
  | install _ _ _ _ _ _ => simp [Node.installLocked_sends]
  | propose _ => simp [Node.commitPropBatch_sends]
  | snapshot => simp [Node.snapshot_sends]

/-! ## Sections that leave snapshots alone -/

def Call.SparesImage : Call → Prop
  | .saveSnapshot .. => False
  | _ => True

/-- The log may grow at its end and be committed further; snapshots are left alone. -/
structure Effect.Grows (n : Node) (e : Effect) : Prop where
  first : e.node.log.firstIndex = n.log.firstIndex
  applied : e.node.lastApplied = n.lastApplied
  commit : n.commitIndex ≤ e.node.commitIndex
  pending : e.node.pendingSnapshot = n.pendingSnapshot
  snapCache : e.node.snapCache = n.snapCache
  calls : ∀ c ∈ e.calls, c.SparesImage

theorem Saves.sparesImage {calls : List Call} (h : Saves calls) : ∀ c ∈ calls, c.SparesImage := by
  intro c hc
  obtain ⟨t, v, rfl⟩ := h c hc
  trivial

theorem Effect.Grows.after (h : e.Grows m) (hm : n.Same m) {hs : List Call} (hc : Saves hs) :
    (e.after hs).Grows n where
  first := h.first.trans (by rw [hm.log])
  applied := h.applied.trans hm.lastApplied
  commit := hm.commitIndex ▸ h.commit
  pending := h.pending.trans hm.pendingSnapshot
  snapCache := h.snapCache.trans hm.snapCache
  calls c hmem := (List.mem_append.mp hmem).elim (hc.sparesImage c) (h.calls c)

theorem Effect.Stays.grows (h : e.Stays n) : e.Grows n :=
  ⟨by rw [h.same.log], h.same.lastApplied, h.same.commitIndex.ge,
    h.same.pendingSnapshot, h.same.snapCache, h.saves.sparesImage⟩

theorem Node.appendNew_grows (n : Node) (req : AppendEntriesRequest) (new : List LogEntry) :
    (n.appendNew fail req new).1.Grows n := by
  have hadv : ∀ m : Node, (m.advanceCommit req).log = m.log ∧
      (m.advanceCommit req).lastApplied = m.lastApplied ∧
      m.commitIndex ≤ (m.advanceCommit req).commitIndex ∧
      (m.advanceCommit req).pendingSnapshot = m.pendingSnapshot ∧
      (m.advanceCommit req).snapCache = m.snapCache := by
    intro m
    unfold Node.advanceCommit
    split
    · exact ⟨rfl, rfl, by simp only; omega, rfl, rfl⟩
    · exact ⟨rfl, rfl, le_rfl, rfl, rfl⟩
  unfold Node.appendNew
  split
  · obtain ⟨h1, h2, h3, h4, h5⟩ := hadv n
    exact ⟨by rw [h1], h2, h3, h4, h5, by simp⟩
  simp only
  split
  · exact ⟨rfl, rfl, le_rfl, rfl, rfl, by simp [Call.SparesImage]⟩
  · obtain ⟨h1, h2, h3, h4, h5⟩ := hadv { n with log := n.log.append new }
    exact ⟨by simp only [h1]; rfl, h2, h3, h4, h5, by simp [Call.SparesImage]⟩

theorem Node.mergeEntries_grows (n : Node) (req : AppendEntriesRequest) :
    (n.mergeEntries fail req).1.Grows n := by
  unfold Node.mergeEntries
  split
  · exact n.appendNew_grows req _
  simp only
  split
  · exact ⟨rfl, rfl, le_rfl, rfl, rfl, by simp [Call.SparesImage]⟩
  · rename_i i new _ _
    set n' : Node := { n with log := n.log.truncateFrom i }
    have h : (n'.appendNew fail req new).1.Grows n' := n'.appendNew_grows req new
    refine ⟨h.first, h.applied, h.commit, h.pending, h.snapCache, fun c hc => ?_⟩
    rcases List.mem_append.mp hc with hc | hc
    · obtain rfl := List.mem_singleton.mp hc
      trivial
    · exact h.calls c hc

theorem Node.commitPropBatch_grows (n : Node) (batch : List Bytes) :
    (n.commitPropBatch fail batch).1.Grows n := by
  unfold Node.commitPropBatch
  split
  · exact (Effect.Stays.refl n).grows
  simp only
  split <;> exact ⟨rfl, rfl, le_rfl, rfl, rfl, by simp [Call.SparesImage]⟩

/-! ## The commit index -/

theorem Node.installLocked_commit (n : Node) (req : InstallSnapshotRequest) :
    n.commitIndex ≤ (n.installLocked fail req).1.node.commitIndex := by
  unfold Node.installLocked
  split
  · exact le_rfl
  simp only
  split
  · exact le_rfl
  · exact (not_le.mp ‹_›).le

theorem Node.snapshot_commit (n : Node) (index : ℕ) (data : Bytes) :
    (n.snapshot fail index data).1.node.commitIndex = n.commitIndex := by
  unfold Node.snapshot
  split
  · rfl
  split
  · rfl
  split
  · rfl
  simp only
  split <;> rfl

theorem Moves.commit_le {s : State} {file : Option Snapshot} {a : Action} {io : Io}
    (h : Moves s file n a io e) : n.commitIndex ≤ e.node.commitIndex := by
  cases h with
  | stays hq => exact hq.grows.commit
  | ship _ => exact le_rfl
  | @commit _ _ m idx hm hscan =>
    have hlt := (m.commitScan_spec hscan).1
    rw [hm.commitIndex] at hlt
    exact hlt.le
  | @merge _ _ _ _ req m _ _ _ _ _ hm hsaves _ =>
    exact ((m.mergeEntries_grows req).after hm hsaves).commit
  | @install _ _ _ _ req m _ _ _ _ hm _ _ => exact hm.commitIndex ▸ m.installLocked_commit req
  | propose _ => exact (n.commitPropBatch_grows _).commit
  | snapshot => exact (n.snapshot_commit _ _).ge

end KMC
