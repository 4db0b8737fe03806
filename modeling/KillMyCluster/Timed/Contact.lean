import KillMyCluster.Raft.Leads
import KillMyCluster.Timed.Model

/-! What a leader's message does to the node that gets it. A message of the node's own term, or of
a later one, makes it a follower of the sender and starts its election timer anew; any other
message of a leader leaves it alone. -/

namespace KMC

variable {n : Node} {fail : Call → Bool} {body : Body} {term leader : ℕ}

theorem Node.advanceCommit_node (n : Node) (req : AppendEntriesRequest) :
    ∃ ci, n.advanceCommit req = { n with commitIndex := ci } := by
  unfold Node.advanceCommit
  split <;> exact ⟨_, rfl⟩

theorem Node.appendNew_node (fail : Call → Bool) (n : Node) (req : AppendEntriesRequest)
    (new : List LogEntry) : ∃ log ci,
      (n.appendNew fail req new).1.node = { n with log := log, commitIndex := ci } := by
  unfold Node.appendNew
  simp only
  split_ifs
  · obtain ⟨ci, hci⟩ := n.advanceCommit_node req
    exact ⟨n.log, ci, hci⟩
  · exact ⟨_, n.commitIndex, rfl⟩
  · obtain ⟨ci, hci⟩ := advanceCommit_node { n with log := n.log.append new } req
    exact ⟨_, ci, hci⟩

/-- Replication touches the log and the commit index. -/
theorem Node.appendLocked_node (fail : Call → Bool) (n : Node) (req : AppendEntriesRequest) :
    ∃ log ci, (n.appendLocked fail req).1.node = { n with log := log, commitIndex := ci } := by
  unfold Node.appendLocked
  split_ifs
  · exact ⟨n.log, n.commitIndex, rfl⟩
  · exact ⟨n.log, n.commitIndex, rfl⟩
  unfold Node.mergeEntries
  split
  · exact n.appendNew_node fail req _
  simp only
  split_ifs
  · exact ⟨_, n.commitIndex, rfl⟩
  · rename_i i new _ _
    obtain ⟨log, ci, h⟩ := appendNew_node fail { n with log := n.log.truncateFrom i } req new
    exact ⟨log, ci, h⟩

theorem Node.installLocked_node (fail : Call → Bool) (n : Node) (req : InstallSnapshotRequest) :
    ∃ log ci applied pending snap, (n.installLocked fail req).1.node = { n with
      log := log, commitIndex := ci, lastApplied := applied, pendingSnapshot := pending,
      snapCache := snap } := by
  unfold Node.installLocked
  simp only
  split_ifs <;> exact ⟨_, _, _, _, _, rfl⟩

structure Node.Follows (n : Node) (term leader : ℕ) : Prop where
  role : n.role = .follower
  term : n.currentTerm = term
  leader : n.leaderID = leader

/-- Up to where a message is told apart: its term is adopted and not stale. -/
theorem Node.adoptTerm_fresh {t : ℕ} (h : n.currentTerm ≤ t) :
    (n.adoptTerm t).node.currentTerm = t := by
  unfold Node.adoptTerm
  split_ifs with hlt
  · rfl
  · exact le_antisymm h (not_lt.mp hlt)

theorem Node.handleAppendEntries_follows {req : AppendEntriesRequest} (hs : n.stopped = false)
    (hle : n.currentTerm ≤ req.term) :
    (n.handleAppendEntries fail req).1.node.Follows req.term req.leaderId := by
  have ht := adoptTerm_fresh hle
  obtain ⟨log, ci, h⟩ := appendLocked_node fail
    ((n.adoptTerm req.term).node.followLeader req.leaderId) req
  unfold Node.handleAppendEntries
  simp only [hs, Bool.false_eq_true, if_false, ht, lt_irrefl, Effect.after_node]
  rw [h]
  exact ⟨rfl, ht, rfl⟩

theorem Node.handleInstallSnapshot_follows {req : InstallSnapshotRequest} (hs : n.stopped = false)
    (hle : n.currentTerm ≤ req.term) :
    (n.handleInstallSnapshot fail req).1.node.Follows req.term req.leaderId := by
  have ht := adoptTerm_fresh hle
  obtain ⟨log, ci, _, _, _, h⟩ := installLocked_node fail
    ((n.adoptTerm req.term).node.followLeader req.leaderId) req
  unfold Node.handleInstallSnapshot
  simp only [hs, Bool.false_eq_true, if_false, ht, lt_irrefl, Effect.after_node]
  rw [h]
  exact ⟨rfl, ht, rfl⟩

/-- Neither a stopped node nor a stale message changes anything. -/
theorem Node.handleAppendEntries_ignores {req : AppendEntriesRequest}
    (h : n.stopped = true ∨ req.term < n.currentTerm) :
    (n.handleAppendEntries fail req).1 = { node := n } ∧
      (n.handleAppendEntries fail req).2.success = false := by
  unfold Node.handleAppendEntries Node.adoptTerm
  by_cases hs : n.stopped = true
  · simp [hs]
  · have hlt := h.resolve_left hs
    simp [hs, hlt, not_lt.mpr hlt.le]

theorem Node.handleInstallSnapshot_ignores {req : InstallSnapshotRequest}
    (h : n.stopped = true ∨ req.term < n.currentTerm) :
    (n.handleInstallSnapshot fail req).1 = { node := n } := by
  unfold Node.handleInstallSnapshot Node.adoptTerm
  by_cases hs : n.stopped = true
  · simp [hs]
  · have hlt := h.resolve_left hs
    simp [hs, hlt, not_lt.mpr hlt.le]

theorem Body.contacts_iff (hb : body.leader = some (term, leader)) :
    body.contacts n = true ↔ n.stopped = false ∧ n.currentTerm ≤ term := by
  simp [Body.contacts, hb]

theorem Body.not_contacts_iff (hb : body.leader = some (term, leader)) :
    body.contacts n = false ↔ n.stopped = true ∨ term < n.currentTerm := by
  rw [← Bool.not_eq_true, contacts_iff hb, not_and_or, Bool.not_eq_false, not_le]

/-- A leader's message is accepted or ignored. -/
theorem handle_leader (io : Io) (recent : Bool) (n : Node)
    (hb : body.leader = some (term, leader)) : body.contacts n = true ∧ n.currentTerm ≤ term ∧
        (handle io recent n body).1.node.Follows term leader ∨
      body.contacts n = false ∧ (handle io recent n body).1 = { node := n } := by
  cases hc : body.contacts n with
  | true =>
    obtain ⟨hs, hle⟩ := (Body.contacts_iff hb).mp hc
    refine .inl ⟨rfl, hle, ?_⟩
    cases body with
    | preVote | vote => cases hb
    | replicate req | heartbeat req =>
      obtain ⟨rfl, rfl⟩ := Prod.mk.inj (Option.some.inj hb)
      exact Node.handleAppendEntries_follows hs hle
    | snapshot req =>
      obtain ⟨rfl, rfl⟩ := Prod.mk.inj (Option.some.inj hb)
      exact Node.handleInstallSnapshot_follows hs hle
  | false =>
    refine .inr ⟨rfl, ?_⟩
    have h := (Body.not_contacts_iff hb).mp hc
    cases body with
    | preVote | vote => cases hb
    | replicate req | heartbeat req =>
      obtain ⟨rfl, rfl⟩ := Prod.mk.inj (Option.some.inj hb)
      exact (Node.handleAppendEntries_ignores h).1
    | snapshot req =>
      obtain ⟨rfl, rfl⟩ := Prod.mk.inj (Option.some.inj hb)
      exact Node.handleInstallSnapshot_ignores h

/-! ## Votes -/

/-- A request for a vote that makes the node adopt its term. -/
def Node.swayed (n : Node) (recent : Bool) (req : RequestVoteRequest) : Prop :=
  n.stopped = false ∧ req.preVote = false ∧ n.currentTerm < req.term ∧
    n.heardLeaderRecentlyLocked recent = false

theorem Node.handleRequestVote_swayed {recent : Bool} {req : RequestVoteRequest}
    (h : n.swayed recent req) : (n.handleRequestVote fail recent req).1.node.role = .follower := by
  obtain ⟨hs, hp, hlt, hno⟩ := h
  obtain ⟨v, hv⟩ := castVote_node fail (n.becomeFollowerLocked req.term).node req
  have ht : ¬ req.term < (n.becomeFollowerLocked req.term).node.currentTerm := lt_irrefl req.term
  unfold Node.handleRequestVote Node.adoptTerm
  simp only [hs, hp, hlt, hno, Bool.false_eq_true, and_false, if_false, if_true, ht,
    Effect.after_node]
  rw [hv]
  rfl

/-- Otherwise it votes at most in the term it is in. -/
theorem Node.handleRequestVote_unswayed (fail : Call → Bool) {recent : Bool}
    {req : RequestVoteRequest} (h : ¬ n.swayed recent req) :
    ∃ v, (n.handleRequestVote fail recent req).1.node = { n with votedFor := v } := by
  have hself : n = { n with votedFor := n.votedFor } := rfl
  unfold Node.handleRequestVote
  split
  · exact ⟨_, hself⟩
  split
  · exact ⟨_, hself⟩
  split
  · exact ⟨_, hself⟩
  rename_i hs hp hg
  have hle : ¬ n.currentTerm < req.term := by
    intro hlt
    refine h ⟨by simpa using hs, by simpa using hp, hlt, ?_⟩
    simpa [hlt] using hg
  simp only [Node.adoptTerm, if_neg hle]
  split
  · exact ⟨_, hself⟩
  · exact n.castVote_node fail req

end KMC
