import KillMyCluster.Election.Ledger
import KillMyCluster.Raft.Loops
import KillMyCluster.Raft.Steps

/-! What every critical section does to an election: standing for one starts a count of votes,
an answer to a request for a vote continues it, nothing else makes a candidate or a leader. -/

namespace KMC

structure Effect.Kept (n : Node) (e : Effect) : Prop where
  id : e.node.id = n.id
  peers : e.node.peers = n.peers
  ledger : Ledger n.hard e.calls e.node.hard

/-- The section neither asks for votes nor makes or changes a candidate or a leader. -/
structure Effect.Quiet (n : Node) (e : Effect) : Prop extends Effect.Kept n e where
  sends : ∀ q req, (q, Body.vote req) ∉ e.sends
  cand : e.node.role = .candidate →
    n.role = .candidate ∧ e.node.currentTerm = n.currentTerm ∧ e.node.votes = n.votes
  lead : e.node.role = .leader → n.role = .leader ∧ e.node.currentTerm = n.currentTerm

/-- The section starts an election in the next term. -/
structure Effect.Campaign (n : Node) (e : Effect) : Prop extends Effect.Kept n e where
  hard : e.node.hard = (n.currentTerm + 1, n.id)
  cand : e.node.role = .candidate → e.node.votes = 1
  lead : e.node.role = .leader → n.majority ≤ 1
  sends : ∀ (i q : ℕ) (req : RequestVoteRequest), e.sends[i]? = some (q, .vote req) →
    req.term = n.currentTerm + 1 ∧ req.preVote = false ∧ req.candidateId = n.id ∧
      n.peers[i]? = some q

/-- The section counts a vote given in the node's own term. -/
structure Effect.Counted (n : Node) (e : Effect) : Prop extends Effect.Kept n e where
  was : n.role = .candidate
  hard : e.node.hard = n.hard
  sends : e.sends = []
  cand : e.node.role = .candidate → e.node.votes = n.votes + 1
  lead : e.node.role = .leader → n.votes + 1 = n.majority

variable {n : Node} {fail : Call → Bool} {e : Effect} {q : ℕ}

/-- The node changes neither term nor vote, nor does it enter another role than follower. -/
theorem Effect.Quiet.same {n' : Node} {calls : List Call} {sends : List (ℕ × Body)}
    (hid : n'.id = n.id ∧ n'.peers = n.peers) (hh : n'.hard = n.hard)
    (hl : Ledger n.hard calls n.hard) (hs : ∀ q req, (q, Body.vote req) ∉ sends)
    (hr : n'.role = .follower ∨ n'.role = n.role ∧ n'.votes = n.votes) :
    Effect.Quiet n { node := n', calls := calls, sends := sends } := by
  refine ⟨⟨hid.1, hid.2, by rw [hh]; exact hl⟩, hs, fun hc => ?_, fun hc => ?_⟩
  · rcases hr with hr | ⟨hr, hv⟩
    · exact absurd (hr.symm.trans hc) (by simp)
    · exact ⟨hr ▸ hc, congrArg Prod.fst hh, hv⟩
  · rcases hr with hr | ⟨hr, -⟩
    · exact absurd (hr.symm.trans hc) (by simp)
    · exact ⟨hr ▸ hc, congrArg Prod.fst hh⟩

theorem Effect.Quiet.refl (n : Node) : Effect.Quiet n { node := n } :=
  .same ⟨rfl, rfl⟩ rfl rfl (by simp) (Or.inr ⟨rfl, rfl⟩)

theorem Effect.Quiet.trans {a : Effect} (ha : Effect.Quiet n a) (he : Effect.Quiet a.node e) :
    Effect.Quiet n (e.after a.calls) := by
  refine ⟨⟨he.id.trans ha.id, he.peers.trans ha.peers, ha.ledger.append he.ledger⟩, he.sends,
    fun hc => ?_, fun hc => ?_⟩
  · obtain ⟨h1, h2, h3⟩ := he.cand hc
    obtain ⟨h4, h5, h6⟩ := ha.cand h1
    exact ⟨h4, h2.trans h5, h3.trans h6⟩
  · obtain ⟨h1, h2⟩ := he.lead hc
    obtain ⟨h3, h4⟩ := ha.lead h1
    exact ⟨h3, h2.trans h4⟩

/-- A node that just became a follower may go on with anything that keeps it one. -/
theorem Effect.Quiet.of_follower {m : Node} (hm : m.role = .follower)
    (hid : m.id = n.id ∧ m.peers = n.peers) (hh : m.hard = n.hard) (he : Effect.Quiet m e) :
    Effect.Quiet n e := by
  refine ⟨⟨he.id.trans hid.1, he.peers.trans hid.2, hh ▸ he.ledger⟩, he.sends, fun hc => ?_,
    fun hc => ?_⟩
  · exact absurd (hm.symm.trans (he.cand hc).1) (by simp)
  · exact absurd (hm.symm.trans (he.lead hc).1) (by simp)

/-! ## Elections -/

theorem Node.becomeFollower_quiet {t : ℕ} (h : n.currentTerm < t) :
    (n.becomeFollowerLocked t).Quiet n where
  id := rfl
  peers := rfl
  ledger := ⟨Or.inl h, rfl⟩
  sends := by simp [Node.becomeFollowerLocked]
  cand := by simp [Node.becomeFollowerLocked]
  lead := by simp [Node.becomeFollowerLocked]

theorem Node.adoptTerm_quiet (n : Node) (t : ℕ) : (n.adoptTerm t).Quiet n := by
  unfold Node.adoptTerm
  split
  · rename_i h
    exact becomeFollower_quiet h
  · exact .refl n

section Reliable

variable (hf : ∀ t v, fail (.saveHardState t v) = false)
include hf

theorem Node.startElection_campaign (n : Node) : (n.startElectionLocked fail).Campaign n := by
  have hl : Ledger n.hard [.saveHardState (n.currentTerm + 1) n.id] (n.currentTerm + 1, n.id) :=
    ⟨Or.inl (Nat.lt_succ_self _), rfl⟩
  unfold Node.startElectionLocked
  simp only [hf, Bool.false_eq_true, if_false]
  split
  · rename_i hm
    exact ⟨⟨rfl, rfl, hl⟩, rfl, by simp [Node.becomeLeaderLocked], fun _ => hm, by simp⟩
  · refine ⟨⟨rfl, rfl, hl⟩, rfl, fun _ => rfl, by simp, fun i q req hi => ?_⟩
    rw [List.getElem?_map, Option.map_eq_some_iff] at hi
    obtain ⟨q', hq, heq⟩ := hi
    obtain ⟨rfl, h2⟩ := Prod.mk.inj heq
    obtain rfl := Body.vote.inj h2
    exact ⟨rfl, rfl, rfl, hq⟩

theorem Node.startPreVote_votes (n : Node) :
    (n.startPreVoteLocked fail).Quiet n ∨ (n.startPreVoteLocked fail).Campaign n := by
  unfold Node.startPreVoteLocked
  simp only
  split
  · exact Or.inr { startElection_campaign hf _ with }
  · exact Or.inl (.same ⟨rfl, rfl⟩ rfl rfl (by simp) (Or.inr ⟨rfl, rfl⟩))

theorem Node.castVote_quiet (n : Node) (req : RequestVoteRequest) :
    (n.castVote fail req).1.Quiet n := by
  unfold Node.castVote
  split
  · exact .refl n
  rename_i hv
  split
  · exact .refl n
  simp only [hf, Bool.false_eq_true, if_false]
  refine ⟨⟨rfl, rfl, ⟨Or.inr ⟨rfl, ?_⟩, rfl⟩⟩, by simp, fun hc => ⟨hc, rfl, rfl⟩,
    fun hc => ⟨hc, rfl⟩⟩
  change n.votedFor = req.candidateId ∨ n.votedFor = noVote
  tauto

theorem Node.handleRequestVote_quiet (n : Node) (recent : Bool) (req : RequestVoteRequest) :
    (n.handleRequestVote fail recent req).1.Quiet n := by
  unfold Node.handleRequestVote
  split
  · exact .refl n
  split
  · exact .refl n
  split
  · exact .refl n
  simp only
  split
  · exact n.adoptTerm_quiet _
  · exact (n.adoptTerm_quiet _).trans (castVote_quiet hf _ req)

end Reliable

/-- A granted vote was saved. -/
theorem Node.castVote_granted {req : RequestVoteRequest}
    (h : (n.castVote fail req).2.voteGranted = true) :
    (n.castVote fail req).1.node.hard = (n.currentTerm, req.candidateId) := by
  unfold Node.castVote at h ⊢
  split
  · simp_all
  split
  · simp_all
  simp only
  split
  · simp_all
  · rfl

theorem Node.handleRequestVote_granted {recent : Bool} {req : RequestVoteRequest}
    (hp : req.preVote = false) (h : (n.handleRequestVote fail recent req).2.voteGranted = true) :
    (n.handleRequestVote fail recent req).1.node.hard = (req.term, req.candidateId) := by
  unfold Node.handleRequestVote at h ⊢
  simp only [hp, Bool.false_eq_true, if_false] at h ⊢
  split
  · simp_all
  split
  · simp_all
  split
  · simp_all
  rename_i h1 h2 h3
  simp only [h1, h2, h3, if_false, Bool.false_eq_true] at h
  have hterm : (n.adoptTerm req.term).node.currentTerm = req.term := by
    have : n.currentTerm ≤ (n.adoptTerm req.term).node.currentTerm ∧
        req.term ≤ (n.adoptTerm req.term).node.currentTerm := by
      unfold Node.adoptTerm
      split
      · exact ⟨by simp [Node.becomeFollowerLocked]; omega, le_rfl⟩
      · exact ⟨le_rfl, by simp only; omega⟩
    omega
  have := castVote_granted h
  rwa [hterm] at this

/-! ## Replication -/

@[simp] theorem Node.advanceCommit_role (n : Node) (req : AppendEntriesRequest) :
    (n.advanceCommit req).role = n.role := by
  unfold Node.advanceCommit
  split <;> rfl

theorem Node.advanceCommit_fixed (n : Node) (req : AppendEntriesRequest) :
    ((n.advanceCommit req).id = n.id ∧ (n.advanceCommit req).peers = n.peers) ∧
      (n.advanceCommit req).hard = n.hard := by
  unfold Node.advanceCommit
  split <;> exact ⟨⟨rfl, rfl⟩, rfl⟩

theorem Node.appendNew_quiet (h : n.role = .follower) (req : AppendEntriesRequest)
    (new : List LogEntry) : (n.appendNew fail req new).1.Quiet n := by
  unfold Node.appendNew
  split
  · obtain ⟨h1, h2⟩ := n.advanceCommit_fixed req
    exact .same h1 h2 rfl (by simp) (Or.inl (by simpa using h))
  simp only
  split
  · exact .same ⟨rfl, rfl⟩ rfl rfl (by simp) (Or.inl h)
  · obtain ⟨h1, h2⟩ := advanceCommit_fixed { n with log := n.log.append new } req
    exact .same h1 h2 rfl (by simp) (Or.inl (by simpa using h))

theorem Node.appendLocked_quiet (h : n.role = .follower) (req : AppendEntriesRequest) :
    (n.appendLocked fail req).1.Quiet n := by
  unfold Node.appendLocked
  split
  · exact .refl n
  split
  · exact .refl n
  unfold Node.mergeEntries
  split
  · exact appendNew_quiet h req _
  rename_i i new _
  set m := { n with log := n.log.truncateFrom i } with hm
  have hcut : Effect.Quiet n { node := m, calls := [.truncateFrom i] } :=
    .same ⟨rfl, rfl⟩ rfl rfl (by simp) (Or.inl h)
  simp only
  split
  · exact hcut
  · exact hcut.trans (appendNew_quiet (n := m) h req new)

theorem Node.handleAppendEntries_quiet (n : Node) (req : AppendEntriesRequest) :
    (n.handleAppendEntries fail req).1.Quiet n := by
  unfold Node.handleAppendEntries
  split
  · exact .refl n
  simp only
  split
  · exact n.adoptTerm_quiet _
  · refine (n.adoptTerm_quiet _).trans
      (.of_follower (m := (n.adoptTerm req.term).node.followLeader req.leaderId)
        rfl ⟨rfl, rfl⟩ rfl ?_)
    exact appendLocked_quiet rfl req

theorem Node.installLocked_quiet (h : n.role = .follower) (req : InstallSnapshotRequest) :
    (n.installLocked fail req).1.Quiet n := by
  unfold Node.installLocked
  split
  · exact .refl n
  simp only
  split <;> exact .same ⟨rfl, rfl⟩ rfl ⟨rfl, rfl⟩ (by simp) (Or.inl h)

theorem Node.handleInstallSnapshot_quiet (n : Node) (req : InstallSnapshotRequest) :
    (n.handleInstallSnapshot fail req).1.Quiet n := by
  unfold Node.handleInstallSnapshot
  split
  · exact .refl n
  simp only
  split
  · exact n.adoptTerm_quiet _
  · refine (n.adoptTerm_quiet _).trans
      (.of_follower (m := (n.adoptTerm req.term).node.followLeader req.leaderId)
        rfl ⟨rfl, rfl⟩ rfl ?_)
    exact installLocked_quiet rfl req

theorem handle_quiet {io : Io} (hio : io.HardStates) (recent : Bool) (n : Node) (body : Body) :
    (handle io recent n body).1.Quiet n := by
  cases body with
  | preVote _ _ req => exact n.handleRequestVote_quiet hio.fail recent req
  | vote req => exact n.handleRequestVote_quiet hio.fail recent req
  | replicate req => exact n.handleAppendEntries_quiet req
  | heartbeat req => exact n.handleAppendEntries_quiet req
  | snapshot req => exact n.handleInstallSnapshot_quiet req

theorem Node.snapshot_quiet (n : Node) (index : ℕ) (data : Bytes) :
    (n.snapshot fail index data).1.Quiet n := by
  unfold Node.snapshot
  split
  · exact .refl n
  split
  · exact .refl n
  split
  · exact .refl n
  simp only
  split <;> exact .same ⟨rfl, rfl⟩ rfl ⟨rfl, rfl⟩ (by simp) (Or.inr ⟨rfl, rfl⟩)

theorem Node.commitPropBatch_quiet (n : Node) (batch : List Bytes) :
    (n.commitPropBatch fail batch).1.Quiet n := by
  unfold Node.commitPropBatch
  split
  · exact .refl n
  simp only
  split <;> exact .same ⟨rfl, rfl⟩ rfl rfl (by simp) (Or.inr ⟨rfl, rfl⟩)

theorem Node.replicateOnce_quiet {file : Option Snapshot} (h : n.replicateOnce file q = some e) :
    e.Quiet n := by
  obtain ⟨-, -, rfl | ⟨snap, -, -, rfl⟩ | ⟨-, rfl⟩⟩ := replicateOnce_cases h
  · exact .refl n
  · exact .same ⟨rfl, rfl⟩ rfl rfl (by simp) (Or.inr ⟨rfl, rfl⟩)
  · exact .same ⟨rfl, rfl⟩ rfl rfl (by simp) (Or.inr ⟨rfl, rfl⟩)

theorem Node.heartbeatAck_quiet (h : n.heartbeatAck q = some e) : e.Quiet n := by
  obtain ⟨-, -, -, rfl⟩ := heartbeatAck_cases h
  exact .same ⟨rfl, rfl⟩ rfl rfl (by simp) (Or.inr ⟨rfl, rfl⟩)

theorem Node.resign_quiet (h : n.resign = some e) : e.Quiet n := by
  obtain ⟨-, rfl⟩ := Node.resign_some h
  exact .same ⟨rfl, rfl⟩ rfl rfl (by simp) (Or.inl rfl)

/-- What an answer does to an election: nothing, start one, or count a vote. -/
theorem receive_votes {io : Io} (hio : io.HardStates) {body : Body} {resp : Response}
    (h : receive io n q body resp = some e) :
    e.Quiet n ∨ e.Campaign n ∨ ∃ req v, body = .vote req ∧ resp = .vote v ∧ e.Counted n ∧
      n.currentTerm = req.term ∧ v.voteGranted = true := by
  cases receive_cases h with
  | ignored => exact .inl (.refl n)
  | outvoted hlt => exact .inl (Node.becomeFollower_quiet hlt)
  | stands _ _ _ => exact .inr (.inl { Node.startElection_campaign hio.fail _ with })
  | @voted req v hrole hterm hg _ =>
    exact .inr (.inr ⟨req, v, rfl, rfl, ⟨⟨rfl, rfl, rfl⟩, hrole, rfl, rfl, fun _ => rfl,
      by simp [hrole]⟩, hterm, hg⟩)
  | @wins req v hrole hterm hg hm =>
    exact .inr (.inr ⟨req, v, rfl, rfl, ⟨⟨rfl, rfl, rfl⟩, hrole, rfl, rfl,
      by simp [Node.becomeLeaderLocked], fun _ => hm⟩, hterm, hg⟩)
  | acked _ _ _ =>
    unfold Node.maybeAdvanceCommitLocked
    split <;> exact .inl (.same ⟨rfl, rfl⟩ rfl rfl (by simp) (Or.inr ⟨rfl, rfl⟩))
  | polled | refused | installed =>
    exact .inl (.same ⟨rfl, rfl⟩ rfl rfl (by simp) (Or.inr ⟨rfl, rfl⟩))

theorem Node.applierTake_fixed {n' : Node} {batch : List ApplyMsg}
    (h : n.applierTake = some (n', batch)) : n'.id = n.id ∧ n'.peers = n.peers ∧
      n'.hard = n.hard ∧ n'.role = n.role ∧ n'.votes = n.votes := by
  obtain ⟨_, -, rfl, -⟩ | ⟨-, rfl, -⟩ := applierTake_cases h <;> exact ⟨rfl, rfl, rfl, rfl, rfl⟩

end KMC
