import KillMyCluster.Raft.Leads

/-! How terms travel. A node is in the term it was in before, in that of a request or an answer it
got, or in the one of an election it stands for; and it stands for one only when the answers to
its poll say so. What it saves and sends names one of these terms. -/

namespace KMC

/-- The term of a request. A pre-vote request has none: its term is that of an election that may
never be. -/
def Body.realTerm : Body → Option ℕ
  | .preVote .. => none
  | .vote req => some req.term
  | .replicate req | .heartbeat req => some req.term
  | .snapshot req => some req.term

def Call.hardTerm : Call → Option ℕ
  | .saveHardState t _ => some t
  | .saveSnapshot _ t _ _ => some t
  | _ => none

def Node.poll (n : Node) : ℕ × List ℕ × ℕ × ℕ := (n.id, n.peers, n.preVoteRound, n.preVotes)

/-- A section that neither polls nor stands: `msg` is the term of the message it handles. -/
structure Effect.Hears (n : Node) (msg : Option ℕ) (e : Effect) : Prop where
  term : e.node.currentTerm = n.currentTerm ∨ msg = some e.node.currentTerm
  calls : ∀ c ∈ e.calls, ∀ T, c.hardTerm = some T → T = n.currentTerm ∨ T = e.node.currentTerm
  sends : ∀ q body, (q, body) ∈ e.sends → body.realTerm = some e.node.currentTerm
  poll : e.node.poll = n.poll

variable {n m : Node} {fail : Call → Bool} {e : Effect} {msg : Option ℕ}

theorem Effect.Hears.same {calls : List Call} (ht : m.currentTerm = n.currentTerm)
    (hp : m.poll = n.poll) (hc : ∀ c ∈ calls, ∀ T, c.hardTerm = some T → T = n.currentTerm) :
    Effect.Hears n msg { node := m, calls := calls } :=
  ⟨.inl ht, fun c hm T hT => .inl (hc c hm T hT), by simp, hp⟩

theorem Effect.Hears.refl (n : Node) : Effect.Hears n msg { node := n } :=
  .same rfl rfl (by simp)

theorem Node.becomeFollower_hears (n : Node) (t : ℕ) :
    (n.becomeFollowerLocked t).Hears n (some t) :=
  ⟨.inr rfl, by simp [Node.becomeFollowerLocked, Call.hardTerm],
    by simp [Node.becomeFollowerLocked], rfl⟩

theorem Node.adoptTerm_hears (n : Node) (t : ℕ) : (n.adoptTerm t).Hears n (some t) := by
  unfold Node.adoptTerm
  split
  · exact n.becomeFollower_hears t
  · exact .refl n

/-- After the guard the section goes on within the term it has reached. -/
theorem Effect.Hears.trans {a : Effect} (ha : a.Hears n msg) (he : e.Hears a.node none) :
    (e.after a.calls).Hears n msg := by
  have hterm : e.node.currentTerm = a.node.currentTerm := he.term.resolve_right (by simp)
  refine ⟨?_, fun c hc T hT => ?_, he.sends, he.poll.trans ha.poll⟩
  · rw [Effect.after_node, hterm]
    exact ha.term
  · rw [Effect.after_node, hterm]
    rcases List.mem_append.mp hc with hc | hc
    · exact ha.calls c hc T hT
    · exact .inr ((he.calls c hc T hT).elim id fun h => h.trans hterm)

/-- The part behind a change that concerns neither term nor poll. -/
theorem Effect.Hears.of_same (ht : m.currentTerm = n.currentTerm) (hp : m.poll = n.poll)
    (he : e.Hears m msg) : e.Hears n msg :=
  ⟨ht ▸ he.term, ht ▸ he.calls, he.sends, he.poll.trans hp⟩

/-! ## Handlers -/

theorem Node.castVote_hears (n : Node) (req : RequestVoteRequest) :
    (n.castVote fail req).1.Hears n none := by
  unfold Node.castVote
  split
  · exact .refl n
  split
  · exact .refl n
  simp only
  split <;> exact .same rfl rfl (by simp [Call.hardTerm])

theorem Node.handleRequestVote_hears (n : Node) (recent : Bool) (req : RequestVoteRequest) :
    (n.handleRequestVote fail recent req).1.Hears n (some req.term) := by
  unfold Node.handleRequestVote
  split
  · exact .refl n
  split
  · exact .refl n
  split
  · exact .refl n
  simp only
  split
  · exact n.adoptTerm_hears _
  · exact (n.adoptTerm_hears _).trans (Node.castVote_hears _ req)

/-- A poll moves nobody. -/
theorem Node.handlePreVote_hears (n : Node) (recent : Bool) {req : RequestVoteRequest}
    (hp : req.preVote = true) : (n.handleRequestVote fail recent req).1.Hears n none := by
  unfold Node.handleRequestVote
  simp only [hp, if_true]
  split <;> exact .refl n

theorem Node.advanceCommit_hears (n : Node) (req : AppendEntriesRequest) :
    Effect.Hears n none { node := n.advanceCommit req } := by
  unfold Node.advanceCommit
  split
  · exact .same rfl rfl (by simp)
  · exact .refl n

theorem Node.appendNew_hears (n : Node) (req : AppendEntriesRequest) (new : List LogEntry) :
    (n.appendNew fail req new).1.Hears n none := by
  unfold Node.appendNew
  split
  · exact n.advanceCommit_hears req
  simp only
  split
  · exact .same rfl rfl (by simp [Call.hardTerm])
  · have h := advanceCommit_hears { n with log := n.log.append new } req
    exact ⟨h.term, by simp [Call.hardTerm], by simp, h.poll⟩

theorem Node.appendLocked_hears (n : Node) (req : AppendEntriesRequest) :
    (n.appendLocked fail req).1.Hears n none := by
  unfold Node.appendLocked
  split
  · exact .refl n
  split
  · exact .refl n
  unfold Node.mergeEntries
  split
  · exact n.appendNew_hears req _
  rename_i i new _
  have hcut : Effect.Hears n none
      { node := { n with log := n.log.truncateFrom i }, calls := [.truncateFrom i] } :=
    .same rfl rfl (by simp [Call.hardTerm])
  simp only
  split
  · exact hcut
  · exact hcut.trans (appendNew_hears { n with log := n.log.truncateFrom i } req new)

theorem Node.handleAppendEntries_hears (n : Node) (req : AppendEntriesRequest) :
    (n.handleAppendEntries fail req).1.Hears n (some req.term) := by
  unfold Node.handleAppendEntries
  split
  · exact .refl n
  simp only
  split
  · exact n.adoptTerm_hears _
  · refine (n.adoptTerm_hears _).trans
      (.of_same (m := (n.adoptTerm req.term).node.followLeader req.leaderId) rfl rfl ?_)
    exact Node.appendLocked_hears _ req

theorem Node.installLocked_hears (n : Node) (req : InstallSnapshotRequest) :
    (n.installLocked fail req).1.Hears n none := by
  unfold Node.installLocked
  split
  · exact .refl n
  simp only
  split <;> exact .same rfl rfl (by simp [Call.hardTerm])

theorem Node.handleInstallSnapshot_hears (n : Node) (req : InstallSnapshotRequest) :
    (n.handleInstallSnapshot fail req).1.Hears n (some req.term) := by
  unfold Node.handleInstallSnapshot
  split
  · exact .refl n
  simp only
  split
  · exact n.adoptTerm_hears _
  · refine (n.adoptTerm_hears _).trans
      (.of_same (m := (n.adoptTerm req.term).node.followLeader req.leaderId) rfl rfl ?_)
    exact Node.installLocked_hears _ req

theorem handle_hears {io : Io} {recent : Bool} {body : Body}
    (hp : ∀ term round req, body = .preVote term round req → req.preVote = true) :
    (handle io recent n body).1.Hears n body.realTerm := by
  cases body with
  | preVote _ _ req => exact n.handlePreVote_hears recent (hp _ _ req rfl)
  | vote req => exact n.handleRequestVote_hears recent req
  | replicate req => exact n.handleAppendEntries_hears req
  | heartbeat req => exact n.handleAppendEntries_hears req
  | snapshot req => exact n.handleInstallSnapshot_hears req

/-! ## Answers carry the term their sender is left in -/

theorem Node.castVote_answer (n : Node) (req : RequestVoteRequest) :
    (n.castVote fail req).2.term = (n.castVote fail req).1.node.currentTerm := by
  unfold Node.castVote
  split
  · rfl
  split
  · rfl
  simp only
  split <;> rfl

theorem Node.handleRequestVote_answer (n : Node) (recent : Bool) (req : RequestVoteRequest) :
    (n.handleRequestVote fail recent req).2.term =
      (n.handleRequestVote fail recent req).1.node.currentTerm := by
  unfold Node.handleRequestVote
  split
  · rfl
  split
  · rfl
  split
  · rfl
  simp only
  split
  · rfl
  · exact Node.castVote_answer _ req

theorem Node.handleInstallSnapshot_answer (n : Node) (req : InstallSnapshotRequest) :
    (n.handleInstallSnapshot fail req).2.term =
      (n.handleInstallSnapshot fail req).1.node.currentTerm := by
  unfold Node.handleInstallSnapshot
  split
  · rfl
  simp only
  split
  · rfl
  unfold Node.installLocked
  split
  · rfl
  simp only
  split <;> rfl

theorem handle_answer (io : Io) (recent : Bool) (n : Node) (body : Body) :
    (handle io recent n body).2.term = (handle io recent n body).1.node.currentTerm := by
  cases body with
  | preVote _ _ req => exact n.handleRequestVote_answer recent req
  | vote req => exact n.handleRequestVote_answer recent req
  | replicate req => exact n.handleAppendEntries_term req
  | heartbeat req => exact n.handleAppendEntries_term req
  | snapshot req => exact n.handleInstallSnapshot_answer req

/-! ## Sections -/

inductive Heard (s : State) : Action → ℕ → Prop
  | request {k T : ℕ} {recent : Bool} {io : Io} {r : Rpc} : s.rpcs[k]? = some r →
      r.body.realTerm = some T → Heard s (.deliver k recent io) T
  | answer {k j : ℕ} {io : Io} {r : Rpc} {resp : Response} : s.rpcs[k]? = some r →
      resp ∈ r.resps → Heard s (.respond k j io) resp.term

def Node.pollRequest (n : Node) : RequestVoteRequest where
  term := n.currentTerm + 1
  candidateId := n.id
  lastLogIndex := n.log.lastIndex
  lastLogTerm := n.log.lastTerm
  preVote := true

/-- A node with at least one peer opens a poll: it asks every peer, in a new round. -/
def Node.polling (n : Node) : Effect where
  node := { n with
    electionAttempts := n.electionAttempts + 1
    preVoteRound := n.preVoteRound + 1
    preVotes := 1 }
  sends := n.peers.map fun q => (q, .preVote n.currentTerm (n.preVoteRound + 1) n.pollRequest)

inductive TermMove (s : State) (n : Node) (p : ℕ) : Action → Effect → Prop
  | hears {a : Action} {msg : Option ℕ} {e : Effect} : e.Hears n msg →
      (∀ T ∈ msg, Heard s a T) → TermMove s n p a e
  | polls {io : Io} : TermMove s n p (.tick p io) n.polling
  | counts {k j : ℕ} {io : Io} {r : Rpc} {req : RequestVoteRequest} {resp : RequestVoteResponse}
      {e : Effect} : s.rpcs[k]? = some r → r.src = p → r.epoch = (s.servers p).epoch →
      r.handled = false → r.body = .preVote n.currentTerm n.preVoteRound req →
      r.resps[j]? = some (.vote resp) → resp.voteGranted = true →
      (n.preVotes + 1 ≠ n.majority ∧ e = { node := { n with preVotes := n.preVotes + 1 } } ∨
        n.preVotes + 1 = n.majority ∧
          e = Node.startElectionLocked io.fail { n with preVotes := n.preVotes + 1 }) →
      TermMove s n p (.respond k j io) e

variable {cfg : Config} {s t : State} {a : Action} {p : ℕ} {io : Io}

theorem Node.startPreVote_polling (hm : 1 < n.majority) :
    n.startPreVoteLocked fail = n.polling := by
  unfold Node.startPreVoteLocked
  simp only
  rw [if_neg]
  · rfl
  · exact not_le.mpr hm

/-- Standing for election: the next term, saved with the own vote, is the one that goes out. -/
structure Effect.Stands (n : Node) (e : Effect) : Prop where
  term : e.node.currentTerm = n.currentTerm + 1
  calls : e.calls = [.saveHardState (n.currentTerm + 1) n.id]
  sends : ∀ q body, (q, body) ∈ e.sends → body.realTerm = some (n.currentTerm + 1)
  poll : e.node.poll = n.poll

theorem Node.startElection_stands (n : Node) : (n.startElectionLocked fail).Stands n := by
  unfold Node.startElectionLocked
  simp only
  split
  · exact ⟨rfl, rfl, by simp, rfl⟩
  split
  · exact ⟨rfl, rfl, by simp, rfl⟩
  · exact ⟨rfl, rfl, by simp [Body.realTerm], rfl⟩

/-- A leader's requests are of its own term. -/
theorem Node.replicateOnce_hears {file : Option Snapshot} {q : ℕ}
    (h : n.replicateOnce file q = some e) : e.Hears n none := by
  obtain ⟨-, -, rfl | ⟨snap, -, -, rfl⟩ | ⟨-, rfl⟩⟩ := replicateOnce_cases h
  · exact .refl n
  · exact ⟨.inl rfl, by simp, by simp [Body.realTerm], rfl⟩
  · exact ⟨.inl rfl, by simp, by simp [Body.realTerm, Node.appendRequest], rfl⟩

theorem Node.heartbeatAck_hears {q : ℕ} (h : n.heartbeatAck q = some e) : e.Hears n none := by
  obtain ⟨-, -, -, rfl⟩ := heartbeatAck_cases h
  exact ⟨.inl rfl, by simp, by simp [Body.realTerm, Node.appendRequest], rfl⟩

theorem Node.snapshot_hears (n : Node) (index : ℕ) (data : Bytes) :
    (n.snapshot fail index data).1.Hears n none := by
  unfold Node.snapshot
  split
  · exact .refl n
  split
  · exact .refl n
  split
  · exact .refl n
  simp only
  split <;> exact .same rfl rfl (by simp [Call.hardTerm])

theorem Node.commitPropBatch_hears (n : Node) (batch : List Bytes) :
    (n.commitPropBatch fail batch).1.Hears n none := by
  unfold Node.commitPropBatch
  split
  · exact .refl n
  simp only
  split <;> exact .same rfl rfl (by simp [Call.hardTerm])

theorem receive_terms {k j : ℕ} {r : Rpc} {resp : Response} (hr : s.rpcs[k]? = some r)
    (hresp : r.resps[j]? = some resp) (hun : r.handled = false)
    (hep : (s.servers r.src).epoch = r.epoch) (h : receive io n r.dst r.body resp = some e) :
    TermMove s n r.src (.respond k j io) e := by
  have hmem := List.mem_of_getElem? hresp
  have hheard : ∀ T ∈ some resp.term, Heard s (.respond k j io) T := by
    rintro T hT
    obtain rfl := Option.some.inj hT
    exact .answer hr hmem
  generalize hb : r.body = body at h
  cases receive_cases h with
  | ignored => exact .hears (.refl n) hheard
  | outvoted _ => exact .hears (n.becomeFollower_hears _) hheard
  | polled _ hg hm => exact .counts hr rfl hep.symm hun hb hresp hg (.inl ⟨hm, rfl⟩)
  | stands _ hg hm => exact .counts hr rfl hep.symm hun hb hresp hg (.inr ⟨hm, rfl⟩)
  | @acked req _ _ _ _ =>
    obtain ⟨ci, hci⟩ := (n.raiseMatch r.dst
      (req.prevLogIndex + req.entries.length)).maybeAdvanceCommit_node
    rw [hci]
    exact .hears (.same rfl rfl (by simp)) hheard
  | voted | wins | refused | installed => exact .hears (.same rfl rfl (by simp)) hheard

theorem Section.terms (h : Section cfg s n a p io e t) (hm : 1 < n.majority)
    (hp : ∀ (k : ℕ) (r : Rpc) term round req, s.rpcs[k]? = some r →
      r.body = .preVote term round req → req.preVote = true) : TermMove s n p a e := by
  have hnone : ∀ T ∈ (none : Option ℕ), Heard s a T := by simp
  cases h with
  | tick he =>
    obtain ⟨-, rfl⟩ := Node.timeout_some he
    rw [Node.startPreVote_polling hm]
    exact .polls
  | stepDown he =>
    obtain ⟨-, rfl⟩ := Node.resign_some he
    exact .hears (.same rfl rfl (by simp)) hnone
  | deliver hr =>
    exact .hears (handle_hears fun _ _ _ => hp _ _ _ _ _ hr) fun T hT => .request hr hT
  | respond hr hresp hun hep he => exact receive_terms hr hresp hun hep he
  | propose => exact .hears (n.commitPropBatch_hears _) hnone
  | replicate _ he => exact .hears (Node.replicateOnce_hears he) hnone
  | heartbeat _ he => exact .hears (Node.heartbeatAck_hears he) hnone
  | lease => exact .hears (.same rfl rfl (by simp)) hnone
  | snapshot => exact .hears (n.snapshot_hears _ _) hnone

end KMC
