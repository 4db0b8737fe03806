import KillMyCluster.Read.Lease
import KillMyCluster.Timed.Contact

/-! What a timed step does to the clocks by which a leader watches itself. A node that leads after
a step was elected in it, with fresh clocks, or led before; then a contact is noted only for a peer
that has answered, and progress whenever the commit index has moved. -/

namespace KMC

namespace Clocks

variable {tm : Timings} {now : ℤ} {draw k term peer : ℕ} {fail : Call → Bool} {c c' : Clocks}
  {n m : Node} {body : Body} {resp : Response} {io : Io} {e : Effect} {b : Action}

structure Seeded (now : ℤ) (m : Node) (c : Clocks) : Prop where
  contact : ∀ q, c.lastContact q = if q ∈ m.peers then some now else none
  check : c.lastQuorumCheck = some now
  progress : c.lastCommitProgress = some now
  index : c.lastProgressIndex = m.commitIndex
  lease : c.readLeaseUntil = none

/-- The watchdog starts its clock anew: nothing waits to be committed, or the commit index is not
the one it remembers. -/
def Renews (n : Node) (c : Clocks) : Prop :=
  n.log.lastIndex ≤ n.commitIndex ∨ c.lastCommitProgress = none ∨
    n.commitIndex ≠ c.lastProgressIndex

structure Keeps (now : ℤ) (n m : Node) (answered : ℕ → Prop) (quorate : Prop) (c c' : Clocks) :
    Prop where
  contact : ∀ q, c'.lastContact q = c.lastContact q ∨ c'.lastContact q = some now ∧ answered q
  check : c'.lastQuorumCheck = c.lastQuorumCheck ∨ c'.lastQuorumCheck = some now ∧ quorate
  progress : (c'.lastCommitProgress = some now ∧ c'.lastProgressIndex = m.commitIndex ∧
      (m.commitIndex ≠ n.commitIndex ∨ Renews n c)) ∨
    m.commitIndex = n.commitIndex ∧ c'.lastCommitProgress = c.lastCommitProgress ∧
      c'.lastProgressIndex = c.lastProgressIndex

def watch (c : Clocks) : (ℕ → Option ℤ) × Option ℤ × Option ℤ × ℕ :=
  (c.lastContact, c.lastQuorumCheck, c.lastCommitProgress, c.lastProgressIndex)

theorem Keeps.of_watch {answered : ℕ → Prop} {quorate : Prop} (h : c'.watch = c.watch)
    (hm : m.commitIndex = n.commitIndex) : Keeps now n m answered quorate c c' := by
  simp only [watch, Prod.mk.injEq] at h
  obtain ⟨h1, h2, h3, h4⟩ := h
  exact ⟨fun q => .inl (congrFun h1 q), .inl h2, .inr ⟨hm, h3, h4⟩⟩

theorem seeded_becomeLeader (now : ℤ) (n : Node) (c : Clocks) :
    Seeded now n (c.becomeLeaderLocked now n) := ⟨fun _ => rfl, rfl, rfl, rfl, rfl⟩

theorem reset_watch (h : c.resetElectionTimerLocked tm now draw k = some c') :
    c'.watch = c.watch := by
  obtain ⟨d, -, rfl⟩ := Option.map_eq_some_iff.mp h
  rfl

theorem leaveOffice_watch (h : c.leaveOffice tm now draw n = some c') : c'.watch = c.watch :=
  reset_watch (c := { c with readLeaseUntil := none }) h

theorem adoptTerm_watch (h : c.adoptTerm tm now draw n term = some c') : c'.watch = c.watch := by
  unfold adoptTerm at h
  split at h
  · exact leaveOffice_watch h
  · obtain rfl := Option.some.inj h
    rfl

theorem handleRequestVote_watch {req : RequestVoteRequest} {granted : Bool}
    (h : c.handleRequestVote tm now draw n req granted = some c') : c'.watch = c.watch := by
  unfold handleRequestVote at h
  split at h
  · exact Option.some.inj h ▸ rfl
  split at h
  · exact Option.some.inj h ▸ rfl
  split at h
  · exact Option.some.inj h ▸ rfl
  obtain ⟨d, hd, h⟩ := Option.bind_eq_some_iff.mp h
  split at h
  · exact (reset_watch h).trans (adoptTerm_watch hd)
  · exact Option.some.inj h ▸ adoptTerm_watch hd

theorem hearLeader_watch (h : c.hearLeader tm now draw n term = some c') : c'.watch = c.watch := by
  unfold hearLeader at h
  split at h
  · exact Option.some.inj h ▸ rfl
  obtain ⟨d, hd, h⟩ := Option.bind_eq_some_iff.mp h
  split at h
  · exact Option.some.inj h ▸ adoptTerm_watch hd
  · exact (reset_watch h).trans (adoptTerm_watch hd)

theorem handle_watch (h : c.handle tm now draw n body resp = some c') : c'.watch = c.watch := by
  cases body with
  | preVote | vote =>
    cases resp with
    | vote _ => exact handleRequestVote_watch h
    | _ => exact Option.some.inj h ▸ rfl
  | replicate | heartbeat | snapshot => exact hearLeader_watch h

theorem reset_lease (h : c.resetElectionTimerLocked tm now draw k = some c') :
    c'.readLeaseUntil = c.readLeaseUntil := by
  obtain ⟨d, -, rfl⟩ := Option.map_eq_some_iff.mp h
  rfl

theorem adoptTerm_lease (h : c.adoptTerm tm now draw n term = some c') :
    c'.readLeaseUntil = c.readLeaseUntil ∨ n.currentTerm < term := by
  unfold adoptTerm at h
  split_ifs at h with hlt
  · exact .inr hlt
  · exact .inl (Option.some.inj h ▸ rfl)

/-- Only a message of a later term costs a node its lease. -/
theorem handleRequestVote_lease {req : RequestVoteRequest} {granted : Bool}
    (h : c.handleRequestVote tm now draw n req granted = some c') :
    c'.readLeaseUntil = c.readLeaseUntil ∨ n.swayed (c.recent tm now) req := by
  unfold handleRequestVote at h
  split at h
  · exact .inl (Option.some.inj h ▸ rfl)
  split at h
  · exact .inl (Option.some.inj h ▸ rfl)
  split at h
  · exact .inl (Option.some.inj h ▸ rfl)
  rename_i hs hp hg
  obtain ⟨d, hd, h⟩ := Option.bind_eq_some_iff.mp h
  have hc' : c'.readLeaseUntil = d.readLeaseUntil := by
    split at h
    · exact reset_lease h
    · exact Option.some.inj h ▸ rfl
  refine (adoptTerm_lease hd).imp hc'.trans fun hlt => ?_
  refine ⟨by simpa using hs, by simpa using hp, hlt, ?_⟩
  simpa [hlt] using hg

theorem hearLeader_lease (h : c.hearLeader tm now draw n term = some c') :
    c'.readLeaseUntil = c.readLeaseUntil ∨ n.stopped = false ∧ n.currentTerm ≤ term := by
  unfold hearLeader at h
  split at h
  · exact .inl (Option.some.inj h ▸ rfl)
  rename_i hs
  obtain ⟨d, hd, h⟩ := Option.bind_eq_some_iff.mp h
  have hc' : c'.readLeaseUntil = d.readLeaseUntil := by
    split at h
    · exact Option.some.inj h ▸ rfl
    · exact reset_lease h
  exact (adoptTerm_lease hd).imp hc'.trans fun hlt => ⟨by simpa using hs, hlt.le⟩

/-- A node that leads after a message has kept its lease. -/
theorem handle_lease (h : c.handle tm now draw n body resp = some c')
    (hl : (KMC.handle io (c.recent tm now) n body).1.node.role = .leader) :
    c'.readLeaseUntil = c.readLeaseUntil := by
  have hvote : ∀ req granted, c.handleRequestVote tm now draw n req granted = some c' →
      (n.handleRequestVote io.fail (c.recent tm now) req).1.node.role = .leader →
      c'.readLeaseUntil = c.readLeaseUntil := by
    intro req granted h hl
    refine (handleRequestVote_lease h).resolve_right fun hsw => ?_
    rw [Node.handleRequestVote_swayed hsw] at hl
    cases hl
  have hlead : ∀ term leader, body.leader = some (term, leader) →
      c.hearLeader tm now draw n term = some c' → c'.readLeaseUntil = c.readLeaseUntil := by
    intro term leader hb h
    refine (hearLeader_lease h).resolve_right fun hx => ?_
    obtain ⟨hs, hle⟩ := hx
    rcases handle_leader io (c.recent tm now) n hb with
      ⟨-, -, hf⟩ | ⟨hno, -⟩
    · rw [hf.role] at hl
      cases hl
    · simp [Body.contacts, hb, hs, hle] at hno
  cases body with
  | preVote | vote =>
    cases resp with
    | vote _ => exact hvote _ _ h hl
    | _ => exact Option.some.inj h ▸ rfl
  | replicate | heartbeat | snapshot => exact hlead _ _ rfl h

/-! ## Answers -/

theorem startElection_seeded (h : c.startElectionLocked tm now draw fail n = some c')
    (hl : (n.startElectionLocked fail).node.role = .leader) :
    Seeded now (n.startElectionLocked fail).node c' := by
  obtain ⟨d, -, h⟩ := Option.bind_eq_some_iff.mp h
  simp only [if_pos hl] at h
  obtain rfl := Option.some.inj h
  exact seeded_becomeLeader ..

theorem startPreVote_seeded (h : c.startPreVoteLocked tm now draw fail n = some c')
    (hn : n.role ≠ .leader) (hl : (n.startPreVoteLocked fail).node.role = .leader) :
    Seeded now (n.startPreVoteLocked fail).node c' := by
  obtain ⟨d, -, h⟩ := Option.bind_eq_some_iff.mp h
  unfold Node.startPreVoteLocked at hl ⊢
  simp only at h hl ⊢
  by_cases hm : n.majority ≤ 1
  · rw [if_pos (by exact hm)] at h hl ⊢
    exact startElection_seeded h hl
  · rw [if_neg (by exact hm)] at hl
    exact absurd hl hn

inductive Answered (now : ℤ) (peer : ℕ) (n m : Node) (c c' : Clocks) : Prop
  | elected : n.role ≠ .leader → Seeded now m c' → Answered now peer n m c c'
  | kept : n.role = .leader → m.currentTerm = n.currentTerm → m.peers = n.peers →
      c'.readLeaseUntil = c.readLeaseUntil → Keeps now n m (· = peer) False c c' →
      Answered now peer n m c c'

/-- The answer is not for this leadership. -/
theorem Answered.ignored (hl : n.role = .leader) (h : some c = some c') :
    Answered now peer n n c c' := by
  obtain rfl := Option.some.inj h
  exact .kept hl rfl rfl rfl (.of_watch rfl rfl)

theorem noteContact_contact (c : Clocks) (now : ℤ) (peer q : ℕ) :
    (c.noteContactLocked now peer).lastContact q = c.lastContact q ∨
      (c.noteContactLocked now peer).lastContact q = some now ∧ q = peer := by
  by_cases hq : q = peer
  · exact .inr ⟨by simp [noteContactLocked, hq], hq⟩
  · exact .inl (by simp [noteContactLocked, hq])

theorem onPreVoteResponse_answered {round : ℕ} {resp : RequestVoteResponse}
    (h : c.onPreVoteResponse tm now draw io.fail n term round resp = some c')
    (hl : (n.onPreVoteResponse io.fail term round resp).node.role = .leader) :
    Answered now peer n (n.onPreVoteResponse io.fail term round resp).node c c' := by
  unfold Node.onPreVoteResponse at hl ⊢
  unfold onPreVoteResponse at h
  simp only at h hl ⊢
  split_ifs at h hl ⊢ with h1 h2 h3 h4
  · exact .ignored hl h
  · cases hl
  · exact .ignored hl h
  · simp only [not_or, not_not] at h3
    exact .elected (by simp [h3.1]) (startElection_seeded h hl)
  · simp only [not_or, not_not] at h3
    exact absurd (h3.1.symm.trans hl) (by decide)

theorem onVoteResponse_answered {resp : RequestVoteResponse}
    (h : c.onVoteResponse tm now draw n term resp = some c')
    (hl : (n.onVoteResponse term resp).node.role = .leader) :
    Answered now peer n (n.onVoteResponse term resp).node c c' := by
  unfold Node.onVoteResponse at hl ⊢
  unfold onVoteResponse at h
  simp only at h hl ⊢
  split_ifs at h hl ⊢ with h1 h2 h3 h4
  · exact .ignored hl h
  · cases hl
  · exact .ignored hl h
  · obtain rfl := Option.some.inj h
    simp only [not_or, not_not] at h3
    exact .elected (by simp [h3.1]) ⟨fun _ => rfl, rfl, rfl, rfl, rfl⟩
  · simp only [not_or, not_not] at h3
    exact absurd (h3.1.symm.trans hl) (by decide)

theorem onAppendResponse_kept (peer : ℕ) (req : AppendEntriesRequest)
    {resp : AppendEntriesResponse} (hle : ¬ n.currentTerm < resp.term) :
    (n.onAppendResponse peer req resp).node.currentTerm = n.currentTerm ∧
      (n.onAppendResponse peer req resp).node.peers = n.peers := by
  unfold Node.onAppendResponse
  rw [if_neg hle]
  split_ifs
  · exact ⟨rfl, rfl⟩
  · exact ⟨rfl, rfl⟩
  · obtain ⟨ci, hci⟩ := (n.raiseMatch peer
      (req.prevLogIndex + req.entries.length)).maybeAdvanceCommit_node
    rw [hci]
    exact ⟨rfl, rfl⟩
  · exact ⟨rfl, rfl⟩

theorem onAppendResponse_answered {req : AppendEntriesRequest} {resp : AppendEntriesResponse}
    (h : c.onAppendResponse tm now draw n peer req resp = some c')
    (hl : (n.onAppendResponse peer req resp).node.role = .leader) :
    Answered now peer n (n.onAppendResponse peer req resp).node c c' := by
  unfold onAppendResponse at h
  simp only at h
  split_ifs at h with h1 h2 h3 h4
  · simp only [Node.onAppendResponse, if_pos h1] at hl ⊢
    exact .ignored hl h
  · simp only [Node.onAppendResponse, if_neg h1, if_pos h2] at hl
    cases hl
  · simp only [Node.onAppendResponse, if_neg h1, if_neg h2, if_pos h3] at hl ⊢
    exact .ignored hl h
  · obtain rfl := Option.some.inj h
    simp only [not_or, not_not] at h3
    obtain ⟨hterm, hpeers⟩ := onAppendResponse_kept peer req h2
    exact .kept h3.1 hterm hpeers rfl
      ⟨noteContact_contact c now peer, .inl rfl, .inr ⟨h4, rfl, rfl⟩⟩
  · obtain rfl := Option.some.inj h
    simp only [not_or, not_not] at h3
    obtain ⟨hterm, hpeers⟩ := onAppendResponse_kept peer req h2
    exact .kept h3.1 hterm hpeers rfl
      ⟨noteContact_contact c now peer, .inl rfl, .inl ⟨rfl, rfl, .inl h4⟩⟩

theorem onHeartbeatResponse_answered {resp : AppendEntriesResponse}
    (h : c.onHeartbeatResponse tm now draw n peer term resp = some c')
    (hl : (n.onHeartbeatResponse resp).node.role = .leader) :
    Answered now peer n (n.onHeartbeatResponse resp).node c c' := by
  unfold Node.onHeartbeatResponse at hl ⊢
  unfold onHeartbeatResponse at h
  split_ifs at h hl ⊢ with h1 h2
  · cases hl
  · obtain rfl := Option.some.inj h
    exact .kept h2.1 rfl rfl rfl ⟨noteContact_contact c now peer, .inl rfl, .inr ⟨rfl, rfl, rfl⟩⟩
  · exact .ignored hl h

theorem onSnapshotResponse_answered {req : InstallSnapshotRequest} {resp : InstallSnapshotResponse}
    (h : c.onSnapshotResponse tm now draw n peer req resp = some c')
    (hl : (n.onSnapshotResponse peer req resp).node.role = .leader) :
    Answered now peer n (n.onSnapshotResponse peer req resp).node c c' := by
  unfold Node.onSnapshotResponse at hl ⊢
  unfold onSnapshotResponse at h
  split_ifs at h hl ⊢ with h1 h2 h3
  · exact .ignored hl h
  · cases hl
  · exact .ignored hl h
  · obtain rfl := Option.some.inj h
    exact .kept hl rfl rfl rfl ⟨noteContact_contact c now peer, .inl rfl, .inr ⟨rfl, rfl, rfl⟩⟩

theorem receive_answered (he : KMC.receive io n peer body resp = some e)
    (h : c.receive tm now draw io.fail n peer body resp = some c') (hl : e.node.role = .leader) :
    Answered now peer n e.node c c' := by
  unfold KMC.receive at he
  split at he <;> cases he
  · exact onPreVoteResponse_answered h hl
  · exact onVoteResponse_answered h hl
  · exact onAppendResponse_answered h hl
  · exact onHeartbeatResponse_answered h hl
  · exact onSnapshotResponse_answered h hl

/-! ## The timer -/

theorem checkCommitStall_rest (h : c.checkCommitStallLocked tm now n = (c', .rest)) :
    c' = c ∨ c' = c.noteCommitProgressLocked now n ∧ Renews n c := by
  unfold checkCommitStallLocked at h
  split_ifs at h with h1 h2 h3 <;>
    simp only [Prod.mk.injEq, reduceCtorEq, and_true, and_false] at h
  · exact .inl h.symm
  · exact .inr ⟨h.symm, .inl h2⟩
  · exact .inr ⟨h.symm, .inr h3⟩
  · exact .inl h.symm
  · exact .inl h.symm

theorem Keeps.of_stall {answered : ℕ → Prop} {quorate : Prop} {d : Clocks}
    (hd : Keeps now n n answered quorate c d) (hr : Renews n d → Renews n c)
    (h : c' = d ∨ c' = d.noteCommitProgressLocked now n ∧ Renews n d) :
    Keeps now n n answered quorate c c' := by
  rcases h with rfl | ⟨rfl, h⟩
  · exact hd
  · exact ⟨hd.contact, hd.check, .inl ⟨rfl, rfl, .inr (hr h)⟩⟩

theorem checkCommitStall_lease (tm : Timings) (now : ℤ) (n : Node) (c : Clocks) :
    (c.checkCommitStallLocked tm now n).1.readLeaseUntil = c.readLeaseUntil := by
  unfold checkCommitStallLocked
  split_ifs <;> rfl

theorem runElectionTimer_lease (tm : Timings) (now : ℤ) (n : Node) (c : Clocks) :
    (c.runElectionTimer tm now n).1.readLeaseUntil = c.readLeaseUntil := by
  unfold runElectionTimer
  simp only
  split_ifs <;> first | rfl | exact checkCommitStall_lease tm now n _

theorem runElectionTimer_rest (hl : n.role = .leader)
    (h : c.runElectionTimer tm now n = (c', .rest)) :
    Keeps now n n (fun _ => False) (c.quorumActiveLocked tm now n = true) c c' := by
  have hsame : Keeps now n n (fun _ => False) (c.quorumActiveLocked tm now n = true) c c :=
    .of_watch rfl rfl
  unfold runElectionTimer at h
  simp only [if_pos hl] at h
  split_ifs at h with h1 h2 h3
  · obtain ⟨rfl, -⟩ := Prod.mk.injEq .. ▸ h
    exact hsame
  · refine .of_stall (d := { c with lastQuorumCheck := some now })
      ⟨fun _ => .inl rfl, .inr ⟨rfl, h3⟩, .inr ⟨rfl, rfl, rfl⟩⟩ id
      (checkCommitStall_rest h)
  · cases h
  · exact hsame.of_stall id (checkCommitStall_rest h)

end Clocks

/-! ## Steps -/

variable {cfg : Config} {tm : Timings} {s t : TimedState} {a : TimedAction} {p q k : ℕ}
  {n m : Node} {io : Io} {b : Action} {e : Effect}

def TimedAction.answer (s : TimedState) : TimedAction → Option (ℕ × ℕ)
  | .read a _ => match a.act with
    | some (.respond k _ _) => s.base.rpcs[k]?.map fun r => (r.src, r.dst)
    | _ => none
  | _ => none

def TimedAction.renews (p : ℕ) : TimedAction → Bool
  | .read (.confirmed q) _ => q == p
  | _ => false

inductive Tenure (tm : Timings) (s : TimedState) (a : TimedAction) (t : TimedState) (p : ℕ)
    (m : Node) : Prop
  | elected : (∀ n, s.node p = some n → n.role ≠ .leader) → (t.clocks p).Seeded t.now m →
      Tenure tm s a t p m
  | kept {n : Node} : s.node p = some n → n.role = .leader → m.currentTerm = n.currentTerm →
      m.peers = n.peers → t.epoch p = s.epoch p →
      Clocks.Keeps t.now n m (fun q => a.answer s = some (p, q))
        ((s.clocks p).quorumActiveLocked tm t.now n = true) (s.clocks p) (t.clocks p) →
      ((t.clocks p).readLeaseUntil = (s.clocks p).readLeaseUntil ∨ a.renews p = true ∧
        (t.clocks p).readLeaseUntil = some (t.now + tm.electionTimeoutMin.toInt / 3)) →
      Tenure tm s a t p m

/-- Nothing happens on the server. -/
theorem Tenure.of_same (hsrv : t.base.servers p = s.base.servers p) (hm : t.node p = some m)
    (hl : m.role = .leader) (hc : t.clocks p = s.clocks p) : Tenure tm s a t p m := by
  have hn : s.node p = some m := by
    rw [TimedState.node, State.node, ← hsrv]
    exact hm
  refine .kept hn hl rfl rfl ?_ (.of_watch (by rw [hc]) rfl) (.inl (by rw [hc]))
  rw [TimedState.epoch, hsrv]
  rfl

/-- Whether a leader was heard recently is for the clock to say. -/
theorem TimedState.agrees_deliver {x : ReadAction} {recent : Bool} {r : Rpc}
    (h : s.agrees tm x = true) (hb : x.act = some (.deliver k recent io))
    (hr : s.base.rpcs[k]? = some r) : recent = (s.clocks r.dst).recent tm s.now := by
  cases x with
  | cluster b =>
    obtain rfl := Option.some.inj hb
    simpa [agrees, hr] using h
  | _ => simp [ReadAction.act] at hb

/-- The clocks of the other servers stand. -/
theorem TimedState.clocksAfter_other {draw : ℕ} {clocks : ℕ → Clocks} {u : State}
    (h : s.clocksAfter tm draw b = some clocks) (hsec : Section cfg s.base n b q io e u)
    (hp : p ≠ q) : clocks p = s.clocks p := by
  cases hsec with
  | deliver hr =>
    simp only [clocksAfter, hr, Option.bind_eq_bind, Option.bind_some, Option.bind_eq_some_iff] at h
    obtain ⟨n, -, c, -, h⟩ := h
    obtain rfl := Option.some.inj h
    exact Function.update_of_ne hp _ _
  | respond hr hresp _ _ _ =>
    simp only [clocksAfter, hr, hresp, Option.bind_eq_bind, Option.bind_some,
      Option.bind_eq_some_iff] at h
    obtain ⟨n, -, c, -, h⟩ := h
    obtain rfl := Option.some.inj h
    exact Function.update_of_ne hp _ _
  | lease =>
    obtain rfl := Option.some.inj h
    exact Function.update_of_ne hp _ _
  | _ =>
    obtain rfl := Option.some.inj h
    rfl

theorem Section.tenure {draw : ℕ} {x : ReadAction} {clocks : ℕ → Clocks} {u : ReadState}
    (hagree : s.agrees tm x = true) (hu : readStep cfg s.reads x = some u) (hb : x.act = some b)
    (hof : b.ofTimer = false) (hsec : Section cfg s.base n b p io e u.base) (hn : s.node p = some n)
    (hep : (u.base.servers p).epoch = s.epoch p) (hclocks : s.clocksAfter tm draw b = some clocks)
    (hl : e.node.role = .leader) : Tenure tm s (.read x draw) (s.advance x u clocks) p e.node := by
  have hmem : ∀ {m : Node}, m.currentTerm = n.currentTerm → m.peers = n.peers → n.role = .leader →
      m.commitIndex = n.commitIndex → (clocks p).watch = (s.clocks p).watch →
      (clocks p).readLeaseUntil = (s.clocks p).readLeaseUntil →
      Tenure tm s (.read x draw) (s.advance x u clocks) p m :=
    fun ht hp hr hc hw hlease => .kept hn hr ht hp hep (.of_watch hw hc) (.inl hlease)
  generalize hub : u.base = ub at hsec
  cases hsec with
  | tick => simp [Action.ofTimer] at hof
  | stepDown => simp [Action.ofTimer] at hof
  | @deliver k recent _ r hr =>
    simp only [TimedState.clocksAfter, hr, hn, Option.bind_eq_bind, Option.bind_some,
      Option.bind_eq_some_iff] at hclocks
    obtain ⟨c, hc, h⟩ := hclocks
    obtain rfl := Option.some.inj h
    have hself : Function.update s.clocks r.dst c r.dst = c := Function.update_self ..
    obtain rfl := TimedState.agrees_deliver hagree hb hr
    have hlease := Clocks.handle_lease hc hl
    rcases handle_node io ((s.clocks r.dst).recent tm s.now) n r.body with ⟨v, hv⟩ | ⟨hf, -⟩
    · rw [hv] at hl ⊢
      exact hmem rfl rfl hl rfl (hself.symm ▸ Clocks.handle_watch hc) (hself.symm ▸ hlease)
    · rw [hf] at hl
      cases hl
  | @respond k j _ r resp e hr hresp _ _ he =>
    simp only [TimedState.clocksAfter, hr, hresp, hn, Option.bind_eq_bind, Option.bind_some,
      Option.bind_eq_some_iff] at hclocks
    obtain ⟨c, hc, h⟩ := hclocks
    obtain rfl := Option.some.inj h
    have hself : (s.advance x u (Function.update s.clocks r.src c)).clocks r.src = c :=
      Function.update_self ..
    cases Clocks.receive_answered he hc hl with
    | elected hno hseed =>
      refine .elected (fun n' hn' => ?_) (hself.symm ▸ hseed)
      exact Option.mem_unique hn hn' ▸ hno
    | kept hr' ht hp hlease hk =>
      refine .kept hn hr' ht hp hep (hself.symm ▸ ⟨fun q => ?_, ?_, hk.progress⟩)
        (.inl (hself.symm ▸ hlease))
      · refine (hk.contact q).imp_right fun h => ⟨h.1, ?_⟩
        simp [TimedAction.answer, hb, hr, h.2]
      · exact hk.check.imp_right fun h => h.2.elim
  | propose =>
    obtain rfl := Option.some.inj hclocks
    obtain ⟨log, hlog⟩ := Node.commitPropBatch_node io.fail n _
    rw [hlog] at hl ⊢
    exact hmem rfl rfl hl rfl rfl rfl
  | replicate _ he =>
    obtain rfl := Option.some.inj hclocks
    obtain ⟨snap, hs⟩ := Node.replicateOnce_idle he
    rw [hs] at hl ⊢
    exact hmem rfl rfl hl rfl rfl rfl
  | heartbeat _ he =>
    obtain rfl := Option.some.inj hclocks
    obtain ⟨-, -, -, rfl⟩ := Node.heartbeatAck_cases he
    exact hmem rfl rfl hl rfl rfl rfl
  | lease =>
    obtain rfl := Option.some.inj hclocks
    obtain ⟨rfl, -⟩ := readStep_lease hu hb
    have hself : (s.advance (.confirmed p) u (Function.update s.clocks p
        ((s.clocks p).renewLease tm s.now))).clocks p = (s.clocks p).renewLease tm s.now :=
      Function.update_self ..
    refine .kept hn hl rfl rfl hep (.of_watch (by rw [hself]; rfl) rfl)
      (.inr ⟨?_, by rw [hself]; rfl⟩)
    simp [TimedAction.renews]
  | snapshot =>
    obtain rfl := Option.some.inj hclocks
    obtain ⟨log, snap, hs⟩ := Node.snapshot_node io.fail n _ _
    rw [hs] at hl ⊢
    exact hmem rfl rfl hl rfl rfl rfl

/-- Outside of the critical sections no clock is touched, except that a new process starts its
own. -/
theorem Change.clocks {draw : ℕ} {srv : Server} {clocks : ℕ → Clocks}
    (h : Change cfg s.base b q srv) (hclocks : s.clocksAfter tm draw b = some clocks)
    (hp : p ≠ q ∨ s.node q ≠ none) : clocks p = s.clocks p := by
  cases h with
  | restart _ hn =>
    obtain ⟨c, -, h⟩ := Option.bind_eq_some_iff.mp hclocks
    obtain rfl := Option.some.inj h
    exact Function.update_of_ne (hp.resolve_right fun hno => hno hn) _ _
  | _ =>
    obtain rfl := Option.some.inj hclocks
    rfl

theorem timedStep_tenure (h : timedStep cfg tm s a = some t) (hm : t.node p = some m)
    (hl : m.role = .leader) : Tenure tm s a t p m := by
  cases timedStep_cases h with
  | pass => exact .of_same rfl hm hl rfl
  | @rest p' _ _ n c hn hturn =>
    by_cases hp : p = p'
    · subst hp
      obtain rfl := Option.mem_unique hm hn
      have hself : (s.setClocks p c).clocks p = c := Function.update_self ..
      obtain ⟨h1, h2, h3⟩ := Clocks.runElectionTimer_rest hl hturn
      have hlease := Clocks.runElectionTimer_lease tm s.now m (s.clocks p)
      rw [hturn] at hlease
      exact .kept hn hl rfl rfl rfl
        (hself.symm ▸ ⟨fun q => (h1 q).imp_right fun h => h.2.elim, h2, h3⟩)
        (.inl (hself.symm ▸ hlease))
    · exact .of_same rfl hm hl (Function.update_of_ne hp _ _)
  | @stepDown p' _ _ n c c' u hn _ _ hu =>
    have hs : step cfg s.base (.stepDown p') = some u.base := readStep_act rfl hu
    obtain ⟨n', e, -, he, hfin⟩ := State.local_some hs
    by_cases hp : p = p'
    · subst hp
      obtain ⟨-, rfl⟩ := Node.resign_some he
      replace hm : u.base.node p = some m := hm
      rw [hfin] at hm
      obtain rfl : n'.stepDownLocked = m := by simpa [State.node, State.finish] using hm
      cases hl
    · have hsec : Section cfg s.base n' (.stepDown p') p' {} e (s.base.finish p' {} e) :=
        .stepDown he
      exact .of_same ((congrArg (State.servers · p) hfin).trans (hsec.other hp)) hm hl
        (Function.update_of_ne hp _ _)
  | @poll p' _ io n c c' u hn hturn hc hu =>
    have hs : step cfg s.base (.tick p' io) = some u.base := readStep_act rfl hu
    obtain ⟨n', e, hn', he, hfin⟩ := State.local_some hs
    have hsec : Section cfg s.base n' (.tick p' io) p' io e (s.base.finish p' io e) := .tick he
    by_cases hp : p = p'
    · subst hp
      obtain rfl := Option.mem_unique hn hn'
      obtain ⟨⟨-, hrole⟩, rfl⟩ := Node.timeout_some he
      replace hm : u.base.node p = some m := hm
      rw [hfin] at hm
      rcases hsec.server with ⟨-, hsrv⟩ | ⟨_, _, -, hsrv⟩ <;> rw [State.node, hsrv] at hm
      · obtain rfl := Option.some.inj hm
        have hself : (s.advance (.cluster (.tick p io)) u
            (Function.update s.clocks p c')).clocks p = c' := Function.update_self ..
        refine .elected (fun n' hn' => ?_) (hself.symm ▸ Clocks.startPreVote_seeded hc hrole hl)
        exact Option.mem_unique hn hn' ▸ hrole
      · cases hm
    · exact .of_same ((congrArg (State.servers · p) hfin).trans (hsec.other hp)) hm hl
        (Function.update_of_ne hp _ _)
  | reader _ hb hu =>
    exact .of_same (congrArg (State.servers · p) (readStep_noact hb hu)) hm hl rfl
  | @cluster x b draw u clocks hagree hb hof hu hclocks =>
    replace hm : u.base.node p = some m := hm
    rcases step_cases (readStep_act hb hu) with ⟨q, io, n, e, hn, hsec⟩ | ⟨q, srv, hch, hset⟩
    · by_cases hp : p = q
      · subst hp
        rcases hsec.server with ⟨-, hsrv⟩ | ⟨_, _, -, hsrv⟩ <;> rw [State.node, hsrv] at hm
        · obtain rfl := Option.some.inj hm
          exact hsec.tenure hagree hu hb hof hn (by rw [hsrv]; rfl) hclocks hl
        · cases hm
      · exact .of_same (hsec.other hp) hm hl (TimedState.clocksAfter_other hclocks hsec hp)
    · by_cases hp : p = q
      · subst hp
        rw [hset] at hm
        replace hm : srv.proc = some m := by simpa [State.node, State.setServer] using hm
        have hep : (u.base.servers p).epoch = srv.epoch := by simp [hset, State.setServer]
        obtain ⟨n, hn, he, _, _, _, rfl⟩ | ⟨-, -, -, rfl⟩ := hch.proc hm
        · have hc := hch.clocks (p := p) hclocks (.inr (Option.ne_none_iff_exists'.mpr ⟨n, hn⟩))
          exact .kept hn hl rfl rfl (hep.trans he) (.of_watch (congrArg Clocks.watch hc) rfl)
            (.inl (congrArg Clocks.readLeaseUntil hc))
        · cases hl
      · refine .of_same ?_ hm hl (hch.clocks hclocks (.inl hp))
        refine (congrArg (State.servers · p) hset).trans ?_
        exact Function.update_of_ne hp _ _

end KMC
