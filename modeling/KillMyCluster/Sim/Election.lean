import KillMyCluster.Sim.Relation

/-! Terms, votes and elections keep the relation. -/

namespace KMC

open LeaderLog

def noFail : Call → Bool := fun _ => false

variable {K : Setting} {g g' : Ghost} {floor : ℕ → ℕ} {p lo : ℕ} {n : Node} {d : Disk}
  {ms : List ApplyMsg}

def Node.fixed (n : Node) :=
  (n.id, n.peers, n.log, n.commitIndex, n.lastApplied, n.snapCache, n.pendingSnapshot, n.stopped)

/-- The relation after a change of term, vote or role. -/
theorem Setting.Up.moved (hi : K.cfg.Inv g) (h : K.Up g floor p n d ms) (hg : Grew g g')
    (hlog : g'.log p = g.log p) {n' : Node} {d' : Disk} (hfix : n'.fixed = n.fixed)
    (hT : n.currentTerm ≤ n'.currentTerm) (hv : VoteRel g' p n'.currentTerm n'.votedFor)
    (hd : K.OnDisk g' n'.currentTerm n'.votedFor n.log n.commitIndex d')
    (hcand : n'.role = .candidate →
      g'.cand n'.currentTerm p = some (g'.log p) ∧ g'.leader n'.currentTerm ≠ some p)
    (hlead : n'.role = .leader → K.Leading g' floor p n') : K.Up g' floor p n' d' ms := by
  simp only [Node.fixed, Prod.mk.injEq] at hfix
  obtain ⟨h1, h2, h3, h4, h5, h6, h7, h8⟩ := hfix
  obtain ⟨c, hc, hlen⟩ := h.core.base
  obtain ⟨i, hdel, hpn⟩ := h.delivered
  refine ⟨h.mem, h1.trans h.id, h2.trans h.peers, ⟨hv, ?_, ⟨c, ?_, ?_⟩, ?_⟩, ?_, ?_, ?_,
    ⟨i, hdel.mono hi hg hT, ?_⟩, ?_, hcand, hlead, ?_⟩
  · rw [h3, hlog]; exact h.core.log
  · rw [h3, hlog]; exact hc.mono hi hg hT
  · rw [h4]; exact hlen
  · rw [h3, h4]; exact hd
  · rw [h3, h5]; exact h.first_le
  · rw [h4, h5]; exact h.applied_le
  · rw [h6]; exact h.cache.imp_right fun hs => hs.mono hi hg hT
  · rw [h7, h5]; exact hpn
  · rw [h7, h5]
    exact fun snap hs => ⟨(h.pending snap hs).1.mono hi hg hT, (h.pending snap hs).2⟩
  · rw [h8]; exact h.running

/-- A change of role to follower, or of counters, within the term. -/
theorem Setting.Up.settled (hi : K.cfg.Inv g) (h : K.Up g floor p n d ms) (n' : Node)
    (hfix : n'.fixed = n.fixed) (hT : n'.currentTerm = n.currentTerm)
    (hv : n'.votedFor = n.votedFor) (hr : n'.role = .follower ∨ n'.role = n.role ∧
      n'.matchIndex = n.matchIndex ∧ n'.nextIndex = n.nextIndex) : K.Up g floor p n' d ms := by
  refine h.moved hi (Grows.refl g) rfl hfix hT.ge (by rw [hT, hv]; exact h.core.vote)
    (by rw [hT, hv]; exact h.core.disk) ?_ ?_
  · intro hc
    rcases hr with hr | ⟨hr, -⟩
    · rw [hr] at hc; cases hc
    · rw [hT]; exact h.cand (hr ▸ hc)
  · intro hc
    rcases hr with hr | ⟨hr, hm, hx⟩
    · rw [hr] at hc; cases hc
    · obtain ⟨h1, h2, h3, h4, h5⟩ := h.lead (hr ▸ hc)
      simp only [Node.fixed, Prod.mk.injEq] at hfix
      obtain ⟨-, hp, hl, hci, -⟩ := hfix
      exact ⟨by rw [hT, h1], by rw [hT, h2], by rw [hT, hci]; exact h3,
        by rw [hT, hp, hm]; exact h4, by rw [hp, hx, hl]; exact h5⟩

/-! ## Adopting a term -/

/-- A section whose only call saves the hard state. -/
theorem Setting.crashSafe_hardState {t v : ℕ} (hd : K.Down g p d) (hlo : lo ≤ d.image.index)
    (hr : ∃ g', K.cfg.Acts p g g' ∧ K.Down g' p (d.run (.saveHardState t v))) :
    K.CrashSafe g p lo d [.saveHardState t v] := by
  obtain ⟨g₁, ha, hd₁⟩ := hr
  refine crashSafe_cons (fun r => ?_) ⟨g₁, ha, crashSafe_nil hd₁ hlo⟩
  rcases d.write_hardState r t v with hw | hw <;> rw [hw]
  · exact ⟨g, .refl, hd, hlo⟩
  · exact ⟨g₁, ha, hd₁, hlo⟩

theorem Setting.Up.becomeFollower (hi : K.cfg.Inv g) (h : K.Up g floor p n d ms)
    (hlo : lo ≤ n.log.firstIndex) {t : ℕ}
    (ht : n.currentTerm < t) :
    K.Lands g floor p lo d ms (n.becomeFollowerLocked t) fun _ => True := by
  have hterm := h.core.vote.term
  set g₁ : Ghost := { g with term := Function.update g.term p t } with hg₁
  have hs : K.cfg.Acts p g g₁ := .single (.advance t (by omega))
  obtain ⟨hi₁, hgr⟩ := hi.steps hs
  have hup : K.Up g₁ floor p (n.becomeFollowerLocked t).node
      (d.run (.saveHardState t noVote)) ms := by
    refine h.moved hi hgr rfl rfl ht.le ⟨by simp [hg₁, Node.becomeFollowerLocked], fun _ => ?_,
      fun hw => absurd rfl hw⟩ ((h.core.disk.mono hi hgr le_rfl).hardState hi₁ ht.le _)
      (fun hr => ?_) (fun hr => ?_)
    · exact hi.ballot_none (t := t) (by omega)
    · cases hr
    · cases hr
  exact ⟨⟨g₁, hs, hup, by simp [Node.becomeFollowerLocked], trivial⟩, hlo,
    crashSafe_hardState (h.down hi) (hlo.trans h.core.disk.first_le) ⟨g₁, hs, hup.down hi₁⟩⟩

theorem Setting.Up.adoptTerm (hi : K.cfg.Inv g) (h : K.Up g floor p n d ms)
    (hlo : lo ≤ n.log.firstIndex) (t : ℕ) :
    K.Lands g floor p lo d ms (n.adoptTerm t) fun _ => True := by
  unfold Node.adoptTerm
  split
  · rename_i ht
    exact h.becomeFollower hi hlo ht
  · exact .quiet (h.down hi) .refl h hlo (by simp) trivial

theorem Node.adoptTerm_term (n : Node) (t : ℕ) :
    (n.adoptTerm t).node.currentTerm = max n.currentTerm t := by
  unfold Node.adoptTerm
  split
  · rw [max_eq_right (by omega)]; rfl
  · rw [max_eq_left (by omega)]

@[simp] theorem Node.adoptTerm_stopped (n : Node) (t : ℕ) :
    (n.adoptTerm t).node.stopped = n.stopped := by
  unfold Node.adoptTerm
  split <;> rfl

@[simp] theorem Node.adoptTerm_log (n : Node) (t : ℕ) : (n.adoptTerm t).node.log = n.log := by
  unfold Node.adoptTerm
  split <;> rfl

/-! ## Winning -/

theorem Setting.Up.majority (h : K.Up g floor p n d ms) :
    n.majority = K.cfg.ids.toFinset.card / 2 + 1 := by
  rw [Node.majority, h.peers, Config.length_peers h.mem, List.toFinset_card_of_nodup K.cfg.nodup]

/-- A candidate backed by a quorum of ballots becomes the leader of its term. -/
theorem Setting.Up.becomeLeader (hi : K.cfg.Inv g) (h : K.Up g floor p n d ms)
    (hr : n.role = .candidate)
    (hq : K.cfg.quorums.IsQuorum {u | ∃ l, g.ballot n.currentTerm u = some (p, l)}) :
    ∃ g', K.cfg.Acts p g g' ∧ K.Up g' floor p n.becomeLeaderLocked d ms := by
  obtain ⟨hc, hne⟩ := h.cand hr
  -- another leader of the term would share a voter with this candidate
  have hl : g.leader n.currentTerm = none := by
    by_contra hl
    obtain ⟨c, hc'⟩ := Option.ne_none_iff_exists'.mp hl
    obtain ⟨u, ⟨l, hu, -⟩, ⟨l', hu'⟩⟩ := K.cfg.quorums.meet (hi.elected _ c hc').2 hq
    rw [hu] at hu'
    obtain ⟨rfl, -⟩ := Prod.mk.inj (Option.some.inj hu')
    exact hne hc'
  set g₁ : Ghost := { g with
    leader := Function.update g.leader n.currentTerm (some p)
    ilog := Function.update g.ilog n.currentTerm (g.log p)
    tlog := Function.update g.tlog n.currentTerm (g.log p) } with hg₁
  have hs : K.cfg.Acts p g g₁ := .single (.elect n.currentTerm h.core.vote.term hl hc hq)
  obtain ⟨hi₁, hgr⟩ := hi.steps hs
  refine ⟨g₁, hs, h.moved hi hgr rfl rfl le_rfl { h.core.vote with }
    (h.core.disk.mono hi hgr le_rfl) (fun hr => by cases hr) fun _ => ?_⟩
  refine ⟨by simp [hg₁, Node.becomeLeaderLocked], by simp [hg₁, Node.becomeLeaderLocked], ?_,
    fun q _ => ⟨Nat.zero_le _, ?_, fun _ => Or.inl (Nat.zero_le _)⟩, fun q hq => ?_⟩
  · have : g.commit n.currentTerm = 0 := (hi.unled _ hl).2.1
    change g.commit n.currentTerm ≤ _
    omega
  · intro j hj ho
    have h1 := ho.1
    have h0 : j ≤ 0 := hj
    omega
  · have hq' : q ∈ n.peers := hq
    simp [Node.becomeLeaderLocked, hq']

/-! ## Standing -/

theorem Setting.Up.startElection (hi : K.cfg.Inv g) (h : K.Up g floor p n d ms)
    (hlo : lo ≤ n.log.firstIndex) :
    K.Lands g floor p lo d ms (n.startElectionLocked noFail) fun _ => True := by
  have hterm := h.core.vote.term
  have hnone := hi.cand_none (t := n.currentTerm + 1) (c := p) (by omega)
  set T := n.currentTerm + 1 with hT
  set g₁ : Ghost := { g with
    term := Function.update g.term p T
    cand := set2 g.cand T p (some (g.log p))
    ballot := set2 g.ballot T p (some (p, g.log p)) } with hg₁
  have hs : K.cfg.Acts p g g₁ := .single (.campaign T (by omega))
  obtain ⟨hi₁, hgr⟩ := hi.steps hs
  have hballot : g₁.ballot T p = some (p, g.log p) := set2_self _ _ _ _
  set n₁ : Node := { n with
    role := .candidate, currentTerm := T, votedFor := n.id, leaderID := 0, votes := 1 } with hn₁
  have hup : K.Up g₁ floor p n₁ (d.run (.saveHardState T n.id)) ms := by
    refine h.moved hi hgr rfl rfl (Nat.le_succ _) ⟨by simp [hg₁, hn₁], fun hw => ?_,
      fun _ => ⟨g.log p, by simp only [hn₁, h.id]; exact hballot⟩⟩
      ((h.core.disk.mono hi hgr le_rfl).hardState hi₁ (Nat.le_succ _) _)
      (fun _ => ⟨set2_self _ _ _ _, fun hl => ?_⟩) (fun hr => by cases hr)
    · exact absurd (h.id ▸ hw : p = noVote) (Config.ne_noVote h.mem)
    · rw [(hi.elected T p hl).1] at hnone
      cases hnone
  have hcrash := crashSafe_hardState (h.down hi) (hlo.trans h.core.disk.first_le)
    ⟨g₁, hs, hup.down hi₁⟩
  unfold Node.startElectionLocked
  simp only [noFail, Bool.false_eq_true, if_false]
  split
  · rename_i hmaj
    have hmaj' : n₁.majority ≤ 1 := hmaj
    rw [hup.majority] at hmaj'
    have hq : K.cfg.quorums.IsQuorum {u | ∃ l, g₁.ballot n₁.currentTerm u = some (p, l)} :=
      ⟨{p}, by simpa using ⟨_, hballot⟩, by simpa using h.mem, by simpa using hmaj'⟩
    obtain ⟨g₂, hs₂, hup₂⟩ := hup.becomeLeader hi₁ rfl hq
    exact ⟨⟨g₂, hs.trans hs₂, hup₂, by simp, trivial⟩, hlo, hcrash⟩
  · refine ⟨⟨g₁, hs, hup, fun q body hm => ?_, trivial⟩, hlo, hcrash⟩
    obtain ⟨q', hq', heq⟩ := List.mem_map.mp hm
    obtain ⟨rfl, rfl⟩ := Prod.mk.inj heq
    refine ⟨h.peers ▸ hq', rfl, h.id, g.log p, set2_self _ _ _ _, ?_, ?_⟩
    · exact h.core.log.lastIndex
    · exact h.core.log.lastTerm

theorem Setting.Up.startPreVote (hi : K.cfg.Inv g) (h : K.Up g floor p n d ms)
    (hlo : lo ≤ n.log.firstIndex) :
    K.Lands g floor p lo d ms (n.startPreVoteLocked noFail) fun _ => True := by
  unfold Node.startPreVoteLocked
  have hup := h.settled hi { n with
    electionAttempts := n.electionAttempts + 1
    preVoteRound := n.preVoteRound + 1
    preVotes := 1 } rfl rfl rfl (Or.inr ⟨rfl, rfl, rfl⟩)
  simp only
  split
  · exact hup.startElection hi hlo
  · refine .quiet (h.down hi) .refl hup hlo (fun q body hm => ?_) trivial
    obtain ⟨q', hq', heq⟩ := List.mem_map.mp hm
    obtain ⟨rfl, rfl⟩ := Prod.mk.inj heq
    exact ⟨h.peers ▸ hq', rfl⟩

/-- `hq` is what the counter stands for once it reaches a majority. -/
theorem Setting.Up.wins (hi : K.cfg.Inv g) (h : K.Up g floor p n d ms)
    (hlo : lo ≤ n.log.firstIndex) (hr : n.role = .candidate)
    (hq : K.cfg.quorums.IsQuorum {u | ∃ l, g.ballot n.currentTerm u = some (p, l)}) :
    K.Lands g floor p lo d ms { node := Node.becomeLeaderLocked { n with votes := n.votes + 1 } }
      fun _ => True := by
  have hup := h.settled hi { n with votes := n.votes + 1 } rfl rfl rfl (Or.inr ⟨rfl, rfl, rfl⟩)
  obtain ⟨g₁, hs, hup₁⟩ := hup.becomeLeader hi hr hq
  exact .quiet (h.down hi) hs hup₁ hlo (by simp) trivial

/-! ## Voting -/

theorem Setting.Up.castVote (hi : K.cfg.Inv g) (h : K.Up g floor p n d ms)
    (hlo : lo ≤ n.log.firstIndex)
    {req : RequestVoteRequest} {c : ℕ} (hc : c ∈ K.cfg.ids)
    (hb : K.BodyOK g c (.vote req)) (ht : n.currentTerm = req.term) :
    K.Lands g floor p lo d ms (n.castVote noFail req).1 fun g' =>
      (n.castVote noFail req).2.voteGranted = true → ∃ l, g'.ballot req.term p = some (c, l) := by
  obtain ⟨-, hid, lc, hcand, hlen, hlt⟩ := hb
  have hc0 := Config.ne_noVote hc
  unfold Node.castVote
  split
  · exact .quiet (h.down hi) .refl h hlo (by simp) (by simp)
  split
  · exact .quiet (h.down hi) .refl h hlo (by simp) (by simp)
  rename_i hvf hup
  simp only [noFail, Bool.false_eq_true, if_false, hid]
  have hutd : UpToDate LogEntry.term lc (g.log p) := by
    simp only [Bool.not_eq_false, Node.upToDate, decide_eq_true_eq, h.core.log.lastIndex,
      h.core.log.lastTerm, hlen, hlt] at hup
    exact hup
  -- a first vote is an act; a repeated one is already in the ballot box
  obtain ⟨g₁, hs, hterm, hlog, hbal, hcnd, hld, hoth⟩ : ∃ g₁ : Ghost, K.cfg.Acts p g g₁ ∧
      g₁.term = g.term ∧ g₁.log = g.log ∧
      (∃ l, g₁.ballot n.currentTerm p = some (c, l)) ∧ g₁.cand = g.cand ∧
      g₁.leader = g.leader ∧
      (∀ m, K.Leading g floor p m → K.Leading g₁ floor p { m with votedFor := c }) := by
    by_cases hv : n.votedFor = noVote
    · refine ⟨_, .single (.vote n.currentTerm c lc h.core.vote.term (h.core.vote.none hv)
        (ht ▸ hcand) hutd), rfl, rfl, ⟨_, set2_self _ _ _ _⟩, rfl, rfl, fun m hm => ?_⟩
      exact ⟨hm.leader, hm.tlog, hm.commit, fun q hq => { hm.matched q hq with }, hm.next⟩
    · have hvc : n.votedFor = c := by
        by_contra hvc
        exact hvf ⟨hv, by rw [hid]; exact hvc⟩
      exact ⟨g, .refl, rfl, rfl, hvc ▸ h.core.vote.some hv, rfl, rfl, fun m hm => { hm with }⟩
  obtain ⟨hi₁, hgr⟩ := hi.steps hs
  have hup₁ : K.Up g₁ floor p { n with votedFor := c }
      (d.run (.saveHardState n.currentTerm c)) ms := by
    refine h.moved hi hgr (by rw [hlog]) rfl le_rfl
      ⟨hterm ▸ h.core.vote.term, fun hw => absurd hw hc0, fun _ => hbal⟩
      ((h.core.disk.mono hi hgr le_rfl).hardState hi₁ le_rfl _) (fun hr => ?_) (fun hr => ?_)
    · rw [hcnd, hlog, hld]; exact h.cand hr
    · exact hoth n (h.lead hr)
  exact ⟨⟨g₁, hs, hup₁, by simp, fun _ => ht ▸ hbal⟩, hlo,
    crashSafe_hardState (h.down hi) (hlo.trans h.core.disk.first_le) ⟨g₁, hs, hup₁.down hi₁⟩⟩

theorem Setting.Up.handleRequestVote (hi : K.cfg.Inv g) (h : K.Up g floor p n d ms)
    (hlo : lo ≤ n.log.firstIndex)
    {req : RequestVoteRequest} {c : ℕ} (hc : c ∈ K.cfg.ids) (recent : Bool)
    (hb : req.preVote = true ∨ K.BodyOK g c (.vote req)) :
    K.Lands g floor p lo d ms (n.handleRequestVote noFail recent req).1 fun g' =>
      req.preVote = false → (n.handleRequestVote noFail recent req).2.voteGranted = true →
        ∃ l, g'.ballot req.term p = some (c, l) := by
  unfold Node.handleRequestVote
  split
  · exact .quiet (h.down hi) .refl h hlo (by simp) (by simp)
  split
  · rename_i hpre
    exact .quiet (h.down hi) .refl h hlo (by simp) (by simp [hpre])
  rename_i hpre
  replace hb := hb.resolve_left hpre
  split
  · exact .quiet (h.down hi) .refl h hlo (by simp) (by simp)
  simp only
  have ha := h.adoptTerm hi hlo req.term
  have hterm := n.adoptTerm_term req.term
  split
  · exact ha.imp (by simp)
  · refine .bind hi ha fun g₁ hi₁ hgr _ hu hlo => ?_
    exact (hu.castVote hi₁ hlo hc (hb.mono hi hgr) (by omega)).imp fun g₂ hφ _ => hφ

end KMC
