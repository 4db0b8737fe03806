import KillMyCluster.Election.Safety
import KillMyCluster.Sim.Step

/-! Responses, restarts and whole runs: from the initial state, every run whose steps keep their
promises stays related to the abstract log. -/

namespace KMC

open LeaderLog Trace

variable {K : Setting} {g g' : Ghost} {s t : State} {p : ℕ} {n : Node} {d : Disk} {a : Action}

/-! ## Responses -/

def Ghost.votes (g : Ghost) : Ballots := fun T u => (g.ballot T u).map Prod.fst

theorem Ghost.votes_eq {T u c : ℕ} :
    Ghost.votes g T u = some c ↔ ∃ l, g.ballot T u = some (c, l) := by
  simp [Ghost.votes]

/-- What a count of votes means for the abstract log once it has reached a majority. -/
theorem Won.quorum {T : ℕ} (h : Won (Ghost.votes g) K.cfg T p) :
    K.cfg.quorums.IsQuorum {u | ∃ l, g.ballot T u = some (p, l)} := by
  obtain ⟨S, hS, hc, hu⟩ := h
  refine ⟨S, fun u hm => Ghost.votes_eq.mp (hu u hm), hS, ?_⟩
  rwa [List.toFinset_card_of_nodup K.cfg.nodup]

theorem Setting.Rel.respond (hE : Elect K.cfg (Ghost.votes g) s) (hR : K.Rel g s) {k j : ℕ}
    {r : Rpc} (hr : s.rpcs[k]? = some r) {resp : Response} (hresp : r.resps[j]? = some resp)
    (hun : r.handled = false) {io : Io} (hio : io.fault = fun _ => none)
    (hn : s.node r.src = some n) {e : Effect} (he : receive io n r.dst r.body resp = some e) :
    ∃ g', K.cfg.Acts r.src g g' ∧ K.Next g' s ((s.markHandled k).finish r.src io e) := by
  have hR₁ := hR.markHandled k
  have hup := hR₁.up r.src n hn
  have hok := hR.rpc k r hr
  have hmem := List.mem_of_getElem? hresp
  have hans := hok.resps resp hmem
  have hbody := hok.body
  suffices hL : K.Lands g (s.markHandled k).floor r.src n.log.firstIndex
      ((s.markHandled k).servers r.src).disk
      (((s.markHandled k).servers r.src).sent ++ ((s.markHandled k).servers r.src).batch) e
      fun _ => True by
    obtain ⟨g₁, ha, hnext, -⟩ := hR₁.finish hn hio hL
    exact ⟨g₁, ha, hnext.rel, hnext.floor⟩
  generalize hb : r.body = body at he hbody hans
  cases receive_cases he with
  | ignored => exact .quiet (hup.down hR.inv) .refl hup le_rfl (by simp) trivial
  | outvoted hlt => exact hup.becomeFollower hR.inv le_rfl hlt
  | polled _ _ _ =>
    exact .quiet (hup.down hR.inv) .refl (hup.settled hR.inv
      { n with preVotes := n.preVotes + 1 } rfl rfl rfl (Or.inr ⟨rfl, rfl, rfl⟩)) le_rfl
      (by simp) trivial
  | stands _ _ _ =>
    rw [Io.fail_reliable hio]
    exact (hup.settled hR.inv { n with preVotes := n.preVotes + 1 } rfl rfl rfl
      (Or.inr ⟨rfl, rfl, rfl⟩)).startElection hR.inv le_rfl
  | voted _ _ _ _ =>
    exact .quiet (hup.down hR.inv) .refl (hup.settled hR.inv
      { n with votes := n.votes + 1 } rfl rfl rfl (Or.inr ⟨rfl, rfl, rfl⟩)) le_rfl
      (by simp) trivial
  | wins hrole hterm hg hm =>
    have hcount := VoteCount.add hE hr hun hn hb hmem hrole hterm hg
    exact hup.wins hR.inv le_rfl hrole (hcount.won (by rw [← hE.majority hn, ← hm])).quorum
  | acked hrole hterm hok => exact hup.acked hR.inv le_rfl hrole hterm hans hok
  | refused hrole hterm _ => exact hup.refused hR.inv le_rfl hrole hterm hbody hans
  | installed hrole hterm hle => exact hup.installed hR.inv le_rfl hrole hterm hle hbody hans

/-! ## Restart -/

/-- The log that a dead node's disk gives back. -/
theorem Setting.DownAt.tracks {c : List LogEntry} (h : K.DownAt g p d c) :
    RaftLog.WF ⟨⟨c.length, logTerm c, []⟩, (g.log p).drop c.length⟩ ∧
      Tracks ⟨⟨c.length, logTerm c, []⟩, (g.log p).drop c.length⟩ d := by
  refine ⟨fun k e he => ?_, h.entries, h.file.length.le⟩
  rw [List.getElem?_drop] at he
  have := h.index _ e (by omega) he
  change e.index = c.length + 1 + k
  omega

theorem Setting.DownAt.entries_eq {c : List LogEntry} (h : K.DownAt g p d c) :
    (openPersister d).entries = (g.log p).drop c.length := by
  rw [h.tracks.2.opened h.tracks.1, ← h.file.length]
  simp [RaftLog.above, RaftLog.firstIndex]

theorem Setting.Down.restart {floor : ℕ → ℕ} (h : K.Down g p d) (hp : p ∈ K.cfg.ids) (retain : ℤ) :
    K.Up g floor p (newNode p (K.cfg.peers p) retain (openPersister d)) d [] := by
  obtain ⟨c, hc⟩ := h
  have hlen : c.length = (openPersister d).snap.index := by
    rw [openPersister_snap]; exact hc.file.length
  have hreals : ((RaftLog.newRaftLog (openPersister d).snap.index
      (openPersister d).snap.term).append (openPersister d).entries).reals =
        (g.log p).drop c.length := by
    rw [RaftLog.append_reals, RaftLog.newRaftLog_reals, List.nil_append, hc.entries_eq]
  have hsnapok : 0 < (openPersister d).snap.index →
      K.SnapOK g d.replayed.term (openPersister d).snap := by
    intro hpos
    rw [openPersister_snap] at hpos ⊢
    exact (hc.file.snap hpos.ne').2
  have hrel : LogRel (newNode p (K.cfg.peers p) retain (openPersister d)).log (g.log p) := by
    refine ⟨fun k e he => ?_, ?_, ?_, fun heq => ?_⟩
    · change ((RaftLog.newRaftLog _ _).append _).reals[k]? = some e at he
      rw [hreals, List.getElem?_drop] at he
      have := hc.index _ e (by omega) he
      change e.index = (openPersister d).snap.index + 1 + k
      omega
    · change (openPersister d).snap.index ≤ _
      rw [← hlen]; exact hc.le
    · change ((RaftLog.newRaftLog _ _).append _).reals = (g.log p).drop (openPersister d).snap.index
      rw [hreals, hlen]
    · change (openPersister d).snap.index = _ at heq
      change (openPersister d).snap.term = _
      rw [openPersister_snap, hc.file.term, hc.last (by omega)]
  refine ⟨hp, rfl, rfl, ⟨?_, hrel, ⟨c, ⟨?_, hlen.ge, ?_, ?_, hc.fresh⟩, hlen⟩, ?_⟩, le_rfl, le_rfl,
    Or.inl rfl, ⟨0, .nil, fun hpn => ?_⟩, fun snap hs => ?_, by simp [newNode], by simp [newNode],
    fun _ => rfl⟩
  · simp only [newNode, openPersister_term, openPersister_votedFor]
    exact hc.vote
  · simp only [newNode, openPersister_term]
    exact hc.file.committed
  · change (openPersister d).snap.term = logTerm (c.take (openPersister d).snap.index)
    rw [← hlen, List.take_length, openPersister_snap, hc.file.term]
  · change List.take (c.length - (openPersister d).snap.index) _ =
      c.drop (openPersister d).snap.index
    rw [← hlen, Nat.sub_self, List.take_zero, List.drop_length]
  · refine ⟨hc.tracks.2.reopen hc.tracks.1, ?_, ?_, ?_, c, ?_⟩
    · simp [newNode, openPersister_term]
    · simp [newNode, openPersister_votedFor]
    · change _ ≤ (openPersister d).snap.index
      rw [openPersister_snap]
    · simp only [newNode, openPersister_term]
      exact hc.file
  · simp only [newNode] at hpn ⊢
    by_cases hpos : 0 < (openPersister d).snap.index
    · simp [hpos] at hpn
    · omega
  · simp only [newNode] at hs ⊢
    split at hs
    · rename_i hpos
      obtain rfl := Option.some.inj hs
      rw [openPersister_term]
      exact ⟨hsnapok hpos, rfl⟩
    · cases hs

/-! ## Steps and runs -/

structure Setting.Allowed (K : Setting) (s : State) (a : Action) : Prop where
  reliable : a.Reliable
  honest : K.honest → a.Honest K.stands s
  noStop : K.noStop → ∀ p, a ≠ .stop p
  matching : K.fresh → a.Matching s

theorem Setting.Rel.section (hE : Elect K.cfg (Ghost.votes g) s) (hR : K.Rel g s)
    (ha : K.Allowed s a) {io : Io} {e : Effect} (hn : s.node p = some n)
    (h : Section K.cfg s n a p io e t) : ∃ g', K.cfg.Acts p g g' ∧ K.Next g' s t := by
  have hup := hR.up p n hn
  have hio : io.fault = fun _ => none := h.io_eq ▸ ha.reliable
  -- most sections end in the state that `finish` makes
  have hfin : K.Lands g s.floor p n.log.firstIndex (s.servers p).disk
      ((s.servers p).sent ++ (s.servers p).batch) e (fun _ => True) →
      ∃ g', K.cfg.Acts p g g' ∧ K.Next g' s (s.finish p io e) := by
    intro hL
    obtain ⟨g₁, h1, h2, -⟩ := hR.finish hn hio hL
    exact ⟨g₁, h1, h2⟩
  cases h with
  | tick he =>
    obtain ⟨-, rfl⟩ := Node.timeout_some he
    rw [Io.fail_reliable hio] at hfin ⊢
    exact hfin (hup.startPreVote hR.inv le_rfl)
  | stepDown he => exact hfin (hup.resign hR.inv le_rfl he)
  | deliver hr => exact hR.deliver hr hn hio _ ha.matching
  | respond hr hresp hun _ he => exact hR.respond hE hr hresp hun hio hn he
  | propose =>
    rw [Io.fail_reliable hio] at hfin ⊢
    exact hfin (hup.commitPropBatch hR.inv le_rfl _)
  | replicate hq he => exact hfin (hup.replicateOnce hR.inv le_rfl hq he)
  | heartbeat hq he => exact hfin (hup.heartbeatAck hR.inv le_rfl hq he)
  | lease =>
    exact hfin (.quiet (hup.down hR.inv) .refl
      { hup with lead := fun hr => { hup.lead hr with } } le_rfl (by simp) trivial)
  | snapshot =>
    rw [Io.fail_reliable hio] at hfin ⊢
    refine hfin (hup.snapshot hR.inv le_rfl fun hh => ?_)
    obtain ⟨k, hk⟩ := ha.honest hh
    exact hup.honest hR.inv hh hk

theorem Setting.Rel.change (hR : K.Rel g s) (ha : K.Allowed s a) {srv : Server}
    (h : Change K.cfg s a p srv) : K.Next g s (s.setServer p srv) := by
  cases h with
  | applierTake hn htake hb =>
    have hup := hR.up p _ hn
    rw [hb, List.append_nil] at hup
    obtain ⟨h1, h2⟩ := hup.applierTake htake
    refine hR.setServer .refl (fun m hm => ?_) (by simp) ?_
    · obtain rfl := Option.some.inj hm
      exact h1
    · rw [Rel.floor_eq hn]
      simp [Server.floor, h2]
  | applierSend hn hb =>
    have hup := hR.up p _ hn
    refine hR.setServer .refl (fun n' hm => ?_) (by simp) ?_
    · obtain rfl := Option.some.inj hm
      rw [hb] at hup
      simpa using hup
    · rw [Rel.floor_eq hn]
      simp [Server.floor]
  | crash hn =>
    have hup := hR.up p _ hn
    refine hR.setServer .refl (by simp [Server.die]) (fun _ => hup.down hR.inv) ?_
    rw [Rel.floor_eq hn]
    exact hup.core.disk.first_le
  | restart hp hdown =>
    refine hR.setServer .refl (fun m hm => ?_) (by simp) ?_
    · obtain rfl := Option.some.inj hm
      exact (hR.down p hdown).restart hp _
    · have : (s.servers p).proc = none := hdown
      simp only [State.floor, Server.floor, this]
      change _ ≤ (openPersister (s.servers p).disk).snap.index
      rw [openPersister_snap]
  | stop hn =>
    have hup := hR.up p _ hn
    refine hR.setServer .refl (fun m hm => ?_) (by simp) ?_
    · obtain rfl := Option.some.inj hm
      exact { hup with
        lead := fun hr => { hup.lead hr with }
        running := fun hns => absurd rfl (ha.noStop hns p) }
    · rw [Rel.floor_eq hn]
      simp [Server.floor]

theorem Setting.Rel.step (hE : Elect K.cfg (Ghost.votes g) s) (hR : K.Rel g s) (ha : K.Allowed s a)
    (hs : step K.cfg s a = some t) : ∃ g' p, K.cfg.Acts p g g' ∧ K.Next g' s t := by
  rcases step_cases hs with ⟨p, io, n, e, hn, hsec⟩ | ⟨p, srv, hch, rfl⟩
  · obtain ⟨g₁, hacts, hnext⟩ := hR.section hE ha hn hsec
    exact ⟨g₁, p, hacts, hnext⟩
  · exact ⟨g, p, .refl, hR.change ha hch⟩

theorem Setting.rel_init (K : Setting) : K.Rel State.init K.cfg.init where
  inv := inv_init
  up p n hn := by simp [Config.init, State.node] at hn
  down p _ := by
    refine ⟨[], ⟨rfl, fun _ => rfl, fun h => absurd rfl h⟩,
      ⟨committed_nil _ _, rfl, rfl, by simp [Config.init]⟩, ⟨[], rfl, by simp⟩, by simp, ?_, ?_, ?_⟩
    · intro i e _ he
      simp [LeaderLog.State.init] at he
    · intro _; rfl
    · intro _; exact List.nil_prefix
  rpc k r hr := by simp [Config.init] at hr

/-- The votes a related state has on disk are ballots of the abstract log. -/
theorem Setting.Rel.booked (hR : K.Rel g s) (p : ℕ) : Booked (Ghost.votes g) p (s.hard p) := by
  have hbook : ∀ {T w : ℕ}, VoteRel g p T w → Booked (Ghost.votes g) p (T, w) := by
    intro T w hv
    refine ⟨fun h0 => ?_, fun hw => Ghost.votes_eq.mpr (hv.some hw), fun T' hT => ?_⟩
    · simp [Ghost.votes, hv.none h0]
    · simp [Ghost.votes, hR.inv.ballot_none (show g.term p < T' from hv.term ▸ hT)]
  cases hn : s.node p with
  | none =>
    obtain ⟨c, hc⟩ := hR.down p hn
    exact hbook hc.vote
  | some n =>
    have hcore := (hR.up p n hn).core
    have := hbook hcore.vote
    rwa [State.hard, Disk.hard, hcore.disk.term, hcore.disk.votedFor]

structure Setting.Sim (K : Setting) (g : Ghost) (s : State) : Prop where
  rel : K.Rel g s
  elect : Elect K.cfg (Ghost.votes g) s

structure Later (g g' : Ghost) (s t : State) : Prop where
  grew : Grew g g'
  floor : ∀ q, s.floor q ≤ t.floor q

theorem Setting.Sim.step (h : K.Sim g s) (ha : K.Allowed s a) (hs : step K.cfg s a = some t) :
    ∃ g', Later g g' s t ∧ K.Sim g' t := by
  obtain ⟨g', p, hact, hR, hfl⟩ := h.rel.step h.elect ha hs
  obtain ⟨-, hgr⟩ := h.rel.inv.steps hact
  have hard : a.HardStates := fun t v => by rw [show a.io.fault = fun _ => none from ha.reliable]
  refine ⟨g', ⟨hgr, hfl⟩, hR, (h.elect.step hard hs).elect.mono (fun T u c hc => ?_) hR.booked⟩
  -- a booked vote is on disk now or was a ballot before
  unfold Ballots.book at hc
  split at hc
  · rename_i hcond
    obtain ⟨rfl, hv⟩ := hcond
    rw [← hc]
    exact (hR.booked u).voted hv
  · obtain ⟨l, hl⟩ := Ghost.votes_eq.mp hc
    exact Ghost.votes_eq.mpr ⟨l, hgr.ballot _ _ _ hl⟩

theorem Setting.sim_init (K : Setting) : K.Sim State.init K.cfg.init :=
  ⟨K.rel_init, elect_init K.cfg⟩

theorem Setting.Sim.run (h : K.Sim g s) {acts : List Action}
    (hrun : Run (KMC.step K.cfg) K.Allowed s acts t) : ∃ g', Later g g' s t ∧ K.Sim g' t := by
  induction hrun with
  | nil => exact ⟨g, ⟨Grows.refl g, fun _ => le_rfl⟩, h⟩
  | snoc _ ha hs ih =>
    obtain ⟨g₁, hg, h₁⟩ := ih
    obtain ⟨g₂, hg₂, h₂⟩ := h₁.step ha hs
    exact ⟨g₂, ⟨hg.grew.trans hg₂.grew, fun q => (hg.floor q).trans (hg₂.floor q)⟩, h₂⟩

/-- Two states of one run are related to one growing abstract log. -/
theorem Setting.sim_reaches {a b : State} (ha : Reaches (step K.cfg) K.Allowed K.cfg.init a)
    (hb : Reaches (step K.cfg) K.Allowed a b) :
    ∃ g g', K.Sim g a ∧ K.Sim g' b ∧ Later g g' a b := by
  obtain ⟨_, ha⟩ := ha
  obtain ⟨_, hb⟩ := hb
  obtain ⟨g, -, h⟩ := K.sim_init.run ha
  obtain ⟨g', hg, h'⟩ := h.run hb
  exact ⟨g, g', h, h', hg⟩

end KMC
