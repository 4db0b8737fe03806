import KillMyCluster.Election.Terms

/-! What is known of the requests in flight, whatever the disks do: who sent them to whom, what a
request for a vote or a pre-vote looks like, that it is not ahead of the process it came from, and
that its answers were made by the handler it was meant for. -/

namespace KMC

open Trace

variable {cfg : Config} {s t : State} {a : Action} {p q : ℕ} {io : Io} {n m : Node} {e : Effect}
  {body : Body}

/-! ## Who a process is -/

theorem handle_poll (io : Io) (recent : Bool) (n : Node) (body : Body) :
    (handle io recent n body).1.node.poll = n.poll := by
  cases body with
  | preVote _ _ req => exact (n.handleRequestVote_hears recent req).poll
  | vote req => exact (n.handleRequestVote_hears recent req).poll
  | replicate req => exact (n.handleAppendEntries_hears req).poll
  | heartbeat req => exact (n.handleAppendEntries_hears req).poll
  | snapshot req => exact (n.handleInstallSnapshot_hears req).poll

def Node.member (n : Node) : ℕ × List ℕ := (n.id, n.peers)

/-- The same id and peers, and no earlier round of polls. -/
def Node.Carries (n m : Node) : Prop := m.member = n.member ∧ n.preVoteRound ≤ m.preVoteRound

theorem Node.carries_of_poll (h : m.poll = n.poll) : n.Carries m := by
  simp only [Node.poll, Prod.mk.injEq] at h
  exact ⟨Prod.ext h.1 h.2.1, h.2.2.1.ge⟩

theorem Node.startElection_carries (fail : Call → Bool) (n : Node) :
    n.Carries (n.startElectionLocked fail).node :=
  carries_of_poll n.startElection_stands.poll

theorem Node.startPreVote_carries (fail : Call → Bool) (n : Node) :
    n.Carries (n.startPreVoteLocked fail).node := by
  unfold Node.startPreVoteLocked
  simp only
  split
  · obtain ⟨hmem, hround⟩ := startElection_carries fail
      { n with
        electionAttempts := n.electionAttempts + 1
        preVoteRound := n.preVoteRound + 1
        preVotes := 1 }
    exact ⟨hmem, (Nat.le_succ _).trans hround⟩
  · exact ⟨rfl, Nat.le_succ _⟩

theorem Section.carries (h : Section cfg s n a p io e t) : n.Carries e.node := by
  cases h with
  | tick he =>
    obtain ⟨-, rfl⟩ := Node.timeout_some he
    exact Node.startPreVote_carries ..
  | stepDown he =>
    obtain ⟨-, rfl⟩ := Node.resign_some he
    exact ⟨rfl, le_rfl⟩
  | deliver _ => exact Node.carries_of_poll (handle_poll ..)
  | respond hr hresp hun hep he =>
    cases receive_terms hr hresp hun hep he with
    | hears hh _ => exact Node.carries_of_poll hh.poll
    | counts _ _ _ _ _ _ _ hcount =>
      rcases hcount with ⟨-, rfl⟩ | ⟨-, rfl⟩
      · exact ⟨rfl, le_rfl⟩
      · exact Node.startElection_carries ..
  | propose => exact Node.carries_of_poll (n.commitPropBatch_hears _).poll
  | replicate _ he => exact Node.carries_of_poll (Node.replicateOnce_hears he).poll
  | heartbeat _ he => exact Node.carries_of_poll (Node.heartbeatAck_hears he).poll
  | lease => exact ⟨rfl, le_rfl⟩
  | snapshot => exact Node.carries_of_poll (n.snapshot_hears _ _).poll

def Enrolled (cfg : Config) (s : State) : Prop :=
  ∀ p n, s.node p = some n → p ∈ cfg.ids ∧ n.member = (p, cfg.peers p)

theorem Enrolled.peers (h : Enrolled cfg s) (hn : s.node p = some n) : n.peers = cfg.peers p :=
  congrArg Prod.snd (h p n hn).2

theorem Enrolled.step (h : Enrolled cfg s) (hs : KMC.step cfg s a = some t) : Enrolled cfg t := by
  intro p m hm
  cases step_lineage hs hm with
  | acts hn hsec _ _ he => exact he ▸ hsec.carries.1 ▸ h p _ hn
  | rests hn _ he =>
    obtain ⟨hp, hmem⟩ := h p _ hn
    exact he ▸ ⟨hp, hmem⟩
  | starts hp _ _ he => exact he ▸ ⟨hp, rfl⟩

theorem Enrolled.reaches {P : State → Action → Prop} (h : Enrolled cfg s)
    (hs : Reaches (KMC.step cfg) P s t) : Enrolled cfg t :=
  hs.invariant (fun _ _ _ hI _ hstep => hI.step hstep) h

theorem enrolled_init (cfg : Config) : Enrolled cfg cfg.init := by
  simp [Enrolled, Config.init, State.node]

/-! ## What a request looks like -/

/-- As `startPreVoteLocked` and `startElectionLocked` of server `p` make it. -/
def Body.Formed (p : ℕ) : Body → Prop
  | .preVote term _ req => req.preVote = true ∧ req.term = term + 1
  | .vote req => req.preVote = false ∧ req.candidateId = p
  | _ => True

/-- Of a term and a round that `n` has reached. -/
def Body.Past (n : Node) : Body → Prop
  | .preVote term round _ => term ≤ n.currentTerm ∧ round ≤ n.preVoteRound
  | .vote req => req.term ≤ n.currentTerm
  | _ => True

structure Rpc.Requested (cfg : Config) (s : State) (r : Rpc) : Prop where
  src : r.src ∈ cfg.ids
  dst : r.dst ∈ cfg.peers r.src
  formed : r.body.Formed r.src
  epoch : r.epoch ≤ (s.servers r.src).epoch
  past : ∀ n, s.node r.src = some n → (s.servers r.src).epoch = r.epoch → r.body.Past n
  answered : ∀ resp ∈ r.resps, ∃ io recent m, resp = (handle io recent m r.body).2

structure Requested (cfg : Config) (s : State) : Prop where
  enrolled : Enrolled cfg s
  rpc : ∀ (k : ℕ) (r : Rpc), s.rpcs[k]? = some r → r.Requested cfg s

theorem Rpc.Requested.ne {r : Rpc} (h : r.Requested cfg s) : r.dst ≠ r.src :=
  (Config.mem_peers.mp h.dst).2

theorem Rpc.Requested.dst_mem {r : Rpc} (h : r.Requested cfg s) : r.dst ∈ cfg.ids :=
  (Config.mem_peers.mp h.dst).1

/-! ## What goes out -/

def Sendable (p : ℕ) (n m : Node) (q : ℕ) (body : Body) : Prop :=
  q ∈ n.peers ∧ body.Formed p ∧ body.Past m

theorem Node.startElection_sendable {fail : Call → Bool} (hid : n.id = p)
    (h : (q, body) ∈ (n.startElectionLocked fail).sends) :
    Sendable p n (n.startElectionLocked fail).node q body := by
  unfold Node.startElectionLocked at h ⊢
  simp only at h ⊢
  split at h
  · cases h
  split at h
  · cases h
  · rename_i hf hm
    rw [if_neg hf, if_neg hm]
    obtain ⟨q', hq, heq⟩ := List.mem_map.mp h
    obtain ⟨rfl, rfl⟩ := Prod.mk.inj heq
    exact ⟨hq, ⟨rfl, hid⟩, le_rfl⟩

theorem Node.startPreVote_sendable {fail : Call → Bool} (hid : n.id = p)
    (h : (q, body) ∈ (n.startPreVoteLocked fail).sends) :
    Sendable p n (n.startPreVoteLocked fail).node q body := by
  unfold Node.startPreVoteLocked at h ⊢
  simp only at h ⊢
  split at h
  · rename_i hm
    rw [if_pos hm]
    exact Node.startElection_sendable (n := { n with
      electionAttempts := n.electionAttempts + 1
      preVoteRound := n.preVoteRound + 1
      preVotes := 1 }) hid h
  · rename_i hm
    rw [if_neg hm]
    obtain ⟨q', hq, heq⟩ := List.mem_map.mp h
    obtain ⟨rfl, rfl⟩ := Prod.mk.inj heq
    exact ⟨hq, ⟨rfl, rfl⟩, le_rfl, le_rfl⟩

theorem receive_sendable {peer : ℕ} {resp : Response} {body' : Body} (hid : n.id = p)
    (h : receive io n peer body resp = some e) (hm : (q, body') ∈ e.sends) :
    Sendable p n e.node q body' := by
  cases receive_cases h with
  | stands _ _ _ =>
    exact Node.startElection_sendable (n := { n with preVotes := n.preVotes + 1 }) hid hm
  | ignored | polled | voted | wins | refused | installed | outvoted | acked => cases hm

theorem Section.sendable (h : Section cfg s n a p io e t) (hn : n.member = (p, cfg.peers p))
    (hm : (q, body) ∈ e.sends) : q ∈ cfg.peers p ∧ body.Formed p ∧ body.Past e.node := by
  obtain ⟨hid, hpeers⟩ := Prod.mk.inj hn
  cases h with
  | tick he =>
    obtain ⟨-, rfl⟩ := Node.timeout_some he
    exact hpeers ▸ Node.startPreVote_sendable hid hm
  | stepDown he =>
    obtain ⟨-, rfl⟩ := Node.resign_some he
    cases hm
  | deliver _ =>
    rw [handle_sends] at hm
    cases hm
  | respond _ _ _ _ he => exact hpeers ▸ receive_sendable hid he hm
  | propose =>
    rw [Node.commitPropBatch_sends] at hm
    cases hm
  | replicate hq he =>
    obtain ⟨-, -, rfl | ⟨_, -, -, rfl⟩ | ⟨-, rfl⟩⟩ := Node.replicateOnce_cases he
    · cases hm
    · obtain ⟨rfl, rfl⟩ := Prod.mk.inj (List.mem_singleton.mp hm)
      exact ⟨hq, trivial, trivial⟩
    · obtain ⟨rfl, rfl⟩ := Prod.mk.inj (List.mem_singleton.mp hm)
      exact ⟨hq, trivial, trivial⟩
  | heartbeat hq he =>
    obtain ⟨-, -, -, rfl⟩ := Node.heartbeatAck_cases he
    obtain ⟨rfl, rfl⟩ := Prod.mk.inj (List.mem_singleton.mp hm)
    exact ⟨hq, trivial, trivial⟩
  | lease => cases hm
  | snapshot =>
    rw [Node.snapshot_sends] at hm
    cases hm

/-! ## Runs -/

theorem Body.Past.mono (h : body.Past n) (ht : n.currentTerm ≤ m.currentTerm)
    (hr : n.preVoteRound ≤ m.preVoteRound) : body.Past m := by
  cases body with
  | preVote _ _ _ => exact ⟨h.1.trans ht, h.2.trans hr⟩
  | vote _ => exact le_trans h ht
  | _ => trivial

theorem Section.term_le (h : Section cfg s n a p io e t) :
    n.currentTerm ≤ e.node.currentTerm := by
  rcases h.turn with hturn | ⟨-, hl⟩
  · exact hturn.term_le
  · exact (congrArg Node.currentTerm hl).ge

/-- A process that lives on does not go back. -/
theorem Rpc.Requested.step {r r' : Rpc} (h : r.Requested cfg s) (hsame : r.Same r')
    (hs : KMC.step cfg s a = some t)
    (hans : ∀ resp ∈ r'.resps, ∃ io recent m, resp = (handle io recent m r'.body).2) :
    r'.Requested cfg t where
  src := hsame.src ▸ h.src
  dst := by rw [hsame.dst, hsame.src]; exact h.dst
  formed := by rw [hsame.body, hsame.src]; exact h.formed
  epoch := by rw [hsame.epoch, hsame.src]; exact h.epoch.trans (step_epoch hs _)
  past m hm hep := by
    rw [hsame.src] at hm hep
    rw [hsame.epoch] at hep
    rw [hsame.body]
    have hle := h.epoch
    cases step_lineage hs hm with
    | acts hn hsec _ he hm =>
      exact hm ▸ (h.past _ hn (he ▸ hep)).mono hsec.term_le hsec.carries.2
    | rests hn he hm => exact hm ▸ (h.past _ hn (he ▸ hep)).mono le_rfl le_rfl
    | starts _ _ he _ => omega
  answered := hans

theorem Requested.step (h : Requested cfg s) (hs : KMC.step cfg s a = some t) :
    Requested cfg t := by
  refine ⟨h.enrolled.step hs, fun k r' hr' => ?_⟩
  rcases step_cases hs with ⟨p, io, n, e, hn, hsec⟩ | ⟨p, srv, -, rfl⟩
  · obtain ⟨hp, hmem⟩ := h.enrolled p n hn
    cases hsec.origin hn hr' with
    | old r hr hsame hresps =>
      refine (h.rpc k r hr).step hsame hs ?_
      rw [hresps, hsame.body]
      exact (h.rpc k r hr).answered
    | answered r recent m hr hsame _ _ _ hresps =>
      refine (h.rpc k r hr).step hsame hs fun resp hresp => ?_
      rw [hresps, List.mem_append, List.mem_singleton] at hresp
      rw [hsame.body]
      rcases hresp with hresp | rfl
      · exact (h.rpc k r hr).answered resp hresp
      · exact ⟨io, recent, m, rfl⟩
    | sent q body _ hm hc hr' =>
      obtain ⟨hq, hform, hpast⟩ := hsec.sendable hmem hm
      subst hr'
      refine ⟨hp, hq, hform, step_epoch hs p, fun m hm' _ => ?_, by simp⟩
      rcases hsec.server with ⟨-, hsrv⟩ | ⟨_, _, hdie, -⟩
      · rw [State.node, hsrv] at hm'
        exact Option.some.inj hm' ▸ hpast
      · rw [hc] at hdie
        cases hdie
  · exact (h.rpc k r' hr').step (.refl r') hs (h.rpc k r' hr').answered

theorem requested_init (cfg : Config) : Requested cfg cfg.init :=
  ⟨enrolled_init cfg, by simp [Config.init]⟩

theorem Requested.reaches {P : State → Action → Prop} (h : Requested cfg s)
    (hs : Reaches (KMC.step cfg) P s t) : Requested cfg t :=
  hs.invariant (fun _ _ _ hI _ hstep => hI.step hstep) h

end KMC
