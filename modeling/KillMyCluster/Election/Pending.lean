import KillMyCluster.Election.PreVote
import KillMyCluster.Election.Progress

/-! Elections under way. A poll or an election is decided by the grants that its requests have
brought in and can still bring in; from a state in which one is decided, in which a backed node is
free to stand, or in which a message is ahead of everybody's term, a leader comes about. -/

namespace KMC

open Trace

variable {cfg : Config} {s t u : State} {a : Action} {p q k : ℕ} {io : Io} {recent : Bool}
  {n m : Node} {e : Effect} {body : Body} {T : ℕ} {req : RequestVoteRequest}

/-! ## Who grants -/

/-- The conditions under which the handler of RequestVote grants, unless a leader was heard recently
or the disk fails. -/
def Node.MayGrant (n : Node) : Body → Prop
  | .preVote _ _ req => n.stopped = false ∧ n.upToDate req = true ∧ n.currentTerm < req.term
  | .vote req => n.stopped = false ∧ n.upToDate req = true ∧
      (n.currentTerm < req.term ∨ n.currentTerm = req.term ∧
        (n.votedFor = noVote ∨ n.votedFor = req.candidateId))
  | _ => False

/-- The request belongs to the poll or the election that `n` is in. -/
def Body.Asks (n : Node) : Body → Prop
  | .preVote term round _ => n.role = .follower ∧ term = n.currentTerm ∧ round = n.preVoteRound
  | .vote req => n.role = .candidate ∧ req.term = n.currentTerm
  | _ => False

theorem Body.Asks.leader (h : body.Asks n) : body.leader = none := by
  cases body with
  | preVote | vote => rfl
  | replicate | heartbeat | snapshot => exact h.elim

theorem Node.adoptTerm_upToDate (n : Node) (t : ℕ) (req : RequestVoteRequest) :
    (n.adoptTerm t).node.upToDate req = n.upToDate req := by
  unfold Node.adoptTerm
  split <;> rfl

theorem Node.castVote_mayVote {fail : Call → Bool}
    (h : (n.castVote fail req).2.voteGranted = true) :
    n.upToDate req = true ∧ (n.votedFor = noVote ∨ n.votedFor = req.candidateId) := by
  unfold Node.castVote at h
  split at h
  · cases h
  rename_i hv
  split at h
  · cases h
  rename_i hup
  exact ⟨by simpa using hup, by simpa only [not_and_or, not_not] using hv⟩

theorem Node.handleRequestVote_mayVote {fail : Call → Bool} (hreq : req.preVote = false)
    (h : (n.handleRequestVote fail recent req).2.voteGranted = true) : n.MayGrant (.vote req) := by
  unfold Node.handleRequestVote at h
  split at h
  · cases h
  rename_i hrun
  rw [if_neg (by simp [hreq])] at h
  split at h
  · cases h
  simp only at h
  split at h
  · cases h
  rename_i hterm
  obtain ⟨hup, hv⟩ := Node.castVote_mayVote h
  rw [Node.adoptTerm_upToDate] at hup
  refine ⟨by simpa using hrun, hup, ?_⟩
  unfold Node.adoptTerm at hterm hv
  split at hterm
  · rename_i hlt
    exact .inl hlt
  · rename_i hge
    rw [if_neg hge] at hv
    exact .inr ⟨by simp only at hterm; omega, hv⟩

theorem Node.answerPreVote_mayGrant (h : (n.answerPreVote recent req).voteGranted = true) :
    n.upToDate req = true ∧ n.currentTerm < req.term := by
  simp only [Node.answerPreVote, Bool.and_eq_true, decide_eq_true_eq] at h
  exact ⟨h.2, h.1.1⟩

/-- Who grants, however it comes to it, may grant. -/
theorem mayGrant_of_handle (hf : body.Formed p) (hb : body.leader = none)
    (h : (handle io recent m body).2.Grants T) : m.MayGrant body := by
  obtain ⟨T', -, h⟩ := h
  cases body with
  | preVote term round req =>
    have hv : (m.handleRequestVote io.fail recent req).2 = ⟨T', true⟩ := Response.vote.inj h
    have hg := congrArg RequestVoteResponse.voteGranted hv
    unfold Node.handleRequestVote at hg
    split at hg
    · cases hg
    rename_i hrun
    rw [if_pos hf.1] at hg
    exact ⟨by simpa using hrun, Node.answerPreVote_mayGrant hg⟩
  | vote req =>
    have hv : (m.handleRequestVote io.fail recent req).2 = ⟨T', true⟩ := Response.vote.inj h
    exact Node.handleRequestVote_mayVote hf.1 (congrArg RequestVoteResponse.voteGranted hv)
  | replicate | heartbeat | snapshot => cases hb

theorem Node.MayGrant.handle (hf : body.Formed p) (ha : body.Asks n) (h : m.MayGrant body) :
    (KMC.handle {} false m body).2.Grants n.currentTerm := by
  cases body with
  | preVote term round req =>
    obtain ⟨hrun, hup, hlt⟩ := h
    obtain ⟨-, rfl, -⟩ := ha
    have hle : m.currentTerm ≤ n.currentTerm := by
      have := hf.2
      omega
    refine ⟨m.currentTerm, hle, congrArg Response.vote ?_⟩
    change (m.handleRequestVote _ false req).2 = _
    rw [Node.handleRequestVote, if_neg (by simp [hrun]), if_pos hf.1, Node.answerPreVote, hup]
    simp [Node.heardLeaderRecentlyLocked, hlt]
  | vote req =>
    obtain ⟨hrun, hup, hterm⟩ := h
    refine ⟨req.term, ha.2.le, congrArg Response.vote ?_⟩
    change (m.handleRequestVote _ false req).2 = _
    rw [Node.handleRequestVote, if_neg (by simp [hrun]), if_neg (by simp [hf.1]),
      if_neg (by simp [Node.heardLeaderRecentlyLocked])]
    have hadopt : (m.adoptTerm req.term).node.currentTerm = req.term ∧
        ((m.adoptTerm req.term).node.votedFor = noVote ∨
          (m.adoptTerm req.term).node.votedFor = req.candidateId) := by
      unfold Node.adoptTerm
      split
      · exact ⟨rfl, .inl rfl⟩
      · exact ⟨by simp only; omega, (hterm.resolve_left ‹_›).2⟩
    simp only [hadopt.1, lt_irrefl, if_false]
    unfold Node.castVote
    rw [if_neg (by simpa only [not_and_or, not_not] using hadopt.2), if_neg (by
      simp [Node.adoptTerm_upToDate, hup]), hadopt.1]
    rfl
  | replicate | heartbeat | snapshot => exact ha.elim

/-- `m` is `n` later on in an election: what it grants then it would have granted before. -/
structure Node.Yields (n m : Node) : Prop where
  log : m.log = n.log
  stopped : m.stopped = n.stopped
  hard : Legal n.hard m.hard

theorem Node.upToDate_congr (h : m.log = n.log) (req : RequestVoteRequest) :
    m.upToDate req = n.upToDate req := by
  unfold Node.upToDate
  rw [h]

theorem Node.Yields.mayGrant (h : n.Yields m) (hg : m.MayGrant body) : n.MayGrant body := by
  have hlegal := h.hard
  unfold Legal Node.hard at hlegal
  cases body with
  | preVote _ _ req =>
    obtain ⟨hrun, hup, hlt⟩ := hg
    exact ⟨h.stopped ▸ hrun, (Node.upToDate_congr h.log req).symm.trans hup, by omega⟩
  | vote req =>
    obtain ⟨hrun, hup, hterm⟩ := hg
    exact ⟨h.stopped ▸ hrun, (Node.upToDate_congr h.log req).symm.trans hup, by omega⟩
  | replicate | heartbeat | snapshot => exact hg.elim

theorem handle_yields (hio : io.HardStates) (hb : body.leader = none) :
    m.Yields (handle io recent m body).1.node := by
  have hhard := (handle_quiet hio recent m body).ledger.legal
  have hnode : ∀ req, (m.handleRequestVote io.fail recent req).1.node.log = m.log ∧
      (m.handleRequestVote io.fail recent req).1.node.stopped = m.stopped := by
    intro req
    obtain ⟨v, hv | ⟨-, hv⟩⟩ := m.handleRequestVote_node io.fail recent req <;> rw [hv] <;>
      exact ⟨rfl, rfl⟩
  cases body with
  | preVote _ _ req => exact ⟨(hnode req).1, (hnode req).2, hhard⟩
  | vote req => exact ⟨(hnode req).1, (hnode req).2, hhard⟩
  | replicate | heartbeat | snapshot => cases hb

/-! ## Requests that can still bring in a grant -/

def Node.count (n : Node) : ℕ := if n.role = .candidate then n.votes else n.preVotes

/-- A request of `n`'s poll or election whose answer is not used yet; a grant has come in, or the
receiver would give one. -/
structure Rpc.Open (s : State) (p : ℕ) (n : Node) (r : Rpc) : Prop where
  src : r.src = p
  fresh : r.handled = false
  alive : (s.servers p).epoch = r.epoch
  asks : r.body.Asks n
  grant : (∃ resp ∈ r.resps, resp.Grants n.currentTerm) ∨
    ∃ m, s.node r.dst = some m ∧ (handle {} false m r.body).2.Grants n.currentTerm

def Open (s : State) (p : ℕ) (n : Node) (k : ℕ) : Prop :=
  ∃ r, s.rpcs[k]? = some r ∧ r.Open s p n

/-- With what can still come in, the count reaches a majority. -/
def Decides (s : State) (p : ℕ) (n : Node) : Prop :=
  n.count < n.majority ∧
    ∃ K : Finset ℕ, (∀ k ∈ K, Open s p n k) ∧ n.majority ≤ n.count + K.card

/-- After granting one request of a poll or an election, a node would still grant another. -/
theorem grants_again {body' : Body} (hf : body.Formed p) (hf' : body'.Formed p)
    (ha : body.Asks n) (ha' : body'.Asks n)
    (h : (handle {} false m body).2.Grants n.currentTerm)
    (h' : (handle {} false m body').2.Grants n.currentTerm) :
    (handle {} false (handle {} false m body).1.node body').2.Grants n.currentTerm := by
  have hold := mayGrant_of_handle hf' ha'.leader h'
  refine Node.MayGrant.handle hf' ha' ?_
  cases body with
  | preVote term round req =>
    have hsame : (handle {} false m (.preVote term round req)).1.node = m := by
      obtain ⟨v, hv, -⟩ : ∃ v, m.handleRequestVote ({} : Io).fail false req = ({ node := m }, v) ∧
        v.term = m.currentTerm := Node.handleRequestVote_poll hf.1
      rw [handle, hv]
    rw [hsame]
    exact hold
  | vote req =>
    cases body' with
    | vote req' =>
      have hy : m.Yields (handle {} false m (.vote req)).1.node :=
        handle_yields (fun _ _ => rfl) ha.leader
      obtain ⟨T', -, h⟩ := h
      have hv : (m.handleRequestVote ({} : Io).fail false req).2 = ⟨T', true⟩ :=
        Response.vote.inj h
      have hhard := Node.handleRequestVote_granted hf.1
        (congrArg RequestVoteResponse.voteGranted hv)
      obtain ⟨hterm, hvote⟩ := Prod.mk.inj hhard
      obtain ⟨hrun, hup, -⟩ := hold
      refine ⟨hy.stopped.trans hrun, (Node.upToDate_congr hy.log req').trans hup,
        .inr ⟨?_, .inr ?_⟩⟩
      · exact hterm.trans (ha.2.trans ha'.2.symm)
      · exact hvote.trans (hf.2.trans hf'.2.symm)
    | preVote | replicate | heartbeat | snapshot => simp_all [Body.Asks]
  | replicate | heartbeat | snapshot => exact ha.elim

theorem handle_asked_term (hf : body.Formed p) (ha : body.Asks n) :
    (handle io recent m body).1.node.currentTerm ≤ max m.currentTerm n.currentTerm := by
  cases body with
  | preVote term round req =>
    obtain ⟨v, hv, -⟩ : ∃ v, m.handleRequestVote io.fail recent req = ({ node := m }, v) ∧
      v.term = m.currentTerm := Node.handleRequestVote_poll hf.1
    rw [handle, hv]
    exact le_max_left _ _
  | vote req =>
    obtain ⟨v, hv | ⟨-, hv⟩⟩ := m.handleRequestVote_node io.fail recent req
    · exact (congrArg Node.currentTerm hv).le.trans (le_max_left _ _)
    · exact (congrArg Node.currentTerm hv).le.trans (ha.2.le.trans (le_max_right _ _))
  | replicate | heartbeat | snapshot => exact ha.elim

/-! ## Counting them -/

/-- Everybody but `p` is running with the log it had, in its term or in one not above `T`. -/
def Spared (s t : State) (p T : ℕ) : Prop :=
  ∀ x, x ≠ p → ∀ m, s.node x = some m → ∃ m', t.node x = some m' ∧ m'.log = m.log ∧
    m'.stopped = m.stopped ∧ m'.currentTerm ≤ max m.currentTerm T

theorem Spared.of_same (h : ∀ x, x ≠ p → t.node x = s.node x) : Spared s t p T :=
  fun x hx m hm => ⟨m, (h x hx).trans hm, rfl, rfl, le_max_left _ _⟩

theorem Spared.finish (s : State) (p T : ℕ) (e : Effect) : Spared s (s.finish p {} e) p T :=
  .of_same fun _ hx => s.finish_proc_ne e hx

theorem Spared.mono {T' : ℕ} (h : Spared s t p T) (hT : T ≤ T') : Spared s t p T' := by
  intro x hx m hm
  obtain ⟨m', hm', hlog, hst, hle⟩ := h x hx m hm
  exact ⟨m', hm', hlog, hst, by omega⟩

theorem Spared.trans (h : Spared s t p T) (h' : Spared t u p T) : Spared s u p T := by
  intro x hx m hm
  obtain ⟨m₁, hm₁, hlog₁, hst₁, hle₁⟩ := h x hx m hm
  obtain ⟨m₂, hm₂, hlog₂, hst₂, hle₂⟩ := h' x hx m₁ hm₁
  exact ⟨m₂, hm₂, hlog₂.trans hlog₁, hst₂.trans hst₁, by omega⟩

/-- The receiver is asked, unless a grant has come in already. -/
theorem Open.deliver (hI : Requested cfg s) (h : Open s p n k) :
    ∃ v, Leadsto cfg s v ∧ v.node p = s.node p ∧ Spared s v p n.currentTerm ∧
      (∀ j, Open s p n j → Open v p n j) ∧ ∃ r', v.rpcs[k]? = some r' ∧ r'.Open v p n ∧
        ∃ resp ∈ r'.resps, resp.Grants n.currentTerm := by
  obtain ⟨r, hr, ho⟩ := h
  rcases ho.grant with hresp | ⟨m, hm, hg⟩
  · exact ⟨s, .refl s, rfl, .of_same fun _ _ => rfl, fun _ h => h, r, hr, ho, hresp⟩
  have hiss := hI.rpc k r hr
  have hform : r.body.Formed p := ho.src ▸ hiss.formed
  have hne : r.dst ≠ p := ho.src ▸ hiss.ne
  set served := (handle {} false m r.body).1 with hserved
  set resp := (handle {} false m r.body).2 with hresp
  set v := (s.finish r.dst {} served).answer k {} resp with hv
  have hat : v.node r.dst = some served.node := s.finish_proc ..
  have hrest : ∀ x, x ≠ r.dst → v.node x = s.node x := fun x hx => s.finish_proc_ne served hx
  have hopen : ∀ j, Open s p n j → Open v p n j := by
    rintro j ⟨rj, hrj, hoj⟩
    refine ⟨_, State.rpcs_answer (State.rpcs_finish hrj), ?_⟩
    have halive : (v.servers p).epoch = rj.epoch := (s.finish_epoch ..).trans hoj.alive
    have hgrant : (∃ x ∈ rj.resps, x.Grants n.currentTerm) ∨
        ∃ m, v.node rj.dst = some m ∧ (handle {} false m rj.body).2.Grants n.currentTerm := by
      refine hoj.grant.imp_right ?_
      rintro ⟨mj, hmj, hgj⟩
      by_cases hsame : rj.dst = r.dst
      · rw [hsame] at hmj
        obtain rfl := Option.mem_unique hm hmj
        exact ⟨_, hsame ▸ hat, grants_again hform (hoj.src ▸ (hI.rpc j rj hrj).formed) ho.asks
          hoj.asks hg hgj⟩
      · exact ⟨mj, (hrest _ hsame).trans hmj, hgj⟩
    split
    · refine ⟨hoj.src, hoj.fresh, halive, hoj.asks, hgrant.imp_left ?_⟩
      rintro ⟨x, hx, hxg⟩
      exact ⟨x, List.mem_append_left _ hx, hxg⟩
    · exact ⟨hoj.src, hoj.fresh, halive, hoj.asks, hgrant⟩
  refine ⟨v, .deliver cfg hr hm ho.asks.leader, hrest p hne.symm, fun x hx m' hm' => ?_, hopen,
    { r with resps := r.resps ++ [resp] }, ?_, ?_⟩
  · by_cases hxd : x = r.dst
    · subst hxd
      obtain rfl := Option.mem_unique hm hm'
      have hy : m.Yields served.node := handle_yields (fun _ _ => rfl) ho.asks.leader
      exact ⟨_, hat, hy.log, hy.stopped, handle_asked_term hform ho.asks⟩
    · exact ⟨m', (hrest x hxd).trans hm', rfl, rfl, le_max_left _ _⟩
  · rw [hv, State.rpcs_answer (State.rpcs_finish hr), if_pos rfl]
  · have hmem : resp ∈ r.resps ++ [resp] := by simp
    exact ⟨⟨ho.src, ho.fresh, (s.finish_epoch ..).trans ho.alive, ho.asks, .inl ⟨resp, hmem, hg⟩⟩,
      resp, hmem, hg⟩

theorem Open.respond (hI : Requested cfg s) {r : Rpc} (hr : s.rpcs[k]? = some r)
    (ho : r.Open s p n) {resp : Response} (hresp : resp ∈ r.resps) (hm : s.node p = some m)
    (he : receive {} m r.dst r.body resp = some e) :
    Leadsto cfg s ((s.markHandled k).finish p {} e) ∧
      ∀ j, j ≠ k → Open s p n j → Open ((s.markHandled k).finish p {} e) p n j := by
  obtain rfl := ho.src
  refine ⟨.respond cfg hr hresp ho.fresh ho.alive hm he, ?_⟩
  rintro j hjk ⟨rj, hrj, hoj⟩
  have hrj' : (s.markHandled k).rpcs[j]? = some rj := by
    rw [State.rpcs_markHandled hrj, if_neg hjk.symm]
  have hne : rj.dst ≠ r.src := hoj.src ▸ (hI.rpc j rj hrj).ne
  refine ⟨rj, State.rpcs_finish hrj', hoj.src, hoj.fresh, (State.finish_epoch ..).trans hoj.alive,
    hoj.asks, hoj.grant.imp_right ?_⟩
  rintro ⟨mj, hmj, hgj⟩
  exact ⟨mj, (State.finish_proc_ne _ _ hne).trans hmj, hgj⟩

/-- The requests are answered one after the other until the count is complete. -/
theorem tally (hI : Requested cfg s) {mine : ℕ → Node} {c M : ℕ}
    (htally : ∀ body : Body, body.Asks n → Tallies body n.currentTerm M mine e)
    (hn : s.node p = some (mine c)) {K : Finset ℕ} (hK : ∀ k ∈ K, Open s p n k) (hc : c < M)
    (hM : M ≤ c + K.card) :
    ∃ u, Leadsto cfg s (u.finish p {} e) ∧ Spared s u p n.currentTerm := by
  induction K using Finset.induction_on generalizing s c with
  | empty =>
    rw [Finset.card_empty] at hM
    omega
  | insert k K hk ih =>
    obtain ⟨v, hsv, hpv, hspare, hopen, r', hr', ho', resp, hresp, hg⟩ :=
      (hK k (Finset.mem_insert_self k K)).deliver hI
    have hT := htally r'.body ho'.asks
    have hIv := hI.reaches hsv
    by_cases hlast : c + 1 = M
    · obtain ⟨hvw, -⟩ := Open.respond hIv hr' ho' hresp (hpv.trans hn) (hT.last c _ _ hg hlast)
      exact ⟨_, hsv.trans hvw, hspare⟩
    · obtain ⟨hvw, hstay⟩ :=
        Open.respond hIv hr' ho' hresp (hpv.trans hn) (hT.more c _ _ hg hlast)
      rw [Finset.card_insert_of_notMem hk] at hM
      have hKw := fun j hj =>
        hstay j (ne_of_mem_of_not_mem hj hk) (hopen j (hK j (Finset.mem_insert_of_mem hj)))
      obtain ⟨u, hwu, hrest⟩ :=
        ih (hIv.reaches hvw) (State.finish_proc ..) hKw (by omega) (by omega)
      have hspare : Spared s (v.markHandled k) p n.currentTerm := hspare
      exact ⟨u, (hsv.trans hvw).trans hwu, hspare.trans ((Spared.finish _ _ _ _).trans hrest)⟩

/-- A candidate whose election is decided wins it. -/
theorem Decides.win (hI : Requested cfg s) (hn : s.node p = some n) (hrun : n.stopped = false)
    (hrole : n.role = .candidate) (h : Decides s p n) :
    ∃ t m, Leadsto cfg s t ∧ Spared s t p n.currentTerm ∧ t.node p = some m ∧
      m.leads n.currentTerm = true := by
  obtain ⟨hc, K, hK, hM⟩ := h
  have hcount : n.count = n.votes := if_pos hrole
  rw [hcount] at hc hM
  have htally : ∀ body : Body, body.Asks n → Tallies body n.currentTerm n.majority
      (fun c => { n with votes := c })
      { node := Node.becomeLeaderLocked { n with votes := n.majority } } := by
    intro body ha
    cases body with
    | vote req => exact tallies_election hrole hrun ha.2
    | preVote => exact absurd (hrole.symm.trans ha.1) (by decide)
    | replicate | heartbeat | snapshot => exact ha.elim
  obtain ⟨u, hsu, hspare⟩ := tally hI htally (c := n.votes) hn hK hc hM
  exact ⟨_, _, hsu, hspare.trans (.finish _ _ _ _), u.finish_proc ..,
    Node.leads_iff.mpr ⟨hrun, rfl, rfl⟩⟩

/-- A follower whose poll is decided stands for election. -/
theorem Decides.stand (hI : Requested cfg s) (hn : s.node p = some n) (hrun : n.stopped = false)
    (hrole : n.role = .follower) (h : Decides s p n) :
    ∃ u, Spared s u p n.currentTerm ∧ Leadsto cfg s (u.finish p {}
      (Node.startElectionLocked ({} : Io).fail { n with preVotes := n.majority })) := by
  obtain ⟨hc, K, hK, hM⟩ := h
  have hcount : n.count = n.preVotes := if_neg (by simp [hrole])
  rw [hcount] at hc hM
  have htally : ∀ body : Body, body.Asks n → Tallies body n.currentTerm n.majority
      (fun c => { n with preVotes := c })
      (Node.startElectionLocked ({} : Io).fail { n with preVotes := n.majority }) := by
    intro body ha
    cases body with
    | preVote term round req =>
      obtain ⟨-, rfl, rfl⟩ := ha
      exact tallies_round hrole hrun req
    | vote => exact absurd (hrole.symm.trans ha.1) (by decide)
    | replicate | heartbeat | snapshot => exact ha.elim
  obtain ⟨u, hsu, hspare⟩ := tally hI htally (c := n.preVotes) hn hK hc hM
  exact ⟨u, hspare, hsu⟩

/-! ## Electing a node -/

/-- A poll or an election that has just begun is decided if enough peers will grant. -/
theorem decides_fresh (hasks : body.Asks e.node)
    (hsends : e.sends = n.peers.map fun q => (q, body)) {V : Finset ℕ}
    (hV : ∀ q ∈ V, q ∈ n.peers ∧ q ≠ p ∧ ∃ m, s.node q = some m ∧
      (handle {} false m body).2.Grants e.node.currentTerm)
    (hone : e.node.count = 1) (hmaj : 1 < e.node.majority) (hM : e.node.majority ≤ 1 + V.card) :
    Decides (s.finish p {} e) p e.node := by
  have hinj : Set.InjOn (fun q => s.rpcs.length + n.peers.idxOf q) V := fun q hq q' _ heq =>
    (List.idxOf_inj (hV q hq).1).mp (Nat.add_left_cancel heq)
  refine ⟨hone ▸ hmaj, V.image fun q => s.rpcs.length + n.peers.idxOf q, fun k hk => ?_, ?_⟩
  · obtain ⟨q, hq, rfl⟩ := Finset.mem_image.mp hk
    obtain ⟨hpeer, hqp, m, hm, hg⟩ := hV q hq
    have hsent : e.sends[n.peers.idxOf q]? = some (q, body) := by
      rw [hsends, List.getElem?_map, List.getElem?_idxOf hpeer]
      rfl
    exact ⟨_, s.rpcs_sent p hsent, rfl, rfl, s.finish_epoch .., hasks,
      .inr ⟨m, (s.finish_proc_ne e hqp).trans hm, hg⟩⟩
  · rwa [hone, Finset.card_image_of_injOn hinj]

/-- A follower is elected by enough peers that are not in higher terms and whose logs it covers. -/
theorem elect_follower (hI : Requested cfg s) (hn : s.node p = some n) (hrun : n.stopped = false)
    (hrole : n.role = .follower) {V : Finset ℕ} (hV : ∀ q ∈ V, q ∈ n.peers ∧ q ≠ p ∧
      ∃ m, s.node q = some m ∧ m.stopped = false ∧ m.currentTerm ≤ n.currentTerm ∧ n.Covers m)
    (hM : n.majority ≤ 1 + V.card) :
    ∃ t m, Leadsto cfg s t ∧ Spared s t p (n.currentTerm + 1) ∧ t.node p = some m ∧
      m.leads (n.currentTerm + 1) = true := by
  have hnl : n.role ≠ .leader := by simp [hrole]
  rcases Nat.lt_or_ge 1 n.majority with hmaj | hmaj
  swap
  · have hs := step_tick cfg hn hrun hnl
    exact ⟨_, _, (Reaches.refl s).snoc hs ⟨rfl, rfl, trivial⟩,
      .finish _ _ _ _, s.finish_proc .., n.startPreVote_alone hmaj hrun⟩
  -- the poll
  have hst := tick_polls cfg hn hrun hnl hmaj
  have hpoll : Decides (s.finish p {} n.polling) p n.polling.node := by
    have hasks : Body.Asks n.polling.node
        (.preVote n.currentTerm (n.preVoteRound + 1) n.pollRequest) := ⟨hrole, rfl, rfl⟩
    refine decides_fresh (n := n) hasks rfl (fun q hq => ?_)
      (if_neg (by simp [Node.polling, hrole])) hmaj hM
    obtain ⟨hpeer, hqp, m, hm, hrun', hle, hcov⟩ := hV q hq
    exact ⟨hpeer, hqp, m, hm, poll_granted hrun' hle hcov _ _⟩
  obtain ⟨u, hspare, hu⟩ := hpoll.stand (hI.reaches hst) (s.finish_proc ..) hrun hrole
  rw [Node.startElection_standing (n := { n.polling.node with preVotes := n.polling.node.majority })
    hmaj] at hu
  have hsu := (Spared.finish s p _ n.polling).trans hspare
  -- the election
  have hasks : Body.Asks
      (Node.standing { n.polling.node with preVotes := n.polling.node.majority })
      (.vote n.voteRequest) := ⟨rfl, rfl⟩
  have hvote := decides_fresh (s := u) (p := p) (V := V) (n := n)
    (e := { node := Node.standing { n.polling.node with preVotes := n.polling.node.majority }
            calls := [.saveHardState (n.currentTerm + 1) n.id]
            sends := n.peers.map fun q => (q, .vote n.voteRequest) })
    hasks rfl (fun q hq => by
      obtain ⟨hpeer, hqp, m, hm, hrun', hle, hcov⟩ := hV q hq
      obtain ⟨m', hm', hlog, hst', hle'⟩ := hsu q hqp m hm
      exact ⟨hpeer, hqp, m', hm', vote_granted (hst'.trans hrun') (hle'.trans (max_le hle le_rfl))
        ((Node.covers_congr rfl hlog).mpr hcov)⟩) rfl hmaj hM
  have hsv := hst.trans hu
  obtain ⟨v, m, huv, hspare', hm, hl⟩ := hvote.win (hI.reaches hsv) (u.finish_proc ..) hrun rfl
  exact ⟨v, m, hsv.trans huv,
    (hsu.mono (Nat.le_succ _)).trans ((Spared.finish _ _ _ _).trans hspare'), hm, hl⟩

/-- `p` leads term `T`, and the others of `S` are running in terms that are not above. -/
structure Led (S : Finset ℕ) (T p : ℕ) (s : State) : Prop where
  leader : ∃ n, s.node p = some n ∧ n.leads T = true
  others : ∀ q ∈ S, q ≠ p → ∃ m, s.node q = some m ∧ m.stopped = false ∧ m.currentTerm ≤ T
  down : ∀ q ∉ S, s.node q = none

section Elect

variable {S V : Finset ℕ} (hI : Requested cfg s) (h : Present S s) (hn : s.node p = some n)
  (hV : V ⊆ S) (hmaj : cfg.ids.length < 2 * V.card)
  (hcov : ∀ q ∈ V, ∀ m, s.node q = some m → n.Covers m)
include hI h hn hV hmaj hcov

theorem Present.elect_top (hrole : n.role = .follower)
    (hmax : ∀ q m, s.node q = some m → m.currentTerm ≤ n.currentTerm) :
    ∃ t, Leadsto cfg s t ∧ Led S (n.currentTerm + 1) p t := by
  have hpeers := hI.enrolled.peers hn
  have hM : n.majority ≤ 1 + (V.erase p).card := by
    have hlen := cfg.length_peers (hI.enrolled p n hn).1
    have herase := Finset.pred_card_le_card_erase (s := V) (a := p)
    rw [Node.majority, hpeers]
    omega
  obtain ⟨t, m, hst, hspare, hm, hl⟩ := elect_follower hI hn (h.running hn) hrole (fun q hq => by
    obtain ⟨hqp, hq⟩ := Finset.mem_erase.mp hq
    obtain ⟨m, hm, hrun⟩ := h.up q (hV hq)
    exact ⟨hpeers ▸ Config.mem_peers.mpr ⟨(hI.enrolled q m hm).1, hqp⟩, hqp, m, hm, hrun,
      hmax q m hm, hcov q hq m hm⟩) hM
  refine ⟨t, hst, ⟨m, hm, hl⟩, fun q hq hqp => ?_, fun q hq => hst.down (h.down q hq)⟩
  obtain ⟨m, hm, hrun⟩ := h.up q hq
  obtain ⟨m', hm', -, hst', hle⟩ := hspare q hqp m hm
  exact ⟨m', hm', hst'.trans hrun, hle.trans (max_le (Nat.le_succ_of_le (hmax q m hm)) le_rfl)⟩

/-- A node that covers the logs of a majority and is not a candidate in the highest term can be
elected, in a higher term. If its term is not the highest, it first learns that in a poll. -/
theorem Present.elect (hlead : n.role ≠ .leader)
    (hfree : n.role = .candidate → ∃ q m, s.node q = some m ∧ n.currentTerm < m.currentTerm) :
    ∃ t T, Leadsto cfg s t ∧ Led S T p t ∧ n.currentTerm < T := by
  have hrun := h.running hn
  obtain ⟨q, m, hm, hmax⟩ := h.exists_max_term hn
  rcases Nat.lt_or_ge n.currentTerm m.currentTerm with hlt | hge
  · have hqp : q ≠ p := by
      rintro rfl
      obtain rfl := Option.mem_unique hn hm
      exact lt_irrefl _ hlt
    have hpeer : q ∈ n.peers :=
      hI.enrolled.peers hn ▸ Config.mem_peers.mpr ⟨(hI.enrolled q m hm).1, hqp⟩
    obtain ⟨t, hst, ht, hothers⟩ := learn_term cfg hn hrun hlead hpeer hqp hm hlt
    -- everybody else is as before, and `p` is a follower with its old log
    have hat : ∀ x m', t.node x = some m' →
        (x = p ∧ m' = (n.polling.node.becomeFollowerLocked m.currentTerm).node) ∨
          s.node x = some m' := by
      intro x m' hm'
      by_cases hxp : x = p
      · subst hxp
        exact .inl ⟨rfl, Option.mem_unique hm' ht⟩
      · exact .inr ((hothers x hxp).symm.trans hm')
    have hpres : Present S t := by
      refine ⟨fun x hx => ?_, fun x hx => hst.down (h.down x hx)⟩
      by_cases hxp : x = p
      · exact hxp ▸ ⟨_, ht, hrun⟩
      · exact hothers x hxp ▸ h.up x hx
    obtain ⟨u, htu, hled⟩ := hpres.elect_top (hI.reaches hst) ht hV hmaj (fun x hx m' hm' => by
      rcases hat x m' hm' with ⟨rfl, rfl⟩ | hm'
      · exact hcov x hx n hn
      · exact hcov x hx m' hm') rfl fun x m' hm' => by
        rcases hat x m' hm' with ⟨-, rfl⟩ | hm'
        · exact le_rfl
        · exact hmax x m' hm'
    exact ⟨u, _, hst.trans htu, hled, hlt.trans (Nat.lt_succ_self _)⟩
  · have hrole : n.role = .follower := by
      cases hr : n.role with
      | follower => rfl
      | candidate =>
        obtain ⟨x, m', hm', hlt⟩ := hfree hr
        have := hmax x m' hm'
        omega
      | leader => exact absurd hr hlead
    obtain ⟨t, hst, hled⟩ := h.elect_top hI hn hV hmaj hcov hrole
      fun x m' hm' => (hmax x m' hm').trans hge
    exact ⟨t, _, hst, hled, Nat.lt_succ_self _⟩

end Elect

/-- A backed node that is not a candidate in the highest term becomes leader, in a higher term. -/
theorem elect_free (hI : Requested cfg s) (hup : AllUp cfg s) (hn : s.node p = some n)
    (hb : Backed cfg s n) (hlead : n.role ≠ .leader)
    (hfree : n.role = .candidate → ∃ q m, s.node q = some m ∧ n.currentTerm < m.currentTerm) :
    ∃ t m, Leadsto cfg s t ∧ t.node p = some m ∧ m.role = .leader ∧
      n.currentTerm < m.currentTerm := by
  obtain ⟨V, hV, hmaj, hcov⟩ := hb
  obtain ⟨t, T, hst, ⟨⟨m, hm, hl⟩, -, -⟩, hT⟩ :=
    (hup.present hI.enrolled).elect hI hn hV hmaj hcov hlead hfree
  obtain ⟨-, hrole, rfl⟩ := Node.leads_iff.mp hl
  exact ⟨t, m, hst, hm, hrole, hT⟩

/-! ## Where a leader comes about -/

def State.Top (s : State) (T : ℕ) : Prop := ∀ q m, s.node q = some m → m.currentTerm ≤ T

def State.Below (s : State) (T : ℕ) : Prop := ∀ q m, s.node q = some m → m.currentTerm < T

/-- A node leads; a backed one is free, not being a candidate in the highest term or having no
peers; a candidate's election is decided, or the poll of a follower in the highest term; or a
request for a vote, or an answer somebody waits for, is ahead of every node's term. -/
inductive Electable (cfg : Config) (s : State) : Prop
  | leads {p : ℕ} {n : Node} : s.node p = some n → n.role = .leader → Electable cfg s
  | free {p : ℕ} {n : Node} : s.node p = some n → Backed cfg s n →
      (n.role = .candidate → cfg.ids.length ≠ 1 → ¬ s.Top n.currentTerm) → Electable cfg s
  | wins {p : ℕ} {n : Node} : s.node p = some n → n.role = .candidate → Decides s p n →
      Electable cfg s
  | stands {p : ℕ} {n : Node} : s.node p = some n → n.role = .follower → s.Top n.currentTerm →
      Decides s p n → Electable cfg s
  | called {k : ℕ} {r : Rpc} {req : RequestVoteRequest} : s.rpcs[k]? = some r →
      r.body = .vote req → s.Below req.term → Electable cfg s
  | told {k : ℕ} {r : Rpc} {resp : Response} : s.rpcs[k]? = some r → r.handled = false →
      (s.servers r.src).epoch = r.epoch → resp ∈ r.resps → s.Below resp.term → Electable cfg s

def ReachesLeader (cfg : Config) (s : State) : Prop :=
  ∃ t q m, Leadsto cfg s t ∧ t.node q = some m ∧ m.role = .leader

theorem ReachesLeader.of (h : Leadsto cfg s t) (ht : ReachesLeader cfg t) :
    ReachesLeader cfg s := by
  obtain ⟨u, q, m, htu, hm, hl⟩ := ht
  exact ⟨u, q, m, h.trans htu, hm, hl⟩

theorem Backed.reachesLeader (hI : Requested cfg s) (hup : AllUp cfg s) (hn : s.node p = some n)
    (hb : Backed cfg s n)
    (hfree : n.role = .candidate → ∃ q m, s.node q = some m ∧ n.currentTerm < m.currentTerm) :
    ReachesLeader cfg s := by
  by_cases hlead : n.role = .leader
  · exact ⟨s, p, n, .refl s, hn, hlead⟩
  · obtain ⟨t, m, hst, hm, hl, -⟩ := elect_free hI hup hn hb hlead hfree
    exact ⟨t, p, m, hst, hm, hl⟩

theorem alone_reachesLeader (hI : Requested cfg s) (hup : AllUp cfg s) (hn : s.node p = some n)
    (h1 : cfg.ids.length = 1) : ReachesLeader cfg s := by
  obtain ⟨hp, -⟩ := hI.enrolled p n hn
  have hrun := (hup.present hI.enrolled).running hn
  by_cases hlead : n.role = .leader
  · exact ⟨s, p, n, .refl s, hn, hlead⟩
  · have hmaj : n.majority ≤ 1 := by
      have hlen := cfg.length_peers hp
      rw [Node.majority, hI.enrolled.peers hn]
      omega
    exact ⟨_, p, _, (Reaches.refl s).snoc (step_tick cfg hn hrun hlead) ⟨rfl, rfl, trivial⟩,
      s.finish_proc .., (Node.leads_iff.mp (Node.startPreVote_alone hmaj hrun)).2.1⟩

/-- One node is in a higher term than all others, as a follower or without being backed. -/
theorem ahead_reachesLeader (hI : Requested cfg s) (hup : AllUp cfg s) (hn : s.node p = some n)
    (hrest : ∀ q m, q ≠ p → s.node q = some m → m.currentTerm < n.currentTerm)
    (hself : Backed cfg s n → n.role ≠ .candidate) : ReachesLeader cfg s := by
  obtain ⟨q, m, hm, hb⟩ := exists_backed hI.enrolled hup hn
  refine hb.reachesLeader hI hup hm fun hc => ?_
  by_cases hqp : q = p
  · subst hqp
    obtain rfl := Option.mem_unique hn hm
    exact absurd hc (hself hb)
  · exact ⟨p, n, hn, hrest q m hqp hm⟩

/-- A node moves ahead of everybody as a follower. -/
theorem lifted_reachesLeader (hI : Requested cfg s) (hup : AllUp cfg s) (hst : Leadsto cfg s t)
    (hm : t.node p = some m) (hrole : m.role = .follower) (hrun : m.stopped = false)
    (hbelow : s.Below m.currentTerm) (hrest : ∀ q, q ≠ p → t.node q = s.node q) :
    ReachesLeader cfg s := by
  refine .of hst (ahead_reachesLeader (hI.reaches hst) (fun q hq => ?_) hm
    (fun q m' hqp hm' => hbelow q m' ((hrest q hqp).symm.trans hm')) fun _ => by simp [hrole])
  by_cases hqp : q = p
  · exact hqp ▸ ⟨m, hm, hrun⟩
  · rw [hrest q hqp]
    exact hup q hq

/-- A request for a vote in a higher term makes its receiver a follower in it. -/
theorem handle_vote_higher (hreq : req.preVote = false) (hrun : m.stopped = false)
    (hlt : m.currentTerm < req.term) : (handle {} false m (.vote req)).1.node.role = .follower ∧
      (handle {} false m (.vote req)).1.node.currentTerm = req.term := by
  change (m.handleRequestVote _ false req).1.node.role = _ ∧
    (m.handleRequestVote _ false req).1.node.currentTerm = _
  have hadopt : m.adoptTerm req.term = m.becomeFollowerLocked req.term := if_pos hlt
  have hterm : ¬ req.term < (m.becomeFollowerLocked req.term).node.currentTerm := lt_irrefl _
  rw [Node.handleRequestVote, if_neg (by simp [hrun]), if_neg (by simp [hreq]),
    if_neg (by simp [Node.heardLeaderRecentlyLocked]), hadopt]
  simp only [hterm, if_false, Effect.after_node]
  obtain ⟨v, hv⟩ := Node.castVote_node ({} : Io).fail (m.becomeFollowerLocked req.term).node req
  rw [hv]
  exact ⟨rfl, rfl⟩

/-- So does an answer of a higher term. -/
theorem receive_higher {resp : Response} (hrun : n.stopped = false)
    (hans : ∃ io recent m, resp = (handle io recent m body).2) (hlt : n.currentTerm < resp.term) :
    receive {} n q body resp = some (n.becomeFollowerLocked resp.term) := by
  obtain ⟨io, recent, m, rfl⟩ := hans
  have hst : ¬ n.stopped = true := by simp [hrun]
  cases body with
  | preVote => exact congrArg some ((if_neg hst).trans (if_pos hlt))
  | vote => exact congrArg some ((if_neg hst).trans (if_pos hlt))
  | replicate => exact congrArg some ((if_neg hst).trans (if_pos hlt))
  | heartbeat => exact congrArg some (if_pos hlt)
  | snapshot => exact congrArg some ((if_neg hst).trans (if_pos hlt))

theorem Decides.reachesLeader (hI : Requested cfg s) (hup : AllUp cfg s) (hn : s.node p = some n)
    (hrun : n.stopped = false) (hrole : n.role = .follower) (htop : s.Top n.currentTerm)
    (h : Decides s p n) : ReachesLeader cfg s := by
  by_cases hb : Backed cfg s n
  · exact hb.reachesLeader hI hup hn (by simp [hrole])
  obtain ⟨u, hspare, hst⟩ := h.stand hI hn hrun hrole
  rcases Nat.lt_or_ge 1 n.majority with hmaj | hmaj
  · rw [Node.startElection_standing (n := { n with preVotes := n.majority }) hmaj] at hst
    set t := u.finish p {} _
    have hI' := hI.reaches hst
    have ht : t.node p = some _ := u.finish_proc ..
    have hrest : ∀ q, q ≠ p → t.node q = u.node q := fun q hq => u.finish_proc_ne _ hq
    refine .of hst (ahead_reachesLeader hI' (fun q hq => ?_) ht (fun q m' hqp hm' => ?_)
      fun hbt => ?_)
    · by_cases hqp : q = p
      · exact hqp ▸ ⟨_, ht, hrun⟩
      · obtain ⟨m, hm, hrun'⟩ := hup q hq
        obtain ⟨m', hm', -, hst', -⟩ := hspare q hqp m hm
        exact ⟨m', (hrest q hqp).trans hm', hst'.trans hrun'⟩
    · obtain ⟨m, hm, -⟩ := hup q (hI'.enrolled q m' hm').1
      obtain ⟨m₁, hm₁, -, -, hle⟩ := hspare q hqp m hm
      obtain rfl := Option.some.inj (hm₁.symm.trans ((hrest q hqp).symm.trans hm'))
      exact Nat.lt_succ_of_le (hle.trans (max_le (htop q m hm) le_rfl))
    · -- it would have been backed before
      refine absurd (hbt.congr rfl fun q m hm => ?_) hb
      by_cases hqp : q = p
      · subst hqp
        obtain rfl := Option.mem_unique hn hm
        exact ⟨_, ht, rfl⟩
      · obtain ⟨m', hm', hlog, -⟩ := hspare q hqp m hm
        exact ⟨m', (hrest q hqp).trans hm', hlog.symm⟩
  · have hlead : (Node.startElectionLocked ({} : Io).fail
        { n with preVotes := n.majority }).node.role = .leader := by
      simp only [Node.startElectionLocked, Io.fail, Option.isSome_none, Bool.false_eq_true,
        if_false]
      rw [if_pos (by exact hmaj)]
      rfl
    exact ⟨_, p, _, hst, u.finish_proc .., hlead⟩

theorem Electable.reachesLeader (hI : Requested cfg s) (hup : AllUp cfg s) (h : Electable cfg s) :
    ReachesLeader cfg s := by
  have hpres := hup.present hI.enrolled
  cases h with
  | leads hn hl => exact ⟨s, _, _, .refl s, hn, hl⟩
  | free hn hb hfree =>
    by_cases h1 : cfg.ids.length = 1
    · exact alone_reachesLeader hI hup hn h1
    refine hb.reachesLeader hI hup hn fun hc => ?_
    have hno := hfree hc h1
    simp only [State.Top, not_forall, not_le] at hno
    obtain ⟨q, m, hm, hlt⟩ := hno
    exact ⟨q, m, hm, hlt⟩
  | wins hn hrole hd =>
    obtain ⟨t, m, hst, -, hm, hl⟩ := hd.win hI hn (hpres.running hn) hrole
    exact ⟨t, _, m, hst, hm, (Node.leads_iff.mp hl).2.1⟩
  | stands hn hrole htop hd => exact hd.reachesLeader hI hup hn (hpres.running hn) hrole htop
  | @called k r req hr hb hbelow =>
    have hiss := hI.rpc k r hr
    obtain ⟨m, hm, hrun⟩ := hup r.dst hiss.dst_mem
    have hform : req.preVote = false ∧ req.candidateId = r.src := by
      have := hiss.formed
      rwa [hb] at this
    obtain ⟨hrole, hterm⟩ := handle_vote_higher hform.1 hrun (hbelow _ m hm)
    have hy : m.Yields (handle {} false m (.vote req)).1.node :=
      handle_yields (fun _ _ => rfl) rfl
    have hst := Leadsto.deliver cfg hr hm (by rw [hb]; rfl)
    rw [hb] at hst
    exact lifted_reachesLeader hI hup hst (s.finish_proc ..) hrole (hy.stopped.trans hrun)
      (hterm ▸ hbelow) fun q hq => s.finish_proc_ne _ hq
  | @told k r resp hr hun hep hresp hbelow =>
    have hiss := hI.rpc k r hr
    obtain ⟨n, hn, hrun⟩ := hup r.src hiss.src
    have he : receive {} n r.dst r.body resp = some (n.becomeFollowerLocked resp.term) :=
      receive_higher hrun (hiss.answered resp hresp) (hbelow _ n hn)
    exact lifted_reachesLeader hI hup (.respond cfg hr hresp hun hep hn he) (State.finish_proc ..)
      rfl hrun hbelow fun q hq => State.finish_proc_ne _ _ hq

end KMC
