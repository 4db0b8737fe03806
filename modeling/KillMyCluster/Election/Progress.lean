import KillMyCluster.Election.Requests
import Mathlib.Data.Finset.Max
import Mathlib.Data.Prod.Lex

/-! Where an election can lead. A node that the logs of a majority do not outrun becomes leader by
timeouts, deliveries and answers alone, unless it is a candidate in the highest term: a candidate
does not count the answers to its polls, so a cluster of candidates stays as it is. -/

namespace KMC

open Trace

variable {cfg : Config} {s t u : State} {a : Action} {p q k : ℕ} {io : Io} {n m : Node} {e : Effect}
  {r : Rpc} {S : Finset ℕ}

/-! ## The steps of an election -/

/-- Timeouts, deliveries and answers in processes that survive them. -/
def Action.Electoral : Action → Prop
  | .tick _ io | .deliver _ _ io | .respond _ _ io => io.crash = none
  | _ => False

/-- No message of a former leader is accepted. -/
def Action.Unled (s : State) : Action → Prop
  | .deliver k _ _ => ∀ r ∈ s.rpcs[k]?, ∀ m ∈ s.node r.dst, ∀ x ∈ r.body.leader,
      x.1 < m.currentTerm
  | _ => True

/-- `t` comes from `s` by such steps, with persister calls that succeed. -/
def Leadsto (cfg : Config) (s t : State) : Prop :=
  Reaches (step cfg) (fun s a => a.Electoral ∧ a.Reliable ∧ a.Unled s) s t

variable {body : Body}

theorem Change.not_electoral {srv : Server} (h : Change cfg s a p srv) : ¬ a.Electoral := by
  cases h <;> exact id

theorem Leadsto.down (h : Leadsto cfg s t) (hq : s.node q = none) : t.node q = none := by
  refine h.invariant (I := fun u => u.node q = none) (fun s a t hq ha hs => ?_) hq
  rcases step_cases hs with ⟨p, io, n, e, hn, hsec⟩ | ⟨p, srv, hch, -⟩
  · have hqp : q ≠ p := by
      rintro rfl
      rw [hq] at hn
      cases hn
    exact (congrArg Server.proc (hsec.other hqp)).trans hq
  · exact absurd ha.1 hch.not_electoral

theorem State.finish_proc (s : State) (p : ℕ) (e : Effect) :
    (s.finish p {} e).node p = some e.node := by
  simp [State.node, State.finish]

theorem State.finish_proc_ne (s : State) (e : Effect) (h : q ≠ p) :
    (s.finish p {} e).node q = s.node q := by
  simp [State.node, State.finish, h]

theorem State.finish_epoch (s : State) (p q : ℕ) (e : Effect) :
    ((s.finish p {} e).servers q).epoch = (s.servers q).epoch := by
  by_cases h : q = p
  · subst h
    simp [State.finish]
  · simp [State.finish, h]

theorem State.rpcs_finish (hr : s.rpcs[k]? = some r) : (s.finish p {} e).rpcs[k]? = some r := by
  have hk := (List.getElem?_eq_some_iff.mp hr).1
  simp [State.finish, List.getElem?_append_left hk, hr]

theorem State.rpcs_answer {j : ℕ} {resp : Response} (hr : s.rpcs[j]? = some r) :
    (s.answer k {} resp).rpcs[j]? =
      some (if k = j then { r with resps := r.resps ++ [resp] } else r) := by
  simp [State.answer, hr, List.getElem?_modify]

theorem State.rpcs_markHandled {j : ℕ} (hr : s.rpcs[j]? = some r) :
    (s.markHandled k).rpcs[j]? = some (if k = j then { r with handled := true } else r) := by
  simp [State.markHandled, hr, List.getElem?_modify]

theorem State.rpcs_sent (s : State) (p : ℕ) {i : ℕ} (h : e.sends[i]? = some (q, body)) :
    (s.finish p {} e).rpcs[s.rpcs.length + i]? =
      some ⟨p, q, (s.servers p).epoch, body, [], false⟩ := by
  simp only [State.finish, rpcsOf]
  rw [List.getElem?_append_right (Nat.le_add_right _ _), Nat.add_sub_cancel_left,
    List.getElem?_map, h]
  rfl

theorem Leadsto.deliver (cfg : Config) (hr : s.rpcs[k]? = some r) (hm : s.node r.dst = some m)
    (hbody : r.body.leader = none) :
    Leadsto cfg s ((s.finish r.dst {} (handle {} false m r.body).1).answer k {}
      (handle {} false m r.body).2) := by
  refine (Reaches.refl s).snoc (a := .deliver k false {}) ?_ ⟨rfl, rfl, ?_⟩
  · simp only [step, hr, hm, Option.bind_eq_bind, Option.bind_some]
    rfl
  · simp [Action.Unled, hr, hbody]

theorem Leadsto.respond (cfg : Config) {resp : Response} (hr : s.rpcs[k]? = some r)
    (hresp : resp ∈ r.resps) (hun : r.handled = false) (hep : (s.servers r.src).epoch = r.epoch)
    (hn : s.node r.src = some n) (he : receive {} n r.dst r.body resp = some e) :
    Leadsto cfg s ((s.markHandled k).finish r.src {} e) := by
  obtain ⟨j, hj⟩ := List.getElem?_of_mem hresp
  have hnode : (s.markHandled k).node r.src = some n := hn
  refine (Reaches.refl s).snoc (a := .respond k j {}) ?_ ⟨rfl, rfl, trivial⟩
  simp only [step, hr, Option.bind_eq_bind, Option.bind_some, hj, hun, hep, State.local, hnode, he]
  rw [if_neg (by simp)]
  rfl

/-! ## Counting grants -/

/-- A granted vote from a node whose term is not above `T`. -/
def Response.Grants (T : ℕ) (resp : Response) : Prop :=
  ∃ T', T' ≤ T ∧ resp = .vote ⟨T', true⟩

/-- `mine c` has counted `c` grants in answer to `body`; the `M`th makes it do `won`. -/
structure Tallies (body : Body) (T M : ℕ) (mine : ℕ → Node) (won : Effect) : Prop where
  more : ∀ c q resp, resp.Grants T → c + 1 ≠ M →
    receive {} (mine c) q body resp = some { node := mine (c + 1) }
  last : ∀ c q resp, resp.Grants T → c + 1 = M → receive {} (mine c) q body resp = some won

/-! ## A poll and an election -/

/-- The log of `n` is at least as up-to-date as that of `m`. -/
def Node.Covers (n m : Node) : Prop := m.upToDate n.pollRequest = true

def Node.voteRequest (n : Node) : RequestVoteRequest where
  term := n.currentTerm + 1
  candidateId := n.id
  lastLogIndex := n.log.lastIndex
  lastLogTerm := n.log.lastTerm

def Node.standing (n : Node) : Node :=
  { n with
    role := .candidate
    currentTerm := n.currentTerm + 1
    votedFor := n.id
    leaderID := 0
    votes := 1 }

theorem Node.startPreVote_alone (hm : n.majority ≤ 1) (hrun : n.stopped = false) :
    (n.startPreVoteLocked ({} : Io).fail).node.leads (n.currentTerm + 1) = true := by
  have hpoll : n.startPreVoteLocked ({} : Io).fail =
      n.polling.node.startElectionLocked ({} : Io).fail := if_pos hm
  have hstand : n.polling.node.startElectionLocked ({} : Io).fail =
      { node := n.polling.node.standing.becomeLeaderLocked
        calls := [.saveHardState (n.currentTerm + 1) n.id] } := if_pos hm
  rw [hpoll, hstand]
  exact Node.leads_iff.mpr ⟨hrun, rfl, rfl⟩

theorem Node.startElection_standing (hm : 1 < n.majority) :
    n.startElectionLocked ({} : Io).fail =
      { node := n.standing
        calls := [.saveHardState (n.currentTerm + 1) n.id]
        sends := n.peers.map fun q => (q, .vote n.voteRequest) } := by
  have hm' : ¬ n.standing.majority ≤ 1 := not_le.mpr hm
  simp only [startElectionLocked, Io.fail, Option.isSome_none, Bool.false_eq_true, if_false]
  exact if_neg hm'

theorem Node.onPreVoteResponse_granted (fail : Call → Bool) (hrole : n.role = .follower)
    (hrun : n.stopped = false) {T : ℕ} (hT : T ≤ n.currentTerm) :
    n.onPreVoteResponse fail n.currentTerm n.preVoteRound ⟨T, true⟩ =
      if n.preVotes + 1 = n.majority then
        startElectionLocked fail { n with preVotes := n.preVotes + 1 }
      else { node := { n with preVotes := n.preVotes + 1 } } := by
  unfold onPreVoteResponse
  rw [if_neg (by simp [hrun]), if_neg (by simpa using hT), if_neg (by simp [hrole])]
  rfl

theorem Node.onVoteResponse_granted (hrole : n.role = .candidate) (hrun : n.stopped = false)
    {T : ℕ} (hT : T ≤ n.currentTerm) :
    n.onVoteResponse n.currentTerm ⟨T, true⟩ =
      if n.votes + 1 = n.majority then
        { node := becomeLeaderLocked { n with votes := n.votes + 1 } }
      else { node := { n with votes := n.votes + 1 } } := by
  unfold onVoteResponse
  rw [if_neg (by simp [hrun]), if_neg (by simpa using hT), if_neg (by simp [hrole])]
  rfl

/-- A follower counts the grants of the round it is in. -/
theorem tallies_round (hrole : n.role = .follower) (hrun : n.stopped = false)
    (req : RequestVoteRequest) :
    Tallies (.preVote n.currentTerm n.preVoteRound req) n.currentTerm n.majority
      (fun c => { n with preVotes := c })
      (Node.startElectionLocked ({} : Io).fail { n with preVotes := n.majority }) := by
  constructor <;> rintro c q resp ⟨T, hT, rfl⟩ hc
  · exact congrArg some ((Node.onPreVoteResponse_granted (n := { n with preVotes := c }) _ hrole
      hrun hT).trans (if_neg hc))
  · refine congrArg some ((Node.onPreVoteResponse_granted (n := { n with preVotes := c }) _ hrole
      hrun hT).trans ?_)
    exact (if_pos hc).trans (by rw [← hc])

/-- A candidate counts the votes of its term. -/
theorem tallies_election (hrole : n.role = .candidate) (hrun : n.stopped = false)
    {req : RequestVoteRequest} (hreq : req.term = n.currentTerm) :
    Tallies (.vote req) n.currentTerm n.majority (fun c => { n with votes := c })
      { node := Node.becomeLeaderLocked { n with votes := n.majority } } := by
  constructor <;> rintro c q resp ⟨T, hT, rfl⟩ hc <;> rw [receive, hreq]
  · exact congrArg some ((Node.onVoteResponse_granted (n := { n with votes := c }) hrole hrun
      hT).trans (if_neg hc))
  · refine congrArg some ((Node.onVoteResponse_granted (n := { n with votes := c }) hrole hrun
      hT).trans ?_)
    exact (if_pos hc).trans (by rw [← hc])

/-! ## Granting -/

theorem handle_poll_node (term round : ℕ) (m : Node) :
    (handle {} false m (.preVote term round n.pollRequest)).1.node = m := by
  simp only [handle, Node.handleRequestVote]
  split <;> rfl

theorem poll_granted (hrun : m.stopped = false) (hle : m.currentTerm ≤ n.currentTerm)
    (h : n.Covers m) (term round : ℕ) :
    (handle {} false m (.preVote term round n.pollRequest)).2.Grants n.currentTerm := by
  refine ⟨m.currentTerm, hle, congrArg Response.vote ?_⟩
  have hlt : m.currentTerm < n.pollRequest.term := Nat.lt_succ_of_le hle
  change (m.handleRequestVote _ false n.pollRequest).2 = _
  rw [Node.handleRequestVote, if_neg (by simp [hrun]), if_pos (by rfl), Node.answerPreVote,
    show m.upToDate n.pollRequest = true from h]
  simp [Node.heardLeaderRecentlyLocked, hlt]

theorem Node.castVote_fresh {req : RequestVoteRequest} (hv : n.votedFor = noVote)
    (h : n.upToDate req = true) : (n.castVote ({} : Io).fail req).2 = ⟨n.currentTerm, true⟩ := by
  unfold castVote
  rw [if_neg (by simp [hv]), if_neg (by simp [h])]
  rfl

theorem vote_granted (hrun : m.stopped = false) (hle : m.currentTerm ≤ n.currentTerm)
    (h : n.Covers m) :
    (handle {} false m (.vote n.voteRequest)).2.Grants (n.currentTerm + 1) := by
  refine ⟨n.currentTerm + 1, le_rfl, congrArg Response.vote ?_⟩
  have hadopt : m.adoptTerm n.voteRequest.term = m.becomeFollowerLocked (n.currentTerm + 1) :=
    if_pos (Nat.lt_succ_of_le hle)
  change (m.handleRequestVote _ false n.voteRequest).2 = _
  rw [Node.handleRequestVote, if_neg (by simp [hrun]), if_neg (by simp [Node.voteRequest]),
    if_neg (by simp [Node.heardLeaderRecentlyLocked]), hadopt]
  have hterm : ¬ n.voteRequest.term <
      (m.becomeFollowerLocked (n.currentTerm + 1)).node.currentTerm := lt_irrefl _
  simp only [hterm, if_false]
  exact Node.castVote_fresh rfl h

/-! ## Who is backed -/

/-- The logs of a majority are not more up-to-date than that of `n`. -/
def Backed (cfg : Config) (s : State) (n : Node) : Prop :=
  ∃ S : Finset ℕ, S ⊆ cfg.ids.toFinset ∧ cfg.ids.length < 2 * S.card ∧
    ∀ q ∈ S, ∀ m, s.node q = some m → n.Covers m

theorem Node.covers_congr {n' m' : Node} (hn : n'.log = n.log) (hm : m'.log = m.log) :
    n'.Covers m' ↔ n.Covers m := by
  unfold Node.Covers Node.upToDate
  rw [decide_eq_true_eq, decide_eq_true_eq, hm]
  simp only [Node.pollRequest, hn]

theorem Backed.congr {n' : Node} (h : Backed cfg s n) (hn : n'.log = n.log)
    (ht : ∀ q m', t.node q = some m' → ∃ m, s.node q = some m ∧ m'.log = m.log) :
    Backed cfg t n' := by
  obtain ⟨S, hS, hcard, hcov⟩ := h
  refine ⟨S, hS, hcard, fun q hq m' hm' => ?_⟩
  obtain ⟨m, hm, hlog⟩ := ht q m' hm'
  exact (Node.covers_congr hn hlog).mpr (hcov q hq m hm)

def AllUp (cfg : Config) (s : State) : Prop :=
  ∀ p ∈ cfg.ids, ∃ n, s.node p = some n ∧ n.stopped = false

theorem step_tick (cfg : Config) (hn : s.node p = some n) (hrun : n.stopped = false)
    (hrole : n.role ≠ .leader) :
    step cfg s (.tick p {}) = some (s.finish p {} (n.startPreVoteLocked ({} : Io).fail)) := by
  simp [step, State.local, hn, Node.timeout, hrun, hrole]

theorem tick_polls (cfg : Config) (hn : s.node p = some n) (hrun : n.stopped = false)
    (hrole : n.role ≠ .leader) (hmaj : 1 < n.majority) :
    Leadsto cfg s (s.finish p {} n.polling) := by
  have hs := step_tick cfg hn hrun hrole
  rw [Node.startPreVote_polling hmaj] at hs
  exact (Reaches.refl s).snoc hs ⟨rfl, rfl, trivial⟩

/-! ## Learning a term -/

theorem handle_poll_term (term round : ℕ) (m : Node) :
    ∃ g, (handle {} false m (.preVote term round n.pollRequest)).2 = .vote ⟨m.currentTerm, g⟩ := by
  simp only [handle, Node.handleRequestVote]
  split
  · exact ⟨false, rfl⟩
  · exact ⟨_, rfl⟩

/-- Whatever its role, a node that polls one with a higher term becomes a follower in that term. -/
theorem learn_term (cfg : Config) (hn : s.node p = some n) (hrun : n.stopped = false)
    (hrole : n.role ≠ .leader) (hq : q ∈ n.peers) (hqp : q ≠ p) (hm : s.node q = some m)
    (hlt : n.currentTerm < m.currentTerm) : ∃ t, Leadsto cfg s t ∧
      t.node p = some (n.polling.node.becomeFollowerLocked m.currentTerm).node ∧
      ∀ x, x ≠ p → t.node x = s.node x := by
  have hmaj : 1 < n.majority := by
    have := List.length_pos_of_mem hq
    rw [Node.majority]
    omega
  have hpoll := tick_polls cfg hn hrun hrole hmaj
  set body := Body.preVote n.currentTerm (n.preVoteRound + 1) n.pollRequest
  set v := s.finish p {} n.polling
  have hr : v.rpcs[s.rpcs.length + n.peers.idxOf q]? =
      some ⟨p, q, (s.servers p).epoch, body, [], false⟩ :=
    s.rpcs_sent p (by
      change (n.peers.map fun q => (q, body))[n.peers.idxOf q]? = _
      rw [List.getElem?_map, List.getElem?_idxOf hq]
      rfl)
  have hmv : v.node q = some m := (s.finish_proc_ne _ hqp).trans hm
  obtain ⟨g, hg⟩ := handle_poll_term (n := n) n.currentTerm (n.preVoteRound + 1) m
  have hreceive : receive {} n.polling.node q body (handle {} false m body).2 =
      some (n.polling.node.becomeFollowerLocked m.currentTerm) := by
    rw [hg]
    refine congrArg some ?_
    unfold Node.onPreVoteResponse
    rw [if_neg (by simp [Node.polling, hrun]), if_pos (by exact hlt)]
  have hdeliver := Leadsto.deliver cfg hr hmv rfl
  set w := (v.finish q {} (handle {} false m body).1).answer _ {} (handle {} false m body).2
  have hw : ∀ x, w.node x = v.node x := by
    intro x
    by_cases hx : x = q
    · rw [hx, hmv]
      exact (v.finish_proc ..).trans (congrArg some (handle_poll_node _ _ m))
    · exact v.finish_proc_ne _ hx
  have hr' : w.rpcs[s.rpcs.length + n.peers.idxOf q]? =
      some ⟨p, q, (s.servers p).epoch, body, [(handle {} false m body).2], false⟩ := by
    rw [State.rpcs_answer (State.rpcs_finish hr), if_pos rfl]
    rfl
  have hepoch : (w.servers p).epoch = (s.servers p).epoch :=
    (v.finish_epoch ..).trans (s.finish_epoch ..)
  have hrespond := Leadsto.respond cfg hr' (List.mem_singleton_self _) rfl hepoch
    ((hw p).trans (s.finish_proc ..)) hreceive
  refine ⟨_, (hpoll.trans hdeliver).trans hrespond, State.finish_proc .., fun x hx => ?_⟩
  exact (State.finish_proc_ne _ _ hx).trans ((hw x).trans (s.finish_proc_ne _ hx))

/-! ## Whom to elect -/

theorem best_log (hS : ∀ q ∈ S, ∃ m, s.node q = some m) (hne : S.Nonempty) :
    ∃ p ∈ S, ∃ n, s.node p = some n ∧ ∀ q ∈ S, ∀ m, s.node q = some m → n.Covers m := by
  obtain ⟨p, hp, hmax⟩ := S.exists_max_image
    (fun q => ((s.node q).map fun m => toLex (m.log.lastTerm, m.log.lastIndex)).getD (toLex (0, 0)))
    hne
  obtain ⟨n, hn⟩ := hS p hp
  refine ⟨p, hp, n, hn, fun q hq m hm => ?_⟩
  have hle := hmax q hq
  simp only [hn, hm, Option.map_some, Option.getD_some, Prod.Lex.toLex_le_toLex] at hle
  exact decide_eq_true (hle.imp_right fun h => ⟨h.1.symm, h.2⟩)

theorem max_term (hS : ∀ q ∈ S, ∃ m, s.node q = some m) (hne : S.Nonempty)
    (hall : ∀ q m, s.node q = some m → q ∈ S) : ∃ q ∈ S, ∃ m, s.node q = some m ∧
      ∀ x m', s.node x = some m' → m'.currentTerm ≤ m.currentTerm := by
  obtain ⟨q, hq, hmax⟩ := S.exists_max_image
    (fun x => ((s.node x).map Node.currentTerm).getD 0) hne
  obtain ⟨m, hm⟩ := hS q hq
  refine ⟨q, hq, m, hm, fun x m' hm' => ?_⟩
  simpa [hm, hm'] using hmax x (hall x m' hm')

/-- The servers of `S` are running and nobody else is. -/
structure Present (S : Finset ℕ) (s : State) : Prop where
  up : ∀ q ∈ S, ∃ m, s.node q = some m ∧ m.stopped = false
  down : ∀ q ∉ S, s.node q = none

theorem Present.members (h : Present S s) : ∀ q ∈ S, ∃ m, s.node q = some m := by
  intro q hq
  obtain ⟨m, hm, -⟩ := h.up q hq
  exact ⟨m, hm⟩

theorem Present.mem (h : Present S s) (hm : s.node q = some m) : q ∈ S := by
  by_contra hq
  rw [h.down q hq] at hm
  cases hm

theorem Present.running (h : Present S s) (hm : s.node q = some m) : m.stopped = false := by
  obtain ⟨m', hm', hrun⟩ := h.up q (h.mem hm)
  exact Option.mem_unique hm hm' ▸ hrun

theorem AllUp.present (hup : AllUp cfg s) (hen : Enrolled cfg s) :
    Present cfg.ids.toFinset s := by
  refine ⟨fun q hq => hup q (List.mem_toFinset.mp hq), fun q hq => ?_⟩
  by_contra hno
  obtain ⟨m, hm⟩ := Option.ne_none_iff_exists'.mp hno
  exact hq (List.mem_toFinset.mpr (hen q m hm).1)

theorem Present.exists_max_term (h : Present S s) (hn : s.node p = some n) :
    ∃ q m, s.node q = some m ∧ ∀ x m', s.node x = some m' → m'.currentTerm ≤ m.currentTerm := by
  obtain ⟨q, -, hq⟩ := max_term h.members ⟨p, h.mem hn⟩ fun _ _ => h.mem
  exact ⟨q, hq⟩

/-- Some node is backed, by everybody. -/
theorem exists_backed (hen : Enrolled cfg s) (hup : AllUp cfg s) (hn : s.node p = some n) :
    ∃ q m, s.node q = some m ∧ Backed cfg s m := by
  have hp := List.mem_toFinset.mpr (hen p n hn).1
  obtain ⟨q, -, m, hm, hcov⟩ := best_log (hup.present hen).members ⟨p, hp⟩
  have hcard := List.toFinset_card_of_nodup cfg.nodup
  have hpos := Finset.card_pos.mpr ⟨p, hp⟩
  exact ⟨q, m, hm, cfg.ids.toFinset, Finset.Subset.refl _, by omega, hcov⟩

theorem Config.mem_pair (h : p ∈ Config.pair.ids) : p = 1 ∨ p = 2 := by
  simpa [Config.pair] using h

theorem allUp_pair {n₁ n₂ : Node} (h₁ : s.node 1 = some n₁) (h₂ : s.node 2 = some n₂)
    (hrun₁ : n₁.stopped = false) (hrun₂ : n₂.stopped = false) : AllUp .pair s := by
  intro p hp
  rcases Config.mem_pair hp with rfl | rfl
  · exact ⟨n₁, h₁, hrun₁⟩
  · exact ⟨n₂, h₂, hrun₂⟩

/-! ## Candidates only -/

structure Node.Stands (T p : ℕ) (n : Node) : Prop where
  role : n.role = .candidate
  term : n.currentTerm = T
  vote : n.votedFor = p
  pos : p ≠ noVote
  others : 1 < n.majority

/-- A poll, or a request for a vote in a term not above `T` to a node that is itself a candidate;
answered at most by nodes in such terms, who did not give their vote. -/
inductive Rpc.Spent (T : ℕ) (r : Rpc) : Prop
  | poll {term round : ℕ} {req : RequestVoteRequest} : r.body = .preVote term round req →
      req.preVote = true → (∀ resp ∈ r.resps, ∃ v, resp = .vote v ∧ v.term ≤ T) → Spent T r
  | vote {req : RequestVoteRequest} : r.body = .vote req → req.preVote = false → req.term ≤ T →
      req.candidateId ≠ r.dst →
      (∀ resp ∈ r.resps, ∃ v, resp = .vote v ∧ v.term ≤ T ∧ v.voteGranted = false) → Spent T r

structure Stuck (T : ℕ) (s : State) : Prop where
  node : ∀ p n, s.node p = some n → n.Stands T p
  rpc : ∀ (k : ℕ) (r : Rpc), s.rpcs[k]? = some r → r.Spent T

variable {T : ℕ} {fail : Call → Bool} {recent : Bool} {req : RequestVoteRequest}

theorem Node.handleRequestVote_poll (hreq : req.preVote = true) :
    ∃ v, n.handleRequestVote fail recent req = ({ node := n }, v) ∧ v.term = n.currentTerm := by
  unfold handleRequestVote
  split
  · exact ⟨_, rfl, rfl⟩
  · exact ⟨n.answerPreVote recent req, rfl, rfl⟩

/-- A candidate refuses its vote to others. -/
theorem Node.Stands.refuses (h : n.Stands T p) (hreq : req.preVote = false) (hT : req.term ≤ T)
    (hc : req.candidateId ≠ p) :
    n.handleRequestVote fail recent req = ({ node := n }, ⟨n.currentTerm, false⟩) := by
  have hle : ¬ n.currentTerm < req.term := not_lt.mpr (h.term ▸ hT)
  have hcast : n.castVote fail req = ({ node := n }, ⟨n.currentTerm, false⟩) :=
    if_pos ⟨h.vote ▸ h.pos, h.vote ▸ hc.symm⟩
  unfold handleRequestVote
  split
  · rfl
  rw [if_neg (by simp [hreq]), if_neg (by simp [hle]), Node.adoptTerm, if_neg hle]
  simp only [hcast]
  split <;> rfl

/-- A candidate does not count answers to its polls. -/
theorem Node.Stands.onPreVoteResponse (h : n.Stands T p) {term round : ℕ}
    {v : RequestVoteResponse} (hv : v.term ≤ T) :
    n.onPreVoteResponse fail term round v = { node := n } := by
  unfold Node.onPreVoteResponse
  split
  · rfl
  rw [if_neg (not_lt.mpr (h.term ▸ hv)), if_pos (.inl (by simp [h.role]))]

theorem Node.onVoteResponse_refused {v : RequestVoteResponse} (hv : v.term ≤ n.currentTerm)
    (hg : v.voteGranted = false) (term : ℕ) : n.onVoteResponse term v = { node := n } := by
  unfold Node.onVoteResponse
  split
  · rfl
  rw [if_neg (not_lt.mpr hv), if_pos (.inr (.inr hg))]

/-- In a section of an election a candidate among candidates polls, or nothing happens. -/
theorem Stuck.section (h : Stuck T s) (ha : a.Electoral) (hn : s.node p = some n)
    (hsec : Section cfg s n a p io e t) : e = n.polling ∨ e = { node := n } := by
  have hst := h.node p n hn
  cases hsec with
  | tick he =>
    obtain ⟨-, rfl⟩ := Node.timeout_some he
    exact .inl (Node.startPreVote_polling hst.others)
  | @deliver k recent _ r hr =>
    refine .inr ?_
    cases h.rpc k r hr with
    | poll hb hreq _ =>
      obtain ⟨v, hv, -⟩ := Node.handleRequestVote_poll (n := n) hreq
      rw [hb, handle, hv]
    | vote hb hreq hT hc _ => rw [hb, handle, hst.refuses hreq hT hc]
  | @respond k j _ r resp _ hr hresp _ _ he =>
    refine .inr ?_
    have hmem := List.mem_of_getElem? hresp
    cases h.rpc k r hr with
    | poll hb _ hall =>
      obtain ⟨v, rfl, hv⟩ := hall resp hmem
      rw [hb, receive, hst.onPreVoteResponse hv] at he
      exact (Option.some.inj he).symm
    | vote hb _ _ _ hall =>
      obtain ⟨v, rfl, hv, hg⟩ := hall resp hmem
      rw [hb, receive, Node.onVoteResponse_refused (hst.term ▸ hv) hg] at he
      exact (Option.some.inj he).symm
  | _ => exact ha.elim

/-- The answer that a candidate gives leaves the request spent. -/
theorem Stuck.answer (h : Stuck T s) {r' : Rpc} (hr : s.rpcs[k]? = some r) (hsame : r.Same r')
    (hm : s.node r.dst = some m) (hresps : r'.resps = r.resps ++ [(handle io recent m r.body).2]) :
    r'.Spent T := by
  have hst := h.node _ m hm
  cases h.rpc k r hr with
  | poll hb hreq hall =>
    obtain ⟨v, hv, hterm⟩ : ∃ v, m.handleRequestVote io.fail recent _ = ({ node := m }, v) ∧
      v.term = m.currentTerm := Node.handleRequestVote_poll hreq
    refine .poll (hsame.body.trans hb) hreq fun resp hresp => ?_
    rw [hresps, hb, handle, hv, List.mem_append, List.mem_singleton] at hresp
    rcases hresp with hresp | rfl
    · exact hall resp hresp
    · exact ⟨v, rfl, (hterm.trans hst.term).le⟩
  | vote hb hreq hT hc hall =>
    refine .vote (hsame.body.trans hb) hreq hT (hsame.dst ▸ hc) fun resp hresp => ?_
    rw [hresps, hb, handle, hst.refuses hreq hT hc, List.mem_append, List.mem_singleton] at hresp
    rcases hresp with hresp | rfl
    · exact hall resp hresp
    · exact ⟨_, rfl, hst.term.le, rfl⟩

theorem Rpc.Spent.same {r' : Rpc} (h : r.Spent T) (hsame : r.Same r')
    (hresps : r'.resps = r.resps) : r'.Spent T := by
  cases h with
  | poll hb hreq hall => exact .poll (hsame.body.trans hb) hreq (hresps ▸ hall)
  | vote hb hreq hT hc hall =>
    exact .vote (hsame.body.trans hb) hreq hT (hsame.dst ▸ hc) (hresps ▸ hall)

theorem Stuck.step (h : Stuck T s) (ha : a.Electoral) (hs : KMC.step cfg s a = some t) :
    Stuck T t := by
  rcases step_cases hs with ⟨p, io, n, e, hn, hsec⟩ | ⟨p, srv, hch, -⟩
  · have he := h.section ha hn hsec
    refine ⟨fun q m hm => ?_, fun k r' hr' => ?_⟩
    · by_cases hq : q = p
      · subst hq
        have hst := h.node q n hn
        rcases hsec.server with ⟨-, hsrv⟩ | ⟨_, _, -, hsrv⟩ <;> rw [State.node, hsrv] at hm
        · obtain rfl := Option.some.inj hm
          rcases he with rfl | rfl
          · exact ⟨hst.role, hst.term, hst.vote, hst.pos, hst.others⟩
          · exact hst
        · cases hm
      · rw [State.node, hsec.other hq] at hm
        exact h.node q m hm
    · cases hsec.origin hn hr' with
      | old r hr hsame hresps => exact (h.rpc k r hr).same hsame hresps
      | answered r recent m hr hsame _ _ hm hresps => exact h.answer hr hsame hm hresps
      | sent q body _ hm _ hr' =>
        rcases he with rfl | rfl
        · obtain ⟨q', -, heq⟩ := List.mem_map.mp hm
          obtain ⟨-, rfl⟩ := Prod.mk.inj heq
          exact hr' ▸ .poll rfl rfl (by simp)
        · cases hm
  · exact absurd ha hch.not_electoral

/-- Both nodes of a pair start, each grants the other's poll, and both stand for election. -/
def splitVote : List Action :=
  [.restart 1, .restart 2, .tick 1 {}, .tick 2 {}, .deliver 0 false {}, .deliver 1 false {},
    .respond 0 0 {}, .respond 1 0 {}]

theorem splitVote_stuck (h : exec (step .pair) Config.pair.init splitVote = some s) :
    Stuck 1 s := by
  have hs := Reaches.of_exec (step .pair) (fun _ a => a.Reliable) Config.pair.init splitVote
    (.of_forall (by simp [splitVote, Action.Reliable, Action.io]) _) rfl
  have hen := (enrolled_init .pair).reaches hs
  obtain rfl := Option.some.inj h
  refine ⟨fun p n hn => ?_, fun k r hr => ?_⟩
  · rcases Config.mem_pair (hen p n hn).1 with rfl | rfl <;> obtain rfl := Option.some.inj hn <;>
      exact ⟨rfl, rfl, rfl, by decide, by decide⟩
  · have hmem := List.mem_of_getElem? hr
    change r ∈ [⟨1, 2, 1, .preVote 0 1 ⟨1, 1, 0, 0, true⟩, [.vote ⟨0, true⟩], true⟩,
      ⟨2, 1, 1, .preVote 0 1 ⟨1, 2, 0, 0, true⟩, [.vote ⟨0, true⟩], true⟩,
      ⟨1, 2, 1, .vote ⟨1, 1, 0, 0, false⟩, [], false⟩,
      ⟨2, 1, 1, .vote ⟨1, 2, 0, 0, false⟩, [], false⟩] at hmem
    simp only [List.mem_cons, List.not_mem_nil, or_false] at hmem
    rcases hmem with rfl | rfl | rfl | rfl
    · exact .poll rfl rfl (by simp)
    · exact .poll rfl rfl (by simp)
    · exact .vote rfl rfl le_rfl (by decide) (by simp)
    · exact .vote rfl rfl le_rfl (by decide) (by simp)

/-- After a split vote the two nodes of a pair are candidates in term 1 for good. -/
theorem split_vote_is_final : ∃ s,
    Reaches (step .pair) (fun _ a => a.Reliable) Config.pair.init s ∧ AllUp .pair s ∧
    ∀ t, Reaches (step .pair) (fun _ a => a.Electoral) s t →
      ∀ p n, t.node p = some n → n.role = .candidate ∧ n.currentTerm = 1 := by
  have hs := Reaches.of_exec (step .pair) (fun _ a => a.Reliable) Config.pair.init splitVote
    (.of_forall (by simp [splitVote, Action.Reliable, Action.io]) _) rfl
  refine ⟨_, hs, allUp_pair rfl rfl rfl rfl, fun t ht p n hn => ?_⟩
  have hst := (ht.invariant (fun _ _ _ hI ha hstep => hI.step ha hstep)
    (splitVote_stuck (Option.some_get _).symm)).node p n hn
  exact ⟨hst.role, hst.term⟩

end KMC
