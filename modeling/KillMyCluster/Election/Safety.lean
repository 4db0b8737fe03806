import KillMyCluster.Election.Count

/-! Every step keeps the bookkeeping of elections, so two leaders of one term are one node. All
this asks of the disk is that `saveHardState` succeeds or kills the process. -/

namespace KMC

open Trace

variable {cfg : Config} {b b' : Ballots} {s t : State} {p k : ℕ} {n : Node} {srv : Server}
  {rpcs : List Rpc} {io : Io} {e : Effect} {r : Rpc} {a : Action}

theorem State.hard_update (s : State) (p : ℕ) (srv : Server) (rpcs : List Rpc) :
    (⟨Function.update s.servers p srv, rpcs⟩ : State).hard =
      Function.update s.hard p srv.disk.hard := by
  funext q
  by_cases hq : q = p
  · subst hq; simp [State.hard]
  · simp [State.hard, hq]

structure Elect.Next (cfg : Config) (b : Ballots) (t : State) : Prop where
  le : b.Le (b.book t)
  elect : Elect cfg (b.book t) t

/-! ## One server changes -/

theorem State.legal_update (ht : t = ⟨Function.update s.servers p srv, rpcs⟩)
    (hl : Legal (s.hard p) srv.disk.hard) (u : ℕ) : Legal (s.hard u) (t.hard u) := by
  rw [ht, State.hard_update]
  by_cases hu : u = p
  · subst hu; simpa using hl
  · simpa [hu] using Legal.refl _

theorem Elect.update (hE : Elect cfg b s) (ht : t = ⟨Function.update s.servers p srv, rpcs⟩)
    (hl : Legal (s.hard p) srv.disk.hard) (hproc : ∀ n, srv.proc = some n →
      p ∈ cfg.ids ∧ n.id = p ∧ n.peers = cfg.peers p ∧ n.hard = srv.disk.hard)
    (hcand : ∀ n, srv.proc = some n → n.role = .candidate →
      n.votedFor = p ∧ VoteCount (b.book t) cfg rpcs p n)
    (hlead : ∀ n, srv.proc = some n → n.role = .leader → Won (b.book t) cfg n.currentTerm p)
    (hrpc : ∀ (k : ℕ) (r : Rpc) (req : RequestVoteRequest), rpcs[k]? = some r →
      r.body = .vote req → VoteRpc (b.book t) cfg t.hard r req) (hkeys : UniqueVotes rpcs)
    (hold : ∀ (k : ℕ) (r' : Rpc) (x : ℕ × ℕ × ℕ), rpcs[k]? = some r' → r'.voteKey = some x →
      x.1 ≠ p → ∃ r, s.rpcs[k]? = some r ∧ r.voteKey = r'.voteKey ∧
        (r.handled = true → r'.handled = true)) : Elect.Next cfg b t := by
  have hlegal := State.legal_update ht hl
  have hle := Ballots.le_book hE.booked hlegal
  have hrpcs : t.rpcs = rpcs := by rw [ht]
  have hself : (t.servers p) = srv := by rw [ht]; simp
  have hother : ∀ q, q ≠ p → t.servers q = s.servers q := fun q hq => by rw [ht]; simp [hq]
  refine ⟨hle, Ballots.booked_book hE.booked hlegal, fun q m hm => ?_, fun q m hm hr => ?_,
    fun q m hm hr => ?_, hrpcs ▸ hrpc, hrpcs ▸ hkeys⟩
  all_goals
    rw [State.node] at hm
    by_cases hq : q = p
  · subst hq
    rw [hself] at hm
    rw [State.hard, hself]
    exact hproc m hm
  · rw [hother q hq] at hm
    rw [State.hard, hother q hq]
    exact hE.proc q m hm
  · subst hq
    rw [hself] at hm
    exact hrpcs ▸ hcand m hm hr
  · rw [hother q hq] at hm
    obtain ⟨h1, h2⟩ := hE.cand q m hm hr
    exact ⟨h1, hrpcs ▸ h2.mono hle fun k r' u hr' hx => hold k r' _ hr' hx hq⟩
  · subst hq
    rw [hself] at hm
    exact hlead m hm hr
  · rw [hother q hq] at hm
    exact (hE.lead q m hm hr).mono hle

/-- A server dies, restarts or changes what elections do not depend on. -/
theorem Elect.setServer (hE : Elect cfg b s) (hl : Legal (s.hard p) srv.disk.hard)
    (hproc : ∀ n, srv.proc = some n →
      p ∈ cfg.ids ∧ n.id = p ∧ n.peers = cfg.peers p ∧ n.hard = srv.disk.hard)
    (hquiet : ∀ n, srv.proc = some n → n.role ≠ .follower →
      ∃ n₀, s.node p = some n₀ ∧ n.role = n₀.role ∧ n.hard = n₀.hard ∧ n.votes = n₀.votes) :
    Elect.Next cfg b (s.setServer p srv) := by
  have hlegal : ∀ u, Legal (s.hard u) ((s.setServer p srv).hard u) := State.legal_update rfl hl
  have hle := Ballots.le_book hE.booked hlegal
  refine hE.update rfl hl hproc (fun m hm hr => ?_) (fun m hm hr => ?_) (fun k r req hr hb => ?_)
    hE.keys fun k r' x hr' _ _ => ⟨r', hr', rfl, id⟩
  · obtain ⟨n₀, h0, hrole, hh, hv⟩ := hquiet m hm (by simp [hr])
    obtain ⟨h1, S, hS, hc, hu⟩ := hE.cand p n₀ h0 (hrole ▸ hr)
    obtain ⟨ht, hvf⟩ := Prod.mk.inj hh
    refine ⟨hvf.trans h1, S, hS, hv ▸ hc, fun u hm => ?_⟩
    rw [ht]
    exact ⟨hle _ _ _ (hu u hm).1, (hu u hm).2⟩
  · obtain ⟨n₀, h0, hrole, hh, -⟩ := hquiet m hm (by simp [hr])
    rw [(Prod.mk.inj hh).1]
    exact (hE.lead p n₀ h0 (hrole ▸ hr)).mono hle
  · exact (hE.rpc k r req hr hb).mono hle fun u => (hlegal u).mono

/-! ## Finishing a critical section -/

/-- What `e` leaves on the disk and among the requests when the process survives. -/
theorem State.finish_eq (hc : io.crash = none) (e : Effect) : s.finish p io e =
    ⟨Function.update s.servers p { s.servers p with
        proc := some e.node, disk := e.calls.foldl io.apply (s.servers p).disk },
      s.rpcs ++ rpcsOf p (s.servers p).epoch e.sends⟩ := by
  simp only [State.finish, hc]

theorem Elect.finish (hE : Elect cfg b s) (hn : s.node p = some n) (hio : io.HardStates)
    (hk : e.Kept n)
    (hsends : ∀ (i q : ℕ) (req : RequestVoteRequest), e.sends[i]? = some (q, .vote req) →
      q ∈ cfg.ids ∧ req.preVote = false ∧ req.candidateId = p ∧ req.term ≤ e.node.currentTerm)
    (hkeys : UniqueVotes (s.rpcs ++ rpcsOf p (s.servers p).epoch e.sends))
    (hcand : ∀ b', b.Le b' → Booked b' p e.node.hard → e.node.role = .candidate →
      e.node.votedFor = p ∧
        VoteCount b' cfg (s.rpcs ++ rpcsOf p (s.servers p).epoch e.sends) p e.node)
    (hlead : ∀ b', b.Le b' → Booked b' p e.node.hard → e.node.role = .leader →
      Won b' cfg e.node.currentTerm p) : Elect.Next cfg b (s.finish p io e) := by
  obtain ⟨hmem, hid, hpeers, hhard⟩ := hE.proc p n hn
  have hdisk : (s.servers p).disk.hard = n.hard := hhard.symm
  cases hc : io.crash with
  | none =>
    have hrun := hk.ledger.run hio hdisk
    have ht := State.finish_eq (s := s) (p := p) hc e
    have hl : Legal (s.hard p) (e.calls.foldl io.apply (s.servers p).disk).hard := by
      rw [hrun, State.hard, hdisk]
      exact hk.ledger.legal
    have hlegal := State.legal_update ht hl
    have hle := Ballots.le_book hE.booked hlegal
    have hp : (s.finish p io e).hard p = e.node.hard := by
      rw [ht, State.hard_update, Function.update_self]
      exact hrun
    have hb := Ballots.booked_book hE.booked hlegal p
    rw [hp] at hb
    refine hE.update ht hl (fun m hm => ?_) (fun m hm hr => ?_) (fun m hm hr => ?_)
      (fun k r req hr hbody => ?_) hkeys fun k r' x hr' hx hne => ?_
    · obtain rfl := Option.some.inj hm
      exact ⟨hmem, hk.id.trans hid, hk.peers.trans hpeers, hrun.symm⟩
    · obtain rfl := Option.some.inj hm
      exact hcand _ hle hb hr
    · obtain rfl := Option.some.inj hm
      exact hlead _ hle hb hr
    · rcases getElem_append_rpcs hr with hr | ⟨-, q, body, hq, rfl⟩
      · exact (hE.rpc k r req hr hbody).mono hle fun u => (hlegal u).mono
      · obtain rfl : body = .vote req := hbody
        obtain ⟨h1, h2, h3, h4⟩ := hsends _ q req hq
        refine ⟨hmem, h1, h2, h3, ?_, by simp⟩
        simp only [hp]
        exact h4
    · rcases getElem_append_rpcs hr' with hr | ⟨-, q, body, hq, rfl⟩
      · exact ⟨r', hr, rfl, id⟩
      · refine absurd ?_ hne
        cases body <;> simp [Rpc.voteKey] at hx
        rw [← hx]
  | some kr =>
    obtain ⟨k, r⟩ := kr
    have ht : s.finish p io e = s.setServer p ((s.servers p).die
        (((e.calls.drop k).head?).elim ((e.calls.take k).foldl io.apply (s.servers p).disk)
          (((e.calls.take k).foldl io.apply (s.servers p).disk).write r))) := by
      simp only [State.finish, hc]
    rw [ht]
    refine hE.setServer ?_ (by simp [Server.die]) (by simp [Server.die])
    rw [State.hard, hdisk]
    exact hk.ledger.crash hio hdisk k r

/-- Requests that a section without candidates adds have no vote key. -/
theorem Effect.Quiet.old (hq : e.Quiet n) {epoch : ℕ} {x : ℕ × ℕ × ℕ}
    (hr : (rpcs ++ rpcsOf p epoch e.sends)[k]? = some r) (hx : r.voteKey = some x) :
    rpcs[k]? = some r := by
  rcases getElem_append_rpcs hr with hr | ⟨-, q, body, hb, rfl⟩
  · exact hr
  · cases body <;> simp [Rpc.voteKey] at hx
    exact absurd (List.mem_of_getElem? hb) (hq.sends _ _)

theorem Elect.finish_quiet (hE : Elect cfg b s) (hn : s.node p = some n) (hio : io.HardStates)
    (hq : e.Quiet n) : Elect.Next cfg b (s.finish p io e) := by
  obtain ⟨hmem, -, -, -⟩ := hE.proc p n hn
  refine hE.finish hn hio hq.toKept (fun i q req hi => ?_) (fun i j r r' x hr hr' hx hx' => ?_)
    (fun b' hle _ hr => ?_) fun b' hle _ hr => ?_
  · exact absurd (List.mem_of_getElem? hi) (hq.sends q req)
  · exact hE.keys i j r r' x (hq.old hr hx) (hq.old hr' hx') hx hx'
  · obtain ⟨h1, h2, h3⟩ := hq.cand hr
    obtain ⟨hv, hcount⟩ := hE.cand p n hn h1
    constructor
    · -- the vote for oneself is kept while the term is
      rcases hq.ledger.legal with hlt | ⟨-, heq | h0⟩
      · exact absurd h2 (by simp only [Node.hard] at hlt; omega)
      · exact heq.symm.trans hv
      · exact absurd (hv.symm.trans h0) (Config.ne_noVote hmem)
    · obtain ⟨S, hS, hc, hu⟩ := hcount.mono hle fun k r' u hr' hx => ⟨r', hq.old hr' hx, rfl, id⟩
      exact ⟨S, hS, h3 ▸ hc, h2 ▸ hu⟩
  · obtain ⟨h1, h2⟩ := hq.lead hr
    rw [h2]
    exact (hE.lead p n hn h1).mono hle

theorem Elect.finish_campaign (hE : Elect cfg b s) (hn : s.node p = some n) (hio : io.HardStates)
    (hq : e.Campaign n) : Elect.Next cfg b (s.finish p io e) := by
  obtain ⟨hmem, hid, hpeers, hhard⟩ := hE.proc p n hn
  have hnodup : n.peers.Nodup := by rw [hpeers]; exact cfg.nodup.filter _
  have hpos : p ≠ noVote := Config.ne_noVote hmem
  obtain ⟨hterm, hvote⟩ := Prod.mk.inj hq.hard
  -- nobody has asked for votes in the new term before
  have hfresh : ∀ {k : ℕ} {r : Rpc} {u : ℕ}, s.rpcs[k]? = some r →
      r.voteKey ≠ some (p, n.currentTerm + 1, u) := by
    intro k r u hr hx
    unfold Rpc.voteKey at hx
    cases hbody : r.body <;> simp [hbody] at hx
    rename_i req
    obtain ⟨rfl, hreq, -⟩ := hx
    have := (hE.rpc k r req hr hbody).term_le
    rw [← hhard, hreq] at this
    exact absurd this (by simp [Node.hard])
  have hnew : ∀ {k : ℕ} {r : Rpc} {x : ℕ × ℕ × ℕ},
      (s.rpcs ++ rpcsOf p (s.servers p).epoch e.sends)[k]? = some r → r.voteKey = some x →
      s.rpcs[k]? = some r ∨ s.rpcs.length ≤ k ∧ x.1 = p ∧ x.2.1 = n.currentTerm + 1 ∧
        n.peers[k - s.rpcs.length]? = some x.2.2 := by
    intro k r x hr hx
    rcases getElem_append_rpcs hr with hr | ⟨hle, q, body, hb, rfl⟩
    · exact Or.inl hr
    · cases body <;> simp [Rpc.voteKey] at hx
      obtain ⟨h1, -, -, h2⟩ := hq.sends _ _ _ hb
      exact Or.inr ⟨hle, by rw [← hx], by rw [← hx]; exact h1, by rw [← hx]; exact h2⟩
  have hself : ∀ b', Booked b' p e.node.hard → b' (n.currentTerm + 1) p = some p := by
    intro b' hb
    have := hb.voted (by rw [hq.hard, hid]; exact hpos)
    rwa [hq.hard, hid] at this
  refine hE.finish hn hio hq.toKept (fun i q req hi => ?_) ?_ (fun b' hle hb hr => ?_)
    fun b' hle hb hr => ?_
  · obtain ⟨h1, h2, h3, h4⟩ := hq.sends i q req hi
    have hqp := List.mem_of_getElem? h4
    rw [hpeers, Config.mem_peers] at hqp
    exact ⟨hqp.1, h2, h3.trans hid, by rw [h1, hterm]⟩
  · rintro i j r r' ⟨x, y, z⟩ hr hr' hx hx'
    rcases hnew hr hx with h1 | ⟨hle, rfl, rfl, h3⟩ <;>
      rcases hnew hr' hx' with h1' | ⟨hle', h1', h2', h3'⟩
    · exact hE.keys i j r r' _ h1 h1' hx hx'
    · simp only at h1' h2'
      subst h1' h2'
      exact absurd hx (hfresh h1)
    · exact absurd hx' (hfresh h1')
    · have := (List.getElem?_eq_some_iff.mp h3).1
      have h4 := (List.getElem?_inj this hnodup).mp (h3.trans h3'.symm)
      omega
  · refine ⟨hvote.trans hid, {p}, by simpa using hmem, by simp [hq.cand hr], fun u hu => ?_⟩
    obtain rfl := Finset.mem_singleton.mp hu
    rw [hterm]
    refine ⟨hself b' hb, fun k r hr hx => ?_⟩
    rcases hnew hr hx with h3 | ⟨-, -, -, h3⟩
    · exact absurd hx (hfresh h3)
    · have := List.mem_of_getElem? h3
      rw [hpeers, Config.mem_peers] at this
      exact absurd rfl this.2
  · -- a node without peers
    have hm := hq.lead hr
    refine ⟨{p}, by simpa using hmem, ?_, fun u hu => ?_⟩
    · rw [Node.majority, hpeers, Config.length_peers hmem] at hm
      simpa using hm
    · obtain rfl := Finset.mem_singleton.mp hu
      rw [hterm]
      exact hself b' hb

/-- An answer used for the first time adds its sender to the count. -/
theorem VoteCount.add (hE : Elect cfg b s) (hr : s.rpcs[k]? = some r) (hun : r.handled = false)
    (hn : s.node r.src = some n) {req : RequestVoteRequest} (hb : r.body = .vote req)
    {resp : RequestVoteResponse} (hresp : .vote resp ∈ r.resps) (hrole : n.role = .candidate)
    (ht : n.currentTerm = req.term) (hgr : resp.voteGranted = true) :
    VoteCount b cfg (s.markHandled k).rpcs r.src { n with votes := n.votes + 1 } := by
  have hok := hE.rpc k r req hr hb
  obtain ⟨S, hS, hcard, hu⟩ := (hE.cand r.src n hn hrole).2
  have hkey : r.voteKey = some (r.src, n.currentTerm, r.dst) := by simp [Rpc.voteKey, hb, ht]
  have hnew : r.dst ∉ S := fun hm => by
    rw [(hu r.dst hm).2 k r hr hkey] at hun
    cases hun
  refine ⟨insert r.dst S, ?_, ?_, fun u hm => ?_⟩
  · refine Finset.insert_subset ?_ hS
    rw [List.mem_toFinset]
    exact hok.dst_mem
  · rw [Finset.card_insert_of_notMem hnew]
    exact Nat.succ_le_succ hcard
  · rcases Finset.mem_insert.mp hm with rfl | hm
    · refine ⟨ht ▸ hok.granted resp hresp hgr, fun j r' hr' hx => ?_⟩
      obtain ⟨r₀, h0, rfl⟩ := getElem_modify_rpcs hr'
      have hx0 : r₀.voteKey = some (r.src, n.currentTerm, r.dst) := by
        rw [← hx]; split <;> rfl
      obtain rfl := hE.keys j k r₀ r _ h0 hr hx0 hkey
      simp
    · refine ⟨(hu u hm).1, fun j r' hr' hx => ?_⟩
      obtain ⟨r₀, h0, rfl⟩ := getElem_modify_rpcs hr'
      split
      · rfl
      · rename_i hkj
        rw [if_neg hkj] at hx
        exact (hu u hm).2 j r₀ h0 hx

/-- A count that has reached a majority is a won election. -/
theorem VoteCount.won (h : VoteCount b cfg rpcs p n) (hm : cfg.ids.length / 2 + 1 ≤ n.votes) :
    Won b cfg n.currentTerm p := by
  obtain ⟨S, hS, hc, hu⟩ := h
  exact ⟨S, hS, hm.trans hc, fun u hm => (hu u hm).1⟩

theorem Elect.majority (hE : Elect cfg b s) (hn : s.node p = some n) :
    n.majority = cfg.ids.length / 2 + 1 := by
  obtain ⟨hmem, -, hpeers, -⟩ := hE.proc p n hn
  rw [Node.majority, hpeers, Config.length_peers hmem]

theorem Elect.finish_counted (hE : Elect cfg b s) (hn : s.node p = some n) (hio : io.HardStates)
    (hq : e.Counted n) (hcount : VoteCount b cfg s.rpcs p { n with votes := n.votes + 1 }) :
    Elect.Next cfg b (s.finish p io e) := by
  obtain ⟨hterm, hvote⟩ := Prod.mk.inj hq.hard
  have hrpcs : s.rpcs ++ rpcsOf p (s.servers p).epoch e.sends = s.rpcs := by
    rw [hq.sends]; simp [rpcsOf]
  refine hE.finish hn hio hq.toKept (by simp [hq.sends]) (by rw [hrpcs]; exact hE.keys)
    (fun b' hle _ hr => ?_) fun b' hle _ hr => ?_
  · obtain ⟨S, hS, hc, hu⟩ := hcount.mono hle fun k r' u hr' _ => ⟨r', hr', rfl, id⟩
    rw [hrpcs]
    exact ⟨hvote.trans (hE.cand p n hn hq.was).1, S, hS, (hq.cand hr).le.trans hc,
      by rw [hterm]; exact hu⟩
  · rw [hterm]
    refine (hcount.won ?_).mono hle
    rw [← hE.majority hn, ← hq.lead hr]

/-! ## Answers -/

theorem Elect.modify (hE : Elect cfg b s) {f : Rpc → Rpc}
    (hf : ∀ r, (f r).src = r.src ∧ (f r).dst = r.dst ∧ (f r).body = r.body ∧
      (r.handled = true → (f r).handled = true))
    (hok : ∀ r req resp, s.rpcs[k]? = some r → r.body = .vote req → .vote resp ∈ (f r).resps →
      resp.voteGranted = true → b req.term r.dst = some r.src) :
    Elect cfg b { s with rpcs := s.rpcs.modify k f } := by
  have hkey : ∀ r, (f r).voteKey = r.voteKey := fun r => by
    obtain ⟨h1, h2, h3, -⟩ := hf r
    simp only [Rpc.voteKey, h1, h2, h3]
  have hback : ∀ {j : ℕ} {r' : Rpc}, (s.rpcs.modify k f)[j]? = some r' →
      ∃ r, s.rpcs[j]? = some r ∧ r.voteKey = r'.voteKey ∧
        (r.handled = true → r'.handled = true) := by
    intro j r' hr'
    obtain ⟨r, hr, rfl⟩ := getElem_modify_rpcs hr'
    refine ⟨r, hr, ?_⟩
    split
    · exact ⟨(hkey r).symm, (hf r).2.2.2⟩
    · exact ⟨rfl, id⟩
  refine ⟨hE.booked, hE.proc, fun p n hn hr => ?_, hE.lead, fun j r' req hr' hb => ?_,
    fun i j r r' x hr hr' hx hx' => ?_⟩
  · obtain ⟨h1, h2⟩ := hE.cand p n hn hr
    exact ⟨h1, h2.mono (fun _ _ _ => id) fun j r' u hr' _ => hback hr'⟩
  · obtain ⟨r, hr, rfl⟩ := getElem_modify_rpcs hr'
    split
    · rename_i hkj
      subst hkj
      obtain ⟨h1, h2, h3, -⟩ := hf r
      rw [if_pos rfl, h3] at hb
      have hold := hE.rpc k r req hr hb
      exact ⟨h1 ▸ hold.src_mem, h2 ▸ hold.dst_mem, hold.real, h1 ▸ hold.candidate,
        h1 ▸ hold.term_le, fun resp hm hg => by
          rw [h1, h2]; exact hok r req resp hr hb hm hg⟩
    · rename_i hkj
      rw [if_neg hkj] at hb
      exact hE.rpc j r req hr hb
  · obtain ⟨r₀, h0, hk0, -⟩ := hback hr
    obtain ⟨r₁, h1, hk1, -⟩ := hback hr'
    exact hE.keys i j r₀ r₁ x h0 h1 (hk0.trans hx) (hk1.trans hx')

theorem Elect.markHandled (hE : Elect cfg b s) (k : ℕ) : Elect cfg b (s.markHandled k) :=
  hE.modify (fun _ => ⟨rfl, rfl, rfl, fun _ => rfl⟩)
    fun r req resp hr hb hm hg => (hE.rpc k r req hr hb).granted resp hm hg

/-! ## Steps and runs -/

theorem State.finish_node (hc : io.crash = none) (e : Effect) :
    (s.finish p io e).node p = some e.node := by
  rw [State.finish_eq hc]
  simp [State.node]

theorem Elect.deliver (hE : Elect cfg b s) (hr : s.rpcs[k]? = some r) (hn : s.node r.dst = some n)
    (hio : io.HardStates) (recent : Bool)
    (ht : t = (s.finish r.dst io (handle io recent n r.body).1).answer k io
      (handle io recent n r.body).2) : Elect.Next cfg b t := by
  obtain ⟨hle, hE₁⟩ := hE.finish_quiet hn hio (handle_quiet hio recent n r.body)
  set t₁ := s.finish r.dst io (handle io recent n r.body).1 with ht₁
  unfold State.answer at ht
  split at ht
  · rename_i hc
    subst ht
    refine ⟨hle, hE₁.modify (fun _ => ⟨rfl, rfl, rfl, id⟩) fun r' req resp hr' hb hm hg => ?_⟩
    have hrr : r' = r := by
      rw [ht₁, State.finish_eq hc,
        List.getElem?_append_left (List.getElem?_eq_some_iff.mp hr).1, hr] at hr'
      exact (Option.some.inj hr').symm
    subst hrr
    rcases List.mem_append.mp hm with hm | hm
    · exact (hE₁.rpc k r' req hr' hb).granted resp hm hg
    -- the new answer: the vote it grants is the one on disk
    have hresp := (List.mem_singleton.mp hm).symm
    have hok := hE₁.rpc k r' req hr' hb
    have hnode := State.finish_node (s := s) (p := r'.dst) hc (handle io recent n r'.body).1
    have hbook := hE₁.booked r'.dst
    rw [← (hE₁.proc _ _ hnode).2.2.2] at hbook
    simp only [hb, handle, Response.vote.injEq] at hresp hbook
    rw [← hresp] at hg
    rw [Node.handleRequestVote_granted hok.real hg, hok.candidate] at hbook
    exact hbook.voted (Config.ne_noVote hok.src_mem)
  · subst ht
    exact ⟨hle, hE₁⟩

theorem Elect.respond (hE : Elect cfg b s) {j : ℕ} (hr : s.rpcs[k]? = some r) {resp : Response}
    (hresp : r.resps[j]? = some resp) (hun : r.handled = false) (hio : io.HardStates)
    (hn : s.node r.src = some n) (he : receive io n r.dst r.body resp = some e) :
    Elect.Next cfg b ((s.markHandled k).finish r.src io e) := by
  have hE₁ := hE.markHandled k
  have hn₁ : (s.markHandled k).node r.src = some n := hn
  rcases receive_votes hio he with hq | hq | ⟨req, v, hb, rfl, hq, ht, hg⟩
  · exact hE₁.finish_quiet hn₁ hio hq
  · exact hE₁.finish_campaign hn₁ hio hq
  · exact hE₁.finish_counted hn₁ hio hq
      (.add hE hr hun hn hb (List.mem_of_getElem? hresp) hq.was ht hg)

theorem openPersister_term (d : Disk) : (openPersister d).term = d.replayed.term := by
  unfold openPersister
  simp only
  split <;> rfl

theorem openPersister_votedFor (d : Disk) : (openPersister d).votedFor = d.replayed.votedFor := by
  unfold openPersister
  simp only
  split <;> rfl

/-- Every `saveHardState` succeeds or the process dies in it. -/
def Action.HardStates (a : Action) : Prop := a.io.HardStates

theorem Elect.section (hE : Elect cfg b s) (ha : a.HardStates) (hn : s.node p = some n)
    (h : Section cfg s n a p io e t) : Elect.Next cfg b t := by
  have hio : io.HardStates := h.io_eq ▸ ha
  cases h with
  | tick he =>
    obtain ⟨-, rfl⟩ := Node.timeout_some he
    rcases n.startPreVote_votes (Io.HardStates.fail ha) with hq | hq
    · exact hE.finish_quiet hn ha hq
    · exact hE.finish_campaign hn ha hq
  | stepDown he => exact hE.finish_quiet hn hio (Node.resign_quiet he)
  | deliver hr => exact hE.deliver hr hn ha _ rfl
  | respond hr hresp hun _ he => exact hE.respond hr hresp hun ha hn he
  | propose => exact hE.finish_quiet hn ha (n.commitPropBatch_quiet _)
  | replicate _ he => exact hE.finish_quiet hn hio (Node.replicateOnce_quiet he)
  | heartbeat _ he => exact hE.finish_quiet hn hio (Node.heartbeatAck_quiet he)
  | lease =>
    exact hE.finish_quiet hn hio (.same ⟨rfl, rfl⟩ rfl rfl (by simp) (Or.inr ⟨rfl, rfl⟩))
  | snapshot => exact hE.finish_quiet hn ha (n.snapshot_quiet _ _)

theorem Elect.sameProc (hE : Elect cfg b s) (hn : s.node p = some n) {m : Node}
    (hd : srv.disk = (s.servers p).disk) (hm : srv.proc = some m)
    (h : m.id = n.id ∧ m.peers = n.peers ∧ m.hard = n.hard ∧ m.role = n.role ∧
      m.votes = n.votes) : Elect.Next cfg b (s.setServer p srv) := by
  obtain ⟨h1, h2, h3, h4, h5⟩ := h
  obtain ⟨hmem, hid, hpeers, hhard⟩ := hE.proc p n hn
  refine hE.setServer (hd ▸ Legal.refl _) (fun m' hm' => ?_) fun m' hm' _ => ?_
  · obtain rfl := Option.mem_unique hm hm'
    exact ⟨hmem, h1.trans hid, h2.trans hpeers, hd ▸ h3.trans hhard⟩
  · obtain rfl := Option.mem_unique hm hm'
    exact ⟨n, hn, h4, h3, h5⟩

theorem Elect.change (hE : Elect cfg b s) (h : Change cfg s a p srv) :
    Elect.Next cfg b (s.setServer p srv) := by
  cases h with
  | applierTake hn htake _ => exact hE.sameProc hn rfl rfl (Node.applierTake_fixed htake)
  | applierSend hn _ => exact hE.sameProc hn rfl rfl ⟨rfl, rfl, rfl, rfl, rfl⟩
  | crash _ => exact hE.setServer (Legal.refl _) (by simp [Server.die]) (by simp [Server.die])
  | restart hp _ =>
    refine hE.setServer (Legal.refl _) (fun m hm => ?_) fun m hm hr => ?_
    · obtain rfl := Option.some.inj hm
      exact ⟨hp, rfl, rfl, by
        simp only [Node.hard, newNode, Disk.hard, openPersister_term, openPersister_votedFor]⟩
    · obtain rfl := Option.some.inj hm
      exact absurd rfl hr
  | stop hn => exact hE.sameProc hn rfl rfl ⟨rfl, rfl, rfl, rfl, rfl⟩

theorem Elect.step (hE : Elect cfg b s) (ha : a.HardStates) (hs : step cfg s a = some t) :
    Elect.Next cfg b t := by
  rcases step_cases hs with ⟨p, io, n, e, hn, hsec⟩ | ⟨p, srv, hch, rfl⟩
  · exact hE.section ha hn hsec
  · exact hE.change hch

theorem elect_init (cfg : Config) : Elect cfg (fun _ _ => none) cfg.init where
  booked _ := ⟨fun _ => rfl, fun h => absurd rfl h, fun _ _ => rfl⟩
  proc p n hn := by simp [Config.init, State.node] at hn
  cand p n hn := by simp [Config.init, State.node] at hn
  lead p n hn := by simp [Config.init, State.node] at hn
  rpc k r req hr := by simp [Config.init] at hr
  keys i j r r' x hr := by simp [Config.init] at hr

theorem Elect.run (hE : Elect cfg b s) {acts : List Action}
    (h : Run (KMC.step cfg) (fun _ a => a.HardStates) s acts t) :
    ∃ b', b.Le b' ∧ Elect cfg b' t := by
  induction h with
  | nil => exact ⟨b, fun _ _ _ => id, hE⟩
  | @snoc acts t u a _ ha hs ih =>
    obtain ⟨b₁, hle, hE₁⟩ := ih
    obtain ⟨hle₂, hE₂⟩ := hE₁.step ha hs
    exact ⟨b₁.book u, fun T v c hc => hle₂ _ _ _ (hle T v c hc), hE₂⟩

/-- For every term at most one node is ever its leader. -/
theorem election_safety {a c : State}
    (ha : Reaches (step cfg) (fun _ x => x.HardStates) cfg.init a)
    (hc : Reaches (step cfg) (fun _ x => x.HardStates) a c) {q : ℕ} {m : Node}
    (hn : a.node p = some n) (hm : c.node q = some m) (hp : n.role = .leader)
    (hq : m.role = .leader) (hT : n.currentTerm = m.currentTerm) : p = q := by
  obtain ⟨_, ha⟩ := ha
  obtain ⟨_, hc⟩ := hc
  obtain ⟨b, -, hE⟩ := (elect_init cfg).run ha
  obtain ⟨b', hle, hE'⟩ := hE.run hc
  have hwon := (hE.lead p n hn hp).mono hle
  rw [hT] at hwon
  exact hwon.unique (hE'.lead q m hm hq)

theorem election_safety_pair : ∃ a c p q n m,
    Reaches (step .pair) (fun _ x => x.HardStates) Config.pair.init a ∧
    Reaches (step .pair) (fun _ x => x.HardStates) a c ∧ a.node p = some n ∧ c.node q = some m ∧
    n.role = .leader ∧ m.role = .leader ∧ n.currentTerm = m.currentTerm ∧ p = q := by
  have ha := Reaches.of_exec (step .pair) (fun _ x => x.HardStates) Config.pair.init electFirst
    (.of_forall (by simp [electFirst, Action.HardStates, Io.HardStates, Action.io]) _) rfl
  have hc := Reaches.of_exec (step .pair) (fun _ x => x.HardStates)
    ((exec (step .pair) Config.pair.init electFirst).get rfl) [.propose 1 [[7]] {}]
    (.of_forall (by simp [Action.HardStates, Io.HardStates, Action.io]) _) rfl
  exact ⟨_, _, 1, 1, _, _, ha, hc, rfl, rfl, rfl, rfl, rfl,
    election_safety ha hc rfl rfl rfl rfl rfl⟩

end KMC
