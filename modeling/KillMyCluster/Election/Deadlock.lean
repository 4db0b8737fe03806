import KillMyCluster.Election.Pending

/-! Where no leader comes about. If nobody leads, every backed node is a candidate in the highest
term, no election and no poll in the highest term is decided and no message is ahead of everybody,
then timeouts, deliveries and answers change nothing of that, as long as no message of a former
leader is accepted. -/

namespace KMC

open Trace

variable {cfg : Config} {s t : State} {a : Action} {p q k : ℕ} {io : Io} {n m : Node} {e : Effect}
  {body : Body} {M : ℕ} {r : Rpc}

/-- `M` is the highest term. -/
structure Hung (cfg : Config) (M : ℕ) (s : State) : Prop where
  crowd : cfg.ids.length ≠ 1
  low : s.Top M
  unled : ∀ p n, s.node p = some n → n.role ≠ .leader
  held : ∀ p n, s.node p = some n → Backed cfg s n → n.role = .candidate ∧ n.currentTerm = M
  short : ∀ p n, s.node p = some n → (n.role = .follower → n.currentTerm = M) → ¬ Decides s p n
  asked : ∀ (k : ℕ) (r : Rpc) req, s.rpcs[k]? = some r → r.body = .vote req → req.term ≤ M
  told : ∀ (k : ℕ) (r : Rpc) resp, s.rpcs[k]? = some r → r.handled = false →
    (s.servers r.src).epoch = r.epoch → resp ∈ r.resps → resp.term ≤ M

/-- What is not electable is hung. -/
theorem hung_of_not_electable (hI : Requested cfg s) (hup : AllUp cfg s) (h : ¬ Electable cfg s) :
    ∃ M, Hung cfg M s := by
  obtain ⟨M, hlow, hmax⟩ : ∃ M, s.Top M ∧ ∀ T, s.Top T → M ≤ T := by
    by_cases hnone : ∃ p n, s.node p = some n
    · obtain ⟨p, n, hn⟩ := hnone
      obtain ⟨q, m, hm, hmax⟩ := (hup.present hI.enrolled).exists_max_term hn
      exact ⟨m.currentTerm, hmax, fun T hT => hT q m hm⟩
    · exact ⟨0, fun q m hm => absurd ⟨q, m, hm⟩ hnone, fun T _ => Nat.zero_le T⟩
  -- what is not ahead of everybody is not ahead of the highest term
  have hbelow : ∀ T, ¬ s.Below T → T ≤ M := by
    intro T hT
    simp only [State.Below, not_forall, not_lt] at hT
    obtain ⟨q, m, hm, hle⟩ := hT
    exact hle.trans (hlow q m hm)
  refine ⟨M, fun h1 => ?_, hlow, fun p n hn hl => h (.leads hn hl), fun p n hn hb => ?_,
    fun p n hn hterm hd => ?_,
    fun k r req hr hb => hbelow _ fun hno => h (.called hr hb hno),
    fun k r resp hr hun hep hresp => hbelow _ fun hno => h (.told hr hun hep hresp hno)⟩
  · obtain ⟨p, hp⟩ := List.exists_mem_of_length_pos (h1 ▸ Nat.one_pos)
    obtain ⟨n, hn, -⟩ := hup p hp
    obtain ⟨q, m, hm, hb⟩ := exists_backed hI.enrolled hup hn
    exact h (.free hm hb fun _ hno => absurd h1 hno)
  · by_contra hno
    refine h (.free hn hb fun hc _ htop => hno ⟨hc, ?_⟩)
    exact Nat.le_antisymm (hlow p n hn) (hmax _ htop)
  · cases hrole : n.role with
    | leader => exact h (.leads hn hrole)
    | candidate => exact h (.wins hn hrole hd)
    | follower => exact h (.stands hn hrole (hterm hrole ▸ hlow) hd)

/-! ## What a node can do -/

/-- The requests that a section adds are `body` to each peer. -/
def Fresh (s t : State) (n : Node) (body : Body) : Prop :=
  ∀ (k : ℕ) (r : Rpc), t.rpcs[k]? = some r → s.rpcs.length ≤ k →
    n.peers[k - s.rpcs.length]? = some r.dst ∧ r.body = body ∧ r.resps = []

def NoneFresh (s t : State) : Prop := t.rpcs.length ≤ s.rpcs.length

inductive Election (M : ℕ) (s t : State) (p : ℕ) (n : Node) (a : Action) : Node → Prop
  | votes {v : ℕ} : Legal n.hard (n.currentTerm, v) → NoneFresh s t →
      Election M s t p n a { n with votedFor := v }
  | follows {T v : ℕ} : n.currentTerm < T → T ≤ M → NoneFresh s t →
      Election M s t p n a { (n.becomeFollowerLocked T).node with votedFor := v }
  | polls : Fresh s t n (.preVote n.currentTerm (n.preVoteRound + 1) n.pollRequest) →
      Election M s t p n a n.polling.node
  | counts {k j c v : ℕ} {io : Io} : a = .respond k j io → Open s p n k →
      Node.count { n with preVotes := c, votes := v } = n.count + 1 → NoneFresh s t →
      Election M s t p n a { n with preVotes := c, votes := v }
  | stands {c : ℕ} : n.role = .follower → n.currentTerm < M →
      Fresh s t n (.vote n.voteRequest) →
      Election M s t p n a { n with preVotes := c }.standing

/-- An answer that is counted is not of a higher term. -/
theorem receive_counted {v : RequestVoteResponse} (h : receive io n q body (.vote v) = some e)
    (hc : e.node.preVotes ≠ n.preVotes ∨ e.node.votes ≠ n.votes) : v.term ≤ n.currentTerm := by
  by_contra hlt
  have hsame : e.node.preVotes = n.preVotes ∧ e.node.votes = n.votes := by
    cases body with
    | preVote term round req =>
      obtain rfl := Option.some.inj h
      unfold Node.onPreVoteResponse
      rw [if_pos (not_le.mp hlt)]
      split <;> exact ⟨rfl, rfl⟩
    | vote req =>
      obtain rfl := Option.some.inj h
      unfold Node.onVoteResponse
      rw [if_pos (not_le.mp hlt)]
      split <;> exact ⟨rfl, rfl⟩
    | replicate | heartbeat | snapshot => cases h
  exact hc.elim (· hsame.1) (· hsame.2)

/-- A stale message of a leader changes nothing. -/
theorem handle_stale {recent : Bool} {x : ℕ × ℕ} (hb : x ∈ body.leader)
    (hlt : x.1 < n.currentTerm) : (handle io recent n body).1.node = n := by
  have hadopt : ∀ {T}, T < n.currentTerm → n.adoptTerm T = { node := n } := fun hT =>
    if_neg (by omega)
  cases body with
  | preVote | vote => cases hb
  | replicate req | heartbeat req =>
    obtain rfl := Option.some.inj hb
    change (n.handleAppendEntries io.fail req).1.node = n
    unfold Node.handleAppendEntries
    rw [hadopt hlt]
    simp only [show req.term < n.currentTerm from hlt, if_true]
    split <;> rfl
  | snapshot req =>
    obtain rfl := Option.some.inj hb
    change (n.handleInstallSnapshot io.fail req).1.node = n
    unfold Node.handleInstallSnapshot
    rw [hadopt hlt]
    simp only [show req.term < n.currentTerm from hlt, if_true]
    split <;> rfl

theorem Node.covers_refl (n : Node) : n.Covers n := by
  simp [Node.Covers, Node.upToDate, Node.pollRequest]

/-- Enough peers, asked in new requests, are covered. -/
theorem Backed.of_peers (hen : Enrolled cfg s) (hn : s.node p = some n) {K : Finset ℕ}
    {b : ℕ} (hK : ∀ k ∈ K, b ≤ k ∧ ∃ q, n.peers[k - b]? = some q ∧
      ∀ m, s.node q = some m → n.Covers m) (hmaj : n.majority ≤ 1 + K.card) : Backed cfg s n := by
  obtain ⟨hp, hmem⟩ := hen p n hn
  have hpeers := hen.peers hn
  have hnd : n.peers.Nodup := hpeers ▸ cfg.nodup.filter _
  set dst : ℕ → ℕ := fun k => n.peers.getD (k - b) 0 with hdst
  have hat : ∀ k ∈ K, n.peers[k - b]? = some (dst k) := by
    intro k hk
    obtain ⟨-, q, hq, -⟩ := hK k hk
    simp [hdst, List.getD_eq_getElem?_getD, hq]
  have hinj : Set.InjOn dst K := by
    intro k hk k' hk' heq
    obtain ⟨h1, h1'⟩ := List.getElem?_eq_some_iff.mp (hat k hk)
    obtain ⟨h2, h2'⟩ := List.getElem?_eq_some_iff.mp (hat k' hk')
    have hi := hnd.getElem_inj_iff.mp (h1'.trans (heq.trans h2'.symm))
    have := (hK k hk).1
    have := (hK k' hk').1
    omega
  have hpeer : ∀ k ∈ K, dst k ∈ cfg.peers p := fun k hk =>
    hpeers ▸ List.mem_of_getElem? (hat k hk)
  refine ⟨insert p (K.image dst), ?_, ?_, fun q hq m hm => ?_⟩
  · intro q hq
    rcases Finset.mem_insert.mp hq with rfl | hq
    · exact List.mem_toFinset.mpr hp
    · obtain ⟨k, hk, rfl⟩ := Finset.mem_image.mp hq
      exact List.mem_toFinset.mpr (Config.mem_peers.mp (hpeer k hk)).1
  · have hnot : p ∉ K.image dst := by
      intro hmem
      obtain ⟨k, hk, heq⟩ := Finset.mem_image.mp hmem
      exact (Config.mem_peers.mp (hpeer k hk)).2 heq
    have hlen := cfg.length_peers hp
    rw [Node.majority, hpeers] at hmaj
    rw [Finset.card_insert_of_notMem hnot, Finset.card_image_of_injOn hinj]
    omega
  · rcases Finset.mem_insert.mp hq with rfl | hq
    · obtain rfl := Option.mem_unique hn hm
      exact n.covers_refl
    · obtain ⟨k, hk, rfl⟩ := Finset.mem_image.mp hq
      obtain ⟨-, q, hq, hcov⟩ := hK k hk
      obtain rfl := Option.some.inj ((hat k hk).symm.trans hq)
      exact hcov m hm

/-- Nobody is alone in a hung state. -/
theorem Hung.not_alone (h : Hung cfg M s) (hI : Requested cfg s) (hn : s.node p = some n) :
    1 < n.majority := by
  have hpos := List.length_pos_of_mem (hI.enrolled p n hn).1
  have hcrowd := h.crowd
  exact hI.majority (by omega) hn

theorem State.finish_fresh (hc : io.crash = none)
    (hsends : e.sends = n.peers.map fun q => (q, body)) : Fresh s (s.finish p io e) n body := by
  intro k r hr hle
  have hrpcs : (s.finish p io e).rpcs = s.rpcs ++ rpcsOf p (s.servers p).epoch e.sends := by
    simp [State.finish, hc]
  rw [hrpcs] at hr
  rcases getElem_append_rpcs hr with hr | ⟨-, q, b, hq, rfl⟩
  · exact absurd (List.getElem?_eq_some_iff.mp hr).1 (by omega)
  · rw [hsends, List.getElem?_map, Option.map_eq_some_iff] at hq
    obtain ⟨q', hq', heq⟩ := hq
    obtain ⟨rfl, rfl⟩ := Prod.mk.inj heq
    exact ⟨hq', rfl, rfl⟩

theorem Fresh.unmarked (h : Fresh (s.markHandled k) t n body) : Fresh s t n body := by
  intro j r hr hle
  have hlen : (s.markHandled k).rpcs.length = s.rpcs.length := by simp [State.markHandled]
  rw [← hlen] at hle ⊢
  exact h j r hr hle

theorem State.finish_noneFresh (hc : io.crash = none) (hsends : e.sends = []) :
    NoneFresh s (s.finish p io e) := by
  simp [NoneFresh, State.finish, hc, hsends, rpcsOf]

theorem open_of_counted {j : ℕ} {v : RequestVoteResponse} (hr : s.rpcs[k]? = some r)
    (hresp : r.resps[j]? = some (.vote v)) (hun : r.handled = false)
    (hep : (s.servers r.src).epoch = r.epoch) (ha : r.body.Asks n) (hg : v.voteGranted = true)
    (hle : v.term ≤ n.currentTerm) : Open s r.src n k := by
  refine ⟨r, hr, rfl, hun, hep, ha, .inl ⟨_, List.mem_of_getElem? hresp, v.term, hle, ?_⟩⟩
  rw [← hg]

section Section

variable (h : Hung cfg M s) (hI : Requested cfg s)
include h hI

theorem Hung.receive {resp : Response} {j : ℕ} (hfail : io.fail = ({} : Io).fail)
    (hc : io.crash = none) (hn : s.node r.src = some n) (hr : s.rpcs[k]? = some r)
    (hresp : r.resps[j]? = some resp) (hun : r.handled = false)
    (hep : (s.servers r.src).epoch = r.epoch) (he : receive io n r.dst r.body resp = some e) :
    Election M s ((s.markHandled k).finish r.src io e) r.src n (.respond k j io) e.node := by
  have hnone : e.sends = [] → NoneFresh s ((s.markHandled k).finish r.src io e) := by
    intro hsends
    have hlen := State.finish_noneFresh (s := s.markHandled k) (p := r.src) hc hsends
    simpa [NoneFresh, State.markHandled] using hlen
  have hone : ∀ {c}, n.count = c → c + 1 = n.majority → Open s r.src n k →
      Decides s r.src n := fun hcount hm ho =>
    ⟨by omega, {k}, by simpa using ho, by rw [Finset.card_singleton]; omega⟩
  have hcases := receive_cases he
  generalize hb : r.body = body at hcases he
  cases hcases with
  | ignored => exact .votes (.refl _) (hnone rfl)
  | outvoted hlt =>
    exact .follows hlt (h.told k r _ hr hun hep (List.mem_of_getElem? hresp)) (hnone rfl)
  | polled hrole hg hm =>
    have hle := receive_counted he (.inl (Nat.succ_ne_self _))
    have ho := open_of_counted hr hresp hun hep (by rw [hb]; exact ⟨hrole, rfl, rfl⟩) hg hle
    exact .counts rfl ho (by simp [Node.count, hrole]) (hnone rfl)
  | stands hrole hg hm =>
    have hmaj := h.not_alone hI hn
    rw [hfail, Node.startElection_standing (n := { n with preVotes := n.preVotes + 1 }) hmaj]
      at he ⊢
    have hle := receive_counted he (.inl (Nat.succ_ne_self _))
    have ho := open_of_counted hr hresp hun hep (by rw [hb]; exact ⟨hrole, rfl, rfl⟩) hg hle
    have hcount : n.count = n.preVotes := if_neg (by simp [hrole])
    refine .stands hrole ?_ (State.finish_fresh (s := s.markHandled k) hc rfl).unmarked
    refine lt_of_le_of_ne (h.low _ n hn) fun hM => ?_
    exact h.short _ n hn (fun _ => hM) (hone hcount hm ho)
  | voted hrole hterm hg hm =>
    have hle := receive_counted he (.inr (Nat.succ_ne_self _))
    have ho := open_of_counted hr hresp hun hep (by rw [hb]; exact ⟨hrole, hterm.symm⟩) hg hle
    exact .counts rfl ho (by simp [Node.count, hrole]) (hnone rfl)
  | wins hrole hterm hg hm =>
    have hle := receive_counted he (.inr (Nat.succ_ne_self _))
    have ho := open_of_counted hr hresp hun hep (by rw [hb]; exact ⟨hrole, hterm.symm⟩) hg hle
    exact absurd (hone (if_pos hrole) hm ho) (h.short _ n hn (by simp [hrole]))
  | acked hl _ _ | refused hl _ _ | installed hl _ _ => exact absurd hl (h.unled _ n hn)

theorem Hung.section (ha : a.Electoral ∧ a.Reliable ∧ a.Unled s) (hn : s.node p = some n)
    (hsec : Section cfg s n a p io e t) : io.crash = none ∧ Election M s t p n a e.node := by
  obtain ⟨hel, hrel, hunled⟩ := ha
  have hfault : io.fault = fun _ => none := hsec.io_eq ▸ hrel
  have hfail : io.fail = ({} : Io).fail := by
    funext c
    simp [Io.fail, hfault]
  cases hsec with
  | tick he =>
    obtain ⟨-, rfl⟩ := Node.timeout_some he
    rw [Node.startPreVote_polling (h.not_alone hI hn)]
    exact ⟨hel, .polls (State.finish_fresh hel rfl)⟩
  | @deliver k recent _ r hr =>
    refine ⟨hel, ?_⟩
    have hnone : NoneFresh s ((s.finish r.dst io (handle io recent n r.body).1).answer k io
        (handle io recent n r.body).2) := by
      have hlen := State.finish_noneFresh (s := s) (p := r.dst) hel
        (handle_sends io recent n r.body)
      simpa [NoneFresh, State.answer, show io.crash = none from hel] using hlen
    have hlegal := (handle_quiet (fun _ _ => by rw [hfault]) recent n r.body).ledger.legal
    have hform := (hI.rpc k r hr).formed
    cases hl : r.body.leader with
    | some x =>
      have hlt := hunled r hr n hn x hl
      rw [handle_stale hl hlt]
      exact .votes (.refl _) hnone
    | none =>
      generalize hb : r.body = body at hlegal hform hnone hl ⊢
      cases body with
      | preVote term round req =>
        obtain ⟨v, hv, -⟩ : ∃ v, n.handleRequestVote io.fail recent req = ({ node := n }, v) ∧
          v.term = n.currentTerm := Node.handleRequestVote_poll hform.1
        rw [handle, hv] at hnone ⊢
        exact .votes (.refl _) hnone
      | vote req =>
        have hnode : (handle io recent n (.vote req)).1.node =
          (n.handleRequestVote io.fail recent req).1.node := rfl
        obtain ⟨v, hv | ⟨hlt, hv⟩⟩ := n.handleRequestVote_node io.fail recent req
        · rw [hnode, hv] at hlegal ⊢
          exact .votes hlegal hnone
        · rw [hnode, hv]
          exact .follows hlt (h.asked k r req hr hb) hnone
      | replicate | heartbeat | snapshot => cases hl
  | respond hr hresp hun hep he =>
    exact ⟨hel, h.receive hI hfail hel hn hr hresp hun hep he⟩
  | _ => exact hel.elim

end Section

theorem Rpc.Same.unhandled {r' : Rpc} (h : r.Same r') (hun : r'.handled = false) :
    r.handled = false := by
  refine Bool.eq_false_iff.mpr fun hh => ?_
  rw [h.handled hh] at hun
  cases hun

theorem Section.epoch (h : Section cfg s n a p io e t) :
    (t.servers q).epoch = (s.servers q).epoch := by
  by_cases hq : q = p
  · subst hq
    rcases h.server with ⟨-, hsrv⟩ | ⟨_, _, -, hsrv⟩ <;> rw [hsrv]
    rfl
  · rw [h.other hq]

theorem Section.acted (h : Section cfg s n a p io e t) (hc : io.crash = none) :
    t.node p = some e.node := by
  rcases h.server with ⟨-, hsrv⟩ | ⟨_, _, hdie, -⟩
  · rw [State.node, hsrv]
  · rw [hc] at hdie
    cases hdie

theorem Election.yields (h : Election M s t p n a m) : n.Yields m := by
  cases h with
  | votes hl _ => exact ⟨rfl, rfl, hl⟩
  | follows hlt _ _ => exact ⟨rfl, rfl, .inl hlt⟩
  | stands _ _ _ => exact ⟨rfl, rfl, .inl (Nat.lt_succ_self _)⟩
  | polls _ | counts _ _ _ _ => exact ⟨rfl, rfl, .refl _⟩

/-! ## Nothing comes of it -/

theorem Open.congr {n' : Node} (h : Open s p n k) (ha : ∀ body : Body, body.Asks n → body.Asks n')
    (ht : n'.currentTerm = n.currentTerm) : Open s p n' k := by
  obtain ⟨r, hr, ho⟩ := h
  exact ⟨r, hr, ho.src, ho.fresh, ho.alive, ha _ ho.asks, ht ▸ ho.grant⟩

/-- A request that was there before could bring in a grant before. -/
theorem Open.back (hI : Requested cfg s) (hn : s.node p = some n)
    (hsec : Section cfg s n a p io e t) (hc : io.crash = none) (hy : n.Yields e.node) {x : ℕ}
    (h : Open t x m k) (hk : k < s.rpcs.length) : Open s x m k := by
  have hself := hsec.acted hc
  -- who would grant now would have granted before
  have hgrant : ∀ (r : Rpc), r.body.Formed r.src → r.body.Asks m →
      (∃ m', t.node r.dst = some m' ∧ (handle {} false m' r.body).2.Grants m.currentTerm) →
      ∃ m', s.node r.dst = some m' ∧ (handle {} false m' r.body).2.Grants m.currentTerm := by
    rintro r hf ha ⟨m', hm', hg⟩
    by_cases hd : r.dst = p
    · rw [hd, hself] at hm'
      obtain rfl := Option.some.inj hm'
      exact ⟨n, hd ▸ hn, (hy.mayGrant (mayGrant_of_handle hf ha.leader hg)).handle hf ha⟩
    · exact ⟨m', (congrArg Server.proc (hsec.other hd)).symm.trans hm', hg⟩
  obtain ⟨r', hr', ho⟩ := h
  have hback : ∀ r, s.rpcs[k]? = some r → r.Same r' →
      ((∃ resp ∈ r'.resps, resp.Grants m.currentTerm) →
        (∃ resp ∈ r.resps, resp.Grants m.currentTerm) ∨
          ∃ m', s.node r.dst = some m' ∧ (handle {} false m' r.body).2.Grants m.currentTerm) →
      Open s x m k := by
    intro r hr hsame hresps
    have hasks := hsame.body ▸ ho.asks
    refine ⟨r, hr, hsame.src ▸ ho.src, ?_, ?_, hasks, ?_⟩
    · exact hsame.unhandled ho.fresh
    · rw [← hsec.epoch, ho.alive, hsame.epoch]
    · have hg := ho.grant
      rw [hsame.body, hsame.dst] at hg
      exact hg.elim hresps fun hg => .inr (hgrant r (hI.rpc k r hr).formed hasks hg)
  cases hsec.origin hn hr' with
  | old r hr hsame hresps => exact hback r hr hsame fun hg => .inl (hresps ▸ hg)
  | answered r recent m' hr hsame _ _ hm' hresps =>
    refine hback r hr hsame ?_
    rintro ⟨resp, hresp, hg⟩
    rw [hresps, List.mem_append, List.mem_singleton] at hresp
    rcases hresp with hresp | rfl
    · exact .inl ⟨resp, hresp, hg⟩
    · have hf := (hI.rpc k r hr).formed
      have ha := hsame.body ▸ ho.asks
      exact .inr ⟨m', hm', (mayGrant_of_handle hf ha.leader hg).handle hf ha⟩
  | sent q body hle _ _ _ => omega

/-- What a node still waits for is not ahead of it. -/
theorem Open.past (hI : Requested cfg s) (hn : s.node p = some n) (h : Open s p m k) :
    m.currentTerm ≤ n.currentTerm ∧ (m.role = .follower → m.preVoteRound ≤ n.preVoteRound) := by
  obtain ⟨r, hr, ho⟩ := h
  obtain rfl := ho.src
  have hp := (hI.rpc k r hr).past n hn ho.alive
  have ha := ho.asks
  generalize r.body = body at hp ha
  cases body with
  | preVote => exact ⟨ha.2.1 ▸ hp.1, fun _ => ha.2.2 ▸ hp.2⟩
  | vote => exact ⟨ha.2 ▸ hp, fun hrole => absurd (hrole.symm.trans ha.1) (by decide)⟩
  | replicate | heartbeat | snapshot => exact ha.elim

/-- A peer that was asked in a new request and grants it is covered. -/
theorem Rpc.Open.covers (ho : r.Open t p m) (hf : r.body.Formed p) (hresps : r.resps = [])
    (hbody : r.body = .vote n.voteRequest ∨
      ∃ term round, r.body = .preVote term round n.pollRequest)
    (hdst : t.node r.dst = s.node r.dst) : ∀ m', s.node r.dst = some m' → n.Covers m' := by
  intro m' hm'
  rcases ho.grant with ⟨resp, hresp, -⟩ | ⟨m₁, hm₁, hg⟩
  · rw [hresps] at hresp
    cases hresp
  · obtain rfl := Option.some.inj (hm'.symm.trans (hdst ▸ hm₁))
    have hmay := mayGrant_of_handle hf ho.asks.leader hg
    rcases hbody with hb | ⟨term, round, hb⟩
    · rw [hb] at hmay
      exact hmay.2.1
    · rw [hb] at hmay
      exact hmay.2.1

/-- If the new requests of a poll or an election decide it, the node is backed. -/
theorem backed_of_fresh (hI : Requested cfg s) (hIt : Requested cfg t) (hn : s.node p = some n)
    (hrest : ∀ q, q ≠ p → t.node q = s.node q) (hfresh : Fresh s t n body)
    (hbody : body = .vote n.voteRequest ∨ ∃ term round, body = .preVote term round n.pollRequest)
    {K : Finset ℕ} (hK : ∀ k ∈ K, Open t p m k ∧ s.rpcs.length ≤ k)
    (hmaj : n.majority ≤ 1 + K.card) : Backed cfg s n := by
  refine Backed.of_peers hI.enrolled hn (b := s.rpcs.length) (fun k hk => ?_) hmaj
  obtain ⟨⟨r, hr, ho⟩, hle⟩ := hK k hk
  obtain ⟨hq, hb, hresps⟩ := hfresh k r hr hle
  have hiss := hIt.rpc k r hr
  refine ⟨hle, r.dst, hq, ho.covers (ho.src ▸ hiss.formed) hresps (hb ▸ hbody) (hrest _ ?_)⟩
  exact ho.src ▸ hiss.ne

section Step

variable (h : Hung cfg M s) (hI : Requested cfg s) (hIt : Requested cfg t) (hn : s.node p = some n)
  (hback : ∀ {x m k}, Open t x m k → k < s.rpcs.length → Open s x m k)
  (hrest : ∀ q, q ≠ p → t.node q = s.node q)
include h hI hIt hn hback hrest

/-- A candidate that polls goes on waiting for its votes; a follower is not backed. -/
theorem Hung.short_polls
    (hfresh : Fresh s t n (.preVote n.currentTerm (n.preVoteRound + 1) n.pollRequest)) :
    ¬ Decides t p n.polling.node := by
  rintro ⟨hcount, K, hK, hM⟩
  have hnew : ∀ k ∈ K, s.rpcs.length ≤ k ∨ Open s p n.polling.node k := fun k hk =>
    (Nat.lt_or_ge k s.rpcs.length).symm.imp_right (hback (hK k hk))
  cases hrole : n.role with
  | leader => exact h.unled p n hn hrole
  | candidate =>
    have hcand : ∀ body : Body, body.Asks n.polling.node → body.Asks n := by
      intro body ha
      cases body with
      | preVote => exact absurd (hrole.symm.trans ha.1) (by decide)
      | vote => exact ha
      | replicate | heartbeat | snapshot => exact ha.elim
    have hcount' : n.polling.node.count = n.count := by
      rw [Node.count, Node.count, if_pos hrole, if_pos (by exact hrole)]
      rfl
    refine h.short p n hn (by simp [hrole])
      ⟨hcount' ▸ hcount, K, fun k hk => ?_, hcount' ▸ hM⟩
    rcases hnew k hk with hle | ho
    · obtain ⟨r, hr, ho⟩ := hK k hk
      have ha := ho.asks
      rw [(hfresh k r hr hle).2.1] at ha
      exact absurd (hrole.symm.trans ha.1) (by decide)
    · exact ho.congr hcand rfl
  | follower =>
    have hcount' : n.polling.node.count = 1 := if_neg (by simp [Node.polling, hrole])
    have hb := backed_of_fresh hI hIt hn hrest hfresh (.inr ⟨_, _, rfl⟩) (K := K)
      (fun k hk => ⟨hK k hk, (hnew k hk).resolve_right fun ho =>
        absurd ((ho.past hI hn).2 hrole) (Nat.not_succ_le_self _)⟩) (hcount' ▸ hM)
    exact absurd (hrole.symm.trans (h.held p n hn hb).1) (by decide)

/-- The node that acts does not decide its poll or its election either. -/
theorem Hung.short_step (hel : Election M s t p n a m)
    (hterm : m.role = .follower → m.currentTerm = M)
    (hused : ∀ k j io, a = .respond k j io → ∀ x, ¬ Open t p x k) : ¬ Decides t p m := by
  rintro ⟨hcount, K, hK, hM⟩
  have hold : NoneFresh s t → ∀ k ∈ K, Open s p m k := by
    intro hnone k hk
    obtain ⟨r, hr, ho⟩ := hK k hk
    exact hback ⟨r, hr, ho⟩ ((List.getElem?_eq_some_iff.mp hr).1.trans_le hnone)
  cases hel with
  | votes _ hnone =>
    exact h.short p n hn hterm
      ⟨hcount, K, fun k hk => (hold hnone k hk).congr (fun _ ha => ha) rfl, hM⟩
  | follows hlt hT hnone =>
    have hKe : K = ∅ := Finset.eq_empty_of_forall_notMem fun k hk =>
      not_lt.mpr ((hold hnone k hk).past hI hn).1 hlt
    rw [hKe, Finset.card_empty] at hM
    omega
  | polls hfresh => exact h.short_polls hI hIt hn hback hrest hfresh ⟨hcount, K, hK, hM⟩
  | @counts k j c v io ha hopen hone hnone =>
    rw [hone] at hcount hM
    have hk : k ∉ K := fun hk => hused k j io ha _ (hK k hk)
    refine h.short p n hn hterm ⟨Nat.lt_of_succ_lt hcount, insert k K, fun i hi => ?_, ?_⟩
    · rcases Finset.mem_insert.mp hi with rfl | hi
      · exact hopen
      · exact (hold hnone i hi).congr (fun _ ha => ha) rfl
    · rw [Finset.card_insert_of_notMem hk]
      exact hM.trans_eq (by omega)
  | stands hrole _ hfresh =>
    have hb := backed_of_fresh hI hIt hn hrest hfresh (.inl rfl) (K := K)
      (fun k hk => ⟨hK k hk, not_lt.mp fun hlt =>
        absurd ((hback (hK k hk) hlt).past hI hn).1 (Nat.not_succ_le_self _)⟩) hM
    exact absurd (hrole.symm.trans (h.held p n hn hb).1) (by decide)

end Step

theorem Election.role (h : Election M s t p n a m) (hlow : n.currentTerm ≤ M)
    (hl : n.role ≠ .leader) : m.currentTerm ≤ M ∧ m.role ≠ .leader ∧
      (n.role = .candidate ∧ n.currentTerm = M → m.role = .candidate ∧ m.currentTerm = M) := by
  cases h with
  | follows hlt hT _ => exact ⟨hT, nofun, fun hm => by omega⟩
  | stands hrole hlt _ => exact ⟨hlt, nofun, fun hm => by omega⟩
  | votes _ _ | polls _ | counts _ _ _ _ => exact ⟨hlow, hl, id⟩

/-- Only polls, and votes in terms that are not above the highest, are asked for. -/
theorem Election.sent (h : Election M s t p n a m) (hr : t.rpcs[k]? = some r)
    (hle : s.rpcs.length ≤ k) : (∃ term round req, r.body = .preVote term round req) ∨
      ∃ req, r.body = .vote req ∧ req.term ≤ M := by
  have hnone : ¬ NoneFresh s t := fun hnone =>
    absurd ((List.getElem?_eq_some_iff.mp hr).1.trans_le hnone) (not_lt.mpr hle)
  cases h with
  | polls hfresh => exact .inl ⟨_, _, _, (hfresh k r hr hle).2.1⟩
  | stands _ hlt hfresh => exact .inr ⟨_, (hfresh k r hr hle).2.1, hlt⟩
  | votes _ hno | follows _ _ hno | counts _ _ _ hno => exact absurd hno hnone

theorem Hung.asked_step (h : Hung cfg M s) (hn : s.node p = some n)
    (hsec : Section cfg s n a p io e t) (hel : Election M s t p n a m) {req : RequestVoteRequest}
    (hr : t.rpcs[k]? = some r) (hb : r.body = .vote req) : req.term ≤ M := by
  cases hsec.origin hn hr with
  | old r₀ hr₀ hsame _ => exact h.asked k r₀ req hr₀ (hsame.body ▸ hb)
  | answered r₀ _ _ hr₀ hsame _ _ _ _ => exact h.asked k r₀ req hr₀ (hsame.body ▸ hb)
  | sent _ _ hle _ _ _ =>
    rcases hel.sent hr hle with ⟨_, _, _, hp⟩ | ⟨req', hv, hM⟩
    · cases hp.symm.trans hb
    · obtain rfl := Body.vote.inj (hv.symm.trans hb)
      exact hM

/-- An answer carries the term that its sender has then. -/
theorem Hung.told_step (h : Hung cfg M s) (hn : s.node p = some n)
    (hsec : Section cfg s n a p io e t) (hlow : e.node.currentTerm ≤ M) {resp : Response}
    (hr : t.rpcs[k]? = some r) (hun : r.handled = false)
    (hep : (t.servers r.src).epoch = r.epoch) (hresp : resp ∈ r.resps) : resp.term ≤ M := by
  have hold : ∀ r₀, s.rpcs[k]? = some r₀ → r₀.Same r → resp ∈ r₀.resps → resp.term ≤ M := by
    intro r₀ hr₀ hsame hmem
    refine h.told k r₀ resp hr₀ (hsame.unhandled hun) ?_ hmem
    rw [← hsec.epoch, ← hsame.src, hep, hsame.epoch]
  cases hsec.origin hn hr with
  | old r₀ hr₀ hsame hresps => exact hold r₀ hr₀ hsame (hresps ▸ hresp)
  | answered r₀ recent m hr₀ hsame ha _ hm hresps =>
    rw [hresps, List.mem_append, List.mem_singleton] at hresp
    rcases hresp with hresp | rfl
    · exact hold r₀ hr₀ hsame hresp
    · subst ha
      cases hsec with
      | deliver hr₁ =>
        obtain rfl := Option.mem_unique hr₀ hr₁
        obtain rfl := Option.mem_unique hn hm
        rw [handle_answer]
        exact hlow
  | sent _ _ _ _ _ hnew =>
    subst hnew
    cases hresp

/-- The requests of the other nodes were there before. -/
theorem Open.old (hn : s.node p = some n) (hsec : Section cfg s n a p io e t) (hq : q ≠ p)
    (h : Open t q m k) : k < s.rpcs.length := by
  obtain ⟨r, hr, ho⟩ := h
  cases hsec.origin hn hr with
  | old _ hr₀ _ _ => exact (List.getElem?_eq_some_iff.mp hr₀).1
  | answered _ _ _ hr₀ _ _ _ _ _ => exact (List.getElem?_eq_some_iff.mp hr₀).1
  | sent _ _ _ _ _ hnew =>
    subst hnew
    exact absurd ho.src.symm hq

theorem Hung.step (h : Hung cfg M s) (hI : Requested cfg s)
    (ha : a.Electoral ∧ a.Reliable ∧ a.Unled s) (hs : KMC.step cfg s a = some t) :
    Hung cfg M t := by
  rcases step_cases hs with ⟨p, io, n, e, hn, hsec⟩ | ⟨p, srv, hch, -⟩
  swap
  · exact absurd ha.1 hch.not_electoral
  obtain ⟨hc, hel⟩ := h.section hI ha hn hsec
  have hy := hel.yields
  have hself := hsec.acted hc
  have hrest : ∀ q, q ≠ p → t.node q = s.node q := fun q hq =>
    congrArg Server.proc (hsec.other hq)
  obtain ⟨hlow, hlead, hstay⟩ := hel.role (h.low p n hn) (h.unled p n hn)
  have hcases : ∀ {I : ℕ → Node → Prop}, I p e.node →
      (∀ q m, q ≠ p → s.node q = some m → I q m) → ∀ q m, t.node q = some m → I q m := by
    intro I hp hq q m hm
    by_cases hqp : q = p
    · subst hqp
      exact Option.mem_unique hself hm ▸ hp
    · exact hq q m hqp ((hrest q hqp).symm.trans hm)
  have hlogs : ∀ q m, s.node q = some m → ∃ m', t.node q = some m' ∧ m.log = m'.log := by
    intro q m hm
    by_cases hqp : q = p
    · subst hqp
      obtain rfl := Option.mem_unique hn hm
      exact ⟨_, hself, hy.log.symm⟩
    · exact ⟨m, (hrest q hqp).trans hm, rfl⟩
  have hback : ∀ {x m k}, Open t x m k → k < s.rpcs.length → Open s x m k :=
    Open.back hI hn hsec hc hy
  exact {
    crowd := h.crowd
    low := hcases hlow fun q m _ hm => h.low q m hm
    unled := hcases hlead fun q m _ hm => h.unled q m hm
    held := hcases (fun hb => hstay (h.held p n hn (hb.congr hy.log.symm hlogs)))
      fun q m _ hm hb => h.held q m hm (hb.congr rfl hlogs)
    short := by
      refine hcases (fun hterm => ?_) fun q m hqp hm hterm => ?_
      · refine h.short_step hI (hI.step hs) hn hback hrest hel hterm ?_
        rintro k j io' rfl x ⟨r, hr, ho⟩
        obtain rfl := hsec.io_eq
        have := ho.fresh
        rw [hsec.respond_handled hr] at this
        cases this
      · rintro ⟨hcount, K, hK, hM⟩
        exact h.short q m hm hterm
          ⟨hcount, K, fun k hk => hback (hK k hk) ((hK k hk).old hn hsec hqp), hM⟩
    asked := fun _ _ _ hr hb => h.asked_step hn hsec hel hr hb
    told := fun _ _ _ hr hun hep hresp => h.told_step hn hsec hlow hr hun hep hresp }

/-! ## The exact condition -/

theorem Hung.reaches (h : Hung cfg M s) (hI : Requested cfg s) (hst : Leadsto cfg s t) :
    Hung cfg M t := by
  refine (hst.invariant (I := fun s => Hung cfg M s ∧ Requested cfg s) ?_ ⟨h, hI⟩).1
  rintro s a t ⟨h, hI⟩ ha hs
  exact ⟨h.step hI ha hs, hI.step hs⟩

/-- No message of a former leader would be accepted. -/
def Outdated (s : State) : Prop :=
  ∀ (k : ℕ) (r : Rpc) m x, s.rpcs[k]? = some r → s.node r.dst = some m → x ∈ r.body.leader →
    x.1 < m.currentTerm

theorem Outdated.unled (h : Outdated s) (a : Action) : a.Unled s := by
  cases a with
  | deliver k => exact fun r hr m hm x hx => h k r m x hr hm hx
  | _ => trivial

theorem Outdated.step (ho : Outdated s) (h : Hung cfg M s) (hI : Requested cfg s)
    (hel : a.Electoral) (hrel : a.Reliable) (hs : KMC.step cfg s a = some t) : Outdated t := by
  rcases step_cases hs with ⟨p, io, n, e, hn, hsec⟩ | ⟨p, srv, hch, -⟩
  swap
  · exact absurd hel hch.not_electoral
  obtain ⟨hc, helect⟩ := h.section hI ⟨hel, hrel, ho.unled a⟩ hn hsec
  intro k r' m x hr' hm hx
  have hold : ∀ r, s.rpcs[k]? = some r → r.Same r' → x.1 < m.currentTerm := by
    intro r hr hsame
    rw [hsame.dst] at hm
    rw [hsame.body] at hx
    by_cases hd : r.dst = p
    · rw [hd, hsec.acted hc] at hm
      obtain rfl := Option.some.inj hm
      exact (ho k r n x hr (hd ▸ hn) hx).trans_le hsec.term_le
    · rw [State.node, hsec.other hd] at hm
      exact ho k r m x hr hm hx
  cases hsec.origin hn hr' with
  | old r hr hsame _ => exact hold r hr hsame
  | answered r _ _ hr hsame _ _ _ _ => exact hold r hr hsame
  | sent _ _ hle _ _ _ =>
    rcases helect.sent hr' hle with ⟨_, _, _, hb⟩ | ⟨_, hb, -⟩ <;> rw [hb] at hx <;> cases hx

/-- Then every run of an election from a hung state is one without a leader's messages. -/
theorem Outdated.leadsto (ho : Outdated s) (h : Hung cfg M s) (hI : Requested cfg s)
    (hst : Reaches (KMC.step cfg) (fun _ a => a.Electoral ∧ a.Reliable) s t) :
    Leadsto cfg s t := by
  refine (hst.invariant (I := fun t => Leadsto cfg s t ∧ Outdated t ∧ Hung cfg M t ∧
    Requested cfg t) ?_ ⟨.refl s, ho, h, hI⟩).1
  rintro t a u ⟨hst, ho, h, hI⟩ ⟨hel, hrel⟩ hs
  have ha : a.Electoral ∧ a.Reliable ∧ a.Unled t := ⟨hel, hrel, ho.unled a⟩
  exact ⟨hst.snoc hs ha, ho.step h hI hel hrel hs, h.step hI ha hs, hI.step hs⟩

/-- From a state in which all nodes are running, a leader can come about by timeouts, deliveries and
answers, without a former leader's message being accepted, if and only if the state is electable;
where no such message would be accepted, that is all there is. A backed node that is not a candidate
in the highest term can itself be elected, in a higher term. -/
theorem leader_electable (cfg : Config)
    (hs : Reaches (step cfg) (fun _ _ => True) cfg.init s) (hup : AllUp cfg s) :
    (Electable cfg s ↔ ∃ t q m, Leadsto cfg s t ∧ t.node q = some m ∧ m.role = .leader) ∧
    (Outdated s → (Electable cfg s ↔ ∃ t q m,
      Reaches (step cfg) (fun _ a => a.Electoral ∧ a.Reliable) s t ∧ t.node q = some m ∧
      m.role = .leader)) ∧
    ∀ p n, s.node p = some n → Backed cfg s n → n.role ≠ .leader →
      (n.role = .candidate → ¬ s.Top n.currentTerm) →
      ∃ t m, Leadsto cfg s t ∧ t.node p = some m ∧ m.role = .leader ∧
        n.currentTerm < m.currentTerm := by
  have hI := (requested_init cfg).reaches hs
  have hreach := fun h : Electable cfg s => h.reachesLeader hI hup
  -- what is not electable is hung, and stays so
  have hback : ∀ {t q m}, (∀ M, Hung cfg M s → Leadsto cfg s t) → t.node q = some m →
      m.role = .leader → Electable cfg s := by
    intro t q m hst hm hl
    by_contra hno
    obtain ⟨M, hM⟩ := hung_of_not_electable hI hup hno
    exact (hM.reaches hI (hst M hM)).unled q m hm hl
  refine ⟨⟨hreach, ?_⟩, fun ho => ⟨fun h => ?_, ?_⟩, fun p n hn hb hl hfree => ?_⟩
  · rintro ⟨t, q, m, hst, hm, hl⟩
    exact hback (fun _ _ => hst) hm hl
  · obtain ⟨t, q, m, ⟨acts, hrun⟩, hm, hl⟩ := hreach h
    exact ⟨t, q, m, ⟨acts, hrun.imp fun _ _ ha => ⟨ha.1, ha.2.1⟩⟩, hm, hl⟩
  · rintro ⟨t, q, m, hst, hm, hl⟩
    exact hback (fun M hM => ho.leadsto hM hI hst) hm hl
  · refine elect_free hI hup hn hb hl fun hc => ?_
    have hhigher := hfree hc
    simp only [State.Top, not_forall, not_le] at hhigher
    obtain ⟨q, m, hm, hlt⟩ := hhigher
    exact ⟨q, m, hm, hlt⟩

/-- Node 1 of a pair, restarted with an entry that node 2 does not have, stands for election in
term 2; its request for a vote is under way. -/
def underWay : List Action :=
  electFirst ++ [.propose 1 [[7]] {}, .crash 1, .restart 1, .tick 1 {}, .deliver 2 false {},
    .respond 2 0 {}]

/-- A majority of two is both. -/
theorem Backed.pair (h : Backed .pair s n) (hp : p ∈ Config.pair.ids) (hm : s.node p = some m) :
    n.Covers m := by
  obtain ⟨S, hS, hmaj, hcov⟩ := h
  have htwo : 2 < 2 * S.card := hmaj
  have hall := Finset.eq_of_subset_of_card_le hS (show 2 ≤ S.card by omega)
  exact hcov p (hall ▸ List.mem_toFinset.mpr hp) m hm

/-- A candidate in the highest term, alone with the best log, can win the election under way; after
a split vote nobody can. -/
theorem leader_electable_pending : (∃ s t n q m,
    Reaches (step .pair) (fun _ _ => True) Config.pair.init s ∧ AllUp .pair s ∧
    s.node 1 = some n ∧ n.role = .candidate ∧ s.Top n.currentTerm ∧
    (∀ n, s.node 2 = some n → ¬ Backed .pair s n) ∧ Leadsto .pair s t ∧ t.node q = some m ∧
    m.role = .leader) ∧
    ∃ s, Reaches (step .pair) (fun _ _ => True) Config.pair.init s ∧ AllUp .pair s ∧
      Outdated s ∧ ¬ Electable .pair s := by
  have hs := Reaches.of_exec (step .pair) (fun _ _ => True) Config.pair.init underWay
    (.of_forall (fun _ _ _ => trivial) _) rfl
  have hs' := Reaches.of_exec (step .pair) (fun _ _ => True) Config.pair.init splitVote
    (.of_forall (fun _ _ _ => trivial) _) rfl
  have hen := (enrolled_init .pair).reaches hs
  have hup : AllUp .pair ((exec (step .pair) Config.pair.init underWay).get rfl) :=
    allUp_pair rfl rfl rfl rfl
  have hup' : AllUp .pair ((exec (step .pair) Config.pair.init splitVote).get rfl) :=
    allUp_pair rfl rfl rfl rfl
  have hstuck : Stuck 1 ((exec (step .pair) Config.pair.init splitVote).get rfl) :=
    splitVote_stuck (Option.some_get _).symm
  -- the vote of node 2 is all that is missing, and it would grant it
  obtain ⟨n, n₂, hn, hn₂, hcand, hterm, hterm₂, hlog, hlt, hcard, hopen⟩ : ∃ n n₂,
      ((exec (step .pair) Config.pair.init underWay).get rfl).node 1 = some n ∧
      ((exec (step .pair) Config.pair.init underWay).get rfl).node 2 = some n₂ ∧
      n.role = .candidate ∧ n.currentTerm = 2 ∧ n₂.currentTerm = 1 ∧
      n.upToDate n₂.pollRequest = false ∧ n.count < n.majority ∧
      n.majority ≤ n.count + ({3} : Finset ℕ).card ∧
      Open ((exec (step .pair) Config.pair.init underWay).get rfl) 1 n 3 :=
    ⟨_, _, rfl, rfl, rfl, rfl, rfl, rfl, by decide, by decide,
      _, rfl, rfl, rfl, rfl, ⟨rfl, rfl⟩, .inr ⟨_, rfl, 2, le_rfl, rfl⟩⟩
  have hdec : Decides _ 1 n := ⟨hlt, {3}, by simpa using hopen, hcard⟩
  obtain ⟨t, q, m, hst, hm, hl⟩ := (leader_electable .pair hs hup).1.mp (.wins hn hcand hdec)
  refine ⟨⟨_, t, n, q, m, hs, hup, hn, hcand, fun x m hm => ?_, fun m hm hb => ?_, hst, hm, hl⟩,
    _, hs', hup', fun k r m x hr _ hx => ?_, fun hel => ?_⟩
  · rcases Config.mem_pair (hen x m hm).1 with rfl | rfl
    · rw [Option.mem_unique hn hm]
    · rw [← Option.mem_unique hn₂ hm, hterm, hterm₂]
      exact Nat.le_succ 1
  · obtain rfl := Option.mem_unique hn₂ hm
    exact Bool.false_ne_true (hlog.symm.trans (hb.pair (by decide) hn))
  · rcases hstuck.rpc k r hr with ⟨hb, _, _⟩ | ⟨hb, _, _, _, _⟩ <;> rw [hb] at hx <;> cases hx
  · obtain ⟨t, q, m, hst, hm, hl⟩ := (leader_electable .pair hs' hup').1.mp hel
    have hstuck := (hst.invariant (fun _ _ _ hI ha hstep => hI.step ha.1 hstep) hstuck).node q m hm
    exact absurd (hl.symm.trans hstuck.role) (by decide)

end KMC
