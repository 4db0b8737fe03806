import KillMyCluster.Election.Safety
import KillMyCluster.Election.Requests
import Mathlib.Data.Finset.Card

/-! No term without a poll. In a cluster of two or more nodes every term above 0, wherever it
shows up, goes back to a node that stood for election in it, and that node had used up, in one
poll in the term before, the grants of enough peers to make a majority with itself. This holds
whatever the disks do. -/

namespace KMC

open Trace

/-! ## Polls of a run -/

/-- RPC `k` asks `q` for its pre-vote in poll `round` at `term`, on behalf of the process `epoch` of
server `p`; the process is still in that poll, and answer `j` is a grant it has not used. -/
structure Grant (u : State) (k j p epoch term round q : ℕ) : Prop where
  rpc : ∃ r req resp, u.rpcs[k]? = some r ∧ r.src = p ∧ r.dst = q ∧ r.epoch = epoch ∧
    r.handled = false ∧ r.body = .preVote term round req ∧ req.preVote = true ∧
    req.term = term + 1 ∧ r.resps[j]? = some (.vote resp) ∧ resp.voteGranted = true
  node : ∃ n, u.node p = some n ∧ (u.servers p).epoch = epoch ∧ n.currentTerm = term ∧
    n.preVoteRound = round

def Granted (cfg : Config) (acts : List Action) (p epoch term round q : ℕ) : Prop :=
  ∃ before k j io after u, acts = before ++ .respond k j io :: after ∧
    exec (step cfg) cfg.init before = some u ∧ Grant u k j p epoch term round q

/-- In the course of `acts` some node `p` stood for election in term `T`, with the grants of a set
`S` of peers, used in one poll in the term before, that makes a majority with itself. -/
def Started (cfg : Config) (acts : List Action) (T : ℕ) : Prop :=
  ∃ before k j io after u p n e t, acts = before ++ .respond k j io :: after ∧
    exec (step cfg) cfg.init before = some u ∧ u.node p = some n ∧ n.currentTerm + 1 = T ∧
    Section cfg u n (.respond k j io) p io e t ∧ e.node.currentTerm = T ∧
    e.calls = [.saveHardState T p] ∧
    ∃ S : Finset ℕ, S ⊆ (cfg.peers p).toFinset ∧ cfg.ids.length < 2 * (S.card + 1) ∧ ∀ q ∈ S,
      Granted cfg (before ++ [.respond k j io]) p (u.servers p).epoch n.currentTerm
        n.preVoteRound q

def Begun (cfg : Config) (acts : List Action) (T : ℕ) : Prop := 1 ≤ T → Started cfg acts T

variable {cfg : Config} {acts : List Action} {s t : State} {a : Action} {p epoch q k j : ℕ}
  {io : Io} {n m : Node} {e : Effect} {r r' : Rpc}

theorem Granted.append {term round : ℕ} (h : Granted cfg acts p epoch term round q)
    (more : List Action) : Granted cfg (acts ++ more) p epoch term round q := by
  obtain ⟨before, k, j, io, after, u, rfl, hrest⟩ := h
  exact ⟨before, k, j, io, after ++ more, u, by simp, hrest⟩

theorem Begun.append {T : ℕ} (h : Begun cfg acts T) (more : List Action) :
    Begun cfg (acts ++ more) T := by
  intro hT
  obtain ⟨before, k, j, io, after, u, p, n, e, t, rfl, hrest⟩ := h hT
  exact ⟨before, k, j, io, after ++ more, u, p, n, e, t, by simp, hrest⟩

/-! ## Terms on disk -/

section Disk

variable {d : Disk} {T v : ℕ} {c : Call}

theorem Call.hardTerm_of_record (h : Rec.hardState T v ∈ c.records) : c.hardTerm = some T := by
  cases c <;> simp_all [Call.records, Call.hardTerm]

theorem Disk.hardState_write (h : Rec.hardState T v ∈ (d.write k c).wal) :
    Rec.hardState T v ∈ d.wal ∨ c.hardTerm = some T :=
  (mem_write h).imp_right Call.hardTerm_of_record

theorem Disk.hardState_apply (h : Rec.hardState T v ∈ (io.apply d c).wal) :
    Rec.hardState T v ∈ d.wal ∨ c.hardTerm = some T := by
  unfold Io.apply at h
  split at h
  · exact hardState_write h
  · exact (mem_run h).imp_right Call.hardTerm_of_record

theorem Disk.hardState_calls {calls : List Call}
    (h : Rec.hardState T v ∈ (calls.foldl io.apply d).wal) :
    Rec.hardState T v ∈ d.wal ∨ ∃ c ∈ calls, c.hardTerm = some T := by
  induction calls generalizing d with
  | nil => exact .inl h
  | cons c calls ih =>
    rcases ih h with h | ⟨c', hc', hT⟩
    · rcases hardState_apply h with h | hT
      · exact .inl h
      · exact .inr ⟨c, List.mem_cons_self, hT⟩
    · exact .inr ⟨c', List.mem_cons_of_mem c hc', hT⟩

theorem PersistedState.replay_term (wal : List Rec) (st : PersistedState) :
    (wal.foldl PersistedState.replay st).term = st.term ∨
      ∃ v, Rec.hardState (wal.foldl PersistedState.replay st).term v ∈ wal := by
  induction wal generalizing st with
  | nil => exact .inl rfl
  | cons r wal ih =>
    rcases ih (st.replay r) with h | ⟨v, h⟩
    · rw [List.foldl_cons, h]
      cases r with
      | hardState t v => exact .inr ⟨v, List.mem_cons_self⟩
      | entry e => exact .inl rfl
      | truncate i => exact .inl rfl
    · exact .inr ⟨v, List.mem_cons_of_mem r h⟩

end Disk

/-! ## The count of a poll -/

/-- The process, poll and destination of a request for a pre-vote. -/
def Rpc.pollKey (r : Rpc) : Option (ℕ × ℕ × ℕ × ℕ) :=
  match r.body with
  | .preVote _ round _ => some (r.src, r.epoch, round, r.dst)
  | _ => none

theorem Rpc.pollKey_eq {round : ℕ} :
    r.pollKey = some (p, epoch, round, q) ↔ r.src = p ∧ r.epoch = epoch ∧ r.dst = q ∧
      ∃ term req, r.body = .preVote term round req := by
  unfold Rpc.pollKey
  split
  · rename_i term rd req hb
    simp only [Option.some.injEq, Prod.mk.injEq, hb, Body.preVote.injEq]
    constructor
    · rintro ⟨rfl, rfl, rfl, rfl⟩
      exact ⟨rfl, rfl, rfl, term, req, rfl, rfl, rfl⟩
    · rintro ⟨rfl, rfl, rfl, _, _, rfl, rfl, rfl⟩
      exact ⟨rfl, rfl, rfl, rfl⟩
  · rename_i hb
    simp only [reduceCtorEq, false_iff, not_and, not_exists]
    exact fun _ _ _ term req => hb term round req

theorem Rpc.pollKey_same (h : r.Same r') : r'.pollKey = r.pollKey := by
  unfold Rpc.pollKey
  rw [h.body, h.src, h.epoch, h.dst]

def PollCount (cfg : Config) (acts : List Action) (rpcs : List Rpc) (p epoch : ℕ) (n : Node) :
    Prop :=
  ∃ (term : ℕ) (S : Finset ℕ), S ⊆ (cfg.peers p).toFinset ∧ n.preVotes ≤ S.card + 1 ∧
    (∀ (k : ℕ) (r : Rpc) t req, rpcs[k]? = some r → r.src = p → r.epoch = epoch →
      r.body = .preVote t n.preVoteRound req → t = term) ∧
    ∀ q ∈ S, Granted cfg acts p epoch term n.preVoteRound q ∧
      ∀ (k : ℕ) (r : Rpc), rpcs[k]? = some r →
        r.pollKey = some (p, epoch, n.preVoteRound, q) → r.handled = true

/-- Nobody has been asked in this poll but by requests that were there before. -/
theorem PollCount.mono {rpcs rpcs' : List Rpc} (h : PollCount cfg acts rpcs p epoch n)
    (hr : m.preVoteRound = n.preVoteRound) (hv : m.preVotes = n.preVotes)
    (hold : ∀ (k : ℕ) (r' : Rpc) t req, rpcs'[k]? = some r' → r'.src = p → r'.epoch = epoch →
      r'.body = .preVote t n.preVoteRound req → ∃ r, rpcs[k]? = some r ∧ r.Same r')
    (more : List Action) : PollCount cfg (acts ++ more) rpcs' p epoch m := by
  obtain ⟨term, S, hS, hc, hterm, hgr⟩ := h
  refine ⟨term, S, hS, hv ▸ hc, fun k r' t req hr' h1 h2 h3 => ?_, fun q hq => ?_⟩
  · rw [hr] at h3
    obtain ⟨r, hr₀, hsame⟩ := hold k r' t req hr' h1 h2 h3
    exact hterm k r t req hr₀ (hsame.src ▸ h1) (hsame.epoch ▸ h2) (hsame.body ▸ h3)
  · rw [hr]
    refine ⟨(hgr q hq).1.append more, fun k r' hr' hk => ?_⟩
    obtain ⟨h1, h2, -, t, req, h3⟩ := Rpc.pollKey_eq.mp hk
    obtain ⟨r, hr₀, hsame⟩ := hold k r' t req hr' h1 h2 h3
    exact hsame.handled ((hgr q hq).2 k r hr₀ (Rpc.pollKey_same hsame ▸ hk))

/-- The counters are backed, and nobody is asked twice in a poll. -/
structure Canvass (cfg : Config) (acts : List Action) (s : State) : Prop where
  requested : Requested cfg s
  once : ∀ (k k' : ℕ) (r r' : Rpc) x, s.rpcs[k]? = some r → s.rpcs[k']? = some r' →
    r.pollKey = some x → r'.pollKey = some x → k = k'
  count : ∀ p n, s.node p = some n → PollCount cfg acts s.rpcs p (s.servers p).epoch n

theorem Config.majority_pos (h2 : 2 ≤ cfg.ids.length) (hp : p ∈ cfg.ids)
    (hn : n.peers = cfg.peers p) : 1 < n.majority := by
  have := cfg.length_peers hp
  rw [Node.majority, hn]
  omega

theorem Requested.majority (h : Requested cfg s) (h2 : 2 ≤ cfg.ids.length)
    (hn : s.node p = some n) : 1 < n.majority :=
  cfg.majority_pos h2 (h.enrolled p n hn).1 (h.enrolled.peers hn)

theorem Requested.isPoll (h : Requested cfg s) (k : ℕ) (r : Rpc) (term round : ℕ)
    (req : RequestVoteRequest) (hr : s.rpcs[k]? = some r)
    (hb : r.body = .preVote term round req) : req.preVote = true := by
  have hform := (h.rpc k r hr).formed
  rw [hb] at hform
  exact hform.1

theorem canvass_init (cfg : Config) : Canvass cfg [] cfg.init := by
  refine ⟨requested_init cfg, ?_, ?_⟩ <;> simp [Config.init, State.node]

/-- A step in which nobody is asked for a pre-vote. -/
theorem Canvass.frame (h : Canvass cfg acts s) (ht : Requested cfg t)
    (hold : ∀ (k : ℕ) (r' : Rpc), t.rpcs[k]? = some r' →
      (∃ r, s.rpcs[k]? = some r ∧ r.Same r') ∨ ∀ term round req, r'.body ≠ .preVote term round req)
    {more : List Action} (hcount : ∀ p m, t.node p = some m →
      PollCount cfg (acts ++ more) t.rpcs p (t.servers p).epoch m) :
    Canvass cfg (acts ++ more) t := by
  have hkey : ∀ (k : ℕ) (r' : Rpc) x, t.rpcs[k]? = some r' → r'.pollKey = some x →
      ∃ r, s.rpcs[k]? = some r ∧ r.Same r' := by
    rintro k r' ⟨_, _, _, _⟩ hr' hk
    obtain ⟨-, -, -, term, req, hb⟩ := Rpc.pollKey_eq.mp hk
    exact (hold k r' hr').resolve_right fun hno => hno _ _ _ hb
  refine ⟨ht, fun k k' r r' x hr hr' hx hx' => ?_, hcount⟩
  obtain ⟨r₀, hr₀, hsame⟩ := hkey k r x hr hx
  obtain ⟨r₁, hr₁, hsame'⟩ := hkey k' r' x hr' hx'
  exact h.once k k' r₀ r₁ x hr₀ hr₁ (Rpc.pollKey_same hsame ▸ hx) (Rpc.pollKey_same hsame' ▸ hx')

def Node.pollRpc (n : Node) (p epoch q : ℕ) : Rpc :=
  ⟨p, q, epoch, .preVote n.currentTerm (n.preVoteRound + 1) n.pollRequest, [], false⟩

theorem Node.pollRpc_key {E : ℕ} {x : ℕ × ℕ × ℕ × ℕ} (h : (n.pollRpc p E q).pollKey = some x) :
    x = (p, E, n.preVoteRound + 1, q) := (Option.some.inj h).symm

section Polling

variable (hc : io.crash = none)
include hc

theorem State.polling_self : (s.finish p io n.polling).servers p =
    { s.servers p with proc := some n.polling.node } := by
  simp [State.finish, hc, Node.polling]

theorem State.polling_other (hq : q ≠ p) : (s.finish p io n.polling).servers q = s.servers q := by
  simp [State.finish, hc, hq]

theorem State.polling_epoch (q : ℕ) :
    ((s.finish p io n.polling).servers q).epoch = (s.servers q).epoch := by
  by_cases hq : q = p
  · subst hq
    rw [State.polling_self hc]
  · rw [State.polling_other hc hq]

/-- A request is an old one or asks peer number `k - s.rpcs.length`. -/
theorem State.polling_rpc (hr : (s.finish p io n.polling).rpcs[k]? = some r) :
    s.rpcs[k]? = some r ∨ s.rpcs.length ≤ k ∧ ∃ q, n.peers[k - s.rpcs.length]? = some q ∧
      r = n.pollRpc p (s.servers p).epoch q := by
  have hrpcs : (s.finish p io n.polling).rpcs =
      s.rpcs ++ rpcsOf p (s.servers p).epoch n.polling.sends := by
    simp [State.finish, hc]
  rw [hrpcs] at hr
  rcases getElem_append_rpcs hr with hr | ⟨hle, q, body, hq, rfl⟩
  · exact .inl hr
  · simp only [Node.polling, List.getElem?_map, Option.map_eq_some_iff, Prod.mk.injEq] at hq
    obtain ⟨q, hq, rfl, rfl⟩ := hq
    exact .inr ⟨hle, q, hq, rfl⟩

end Polling

/-- Nobody has been asked in the next round yet. -/
theorem Canvass.next_round (h : Canvass cfg acts s) (hn : s.node p = some n)
    (hr : s.rpcs[k]? = some r) :
    r.pollKey ≠ some (p, (s.servers p).epoch, n.preVoteRound + 1, q) := by
  intro hk
  obtain ⟨h1, h2, -, term, req, h3⟩ := Rpc.pollKey_eq.mp hk
  subst h1
  have hpast := (h.requested.rpc k r hr).past n hn h2.symm
  rw [h3] at hpast
  exact absurd hpast.2 (Nat.not_succ_le_self _)

theorem Canvass.polls_once (h : Canvass cfg acts s) (hn : s.node p = some n) (hc : io.crash = none)
    {k' : ℕ} {x : ℕ × ℕ × ℕ × ℕ} (hr : (s.finish p io n.polling).rpcs[k]? = some r)
    (hr' : (s.finish p io n.polling).rpcs[k']? = some r') (hx : r.pollKey = some x)
    (hx' : r'.pollKey = some x) : k = k' := by
  rcases State.polling_rpc hc hr with hr | ⟨hk, q, hq, rfl⟩ <;>
    rcases State.polling_rpc hc hr' with hr' | ⟨hk', q', hq', rfl⟩
  · exact h.once k k' r r' x hr hr' hx hx'
  · exact absurd (Node.pollRpc_key hx' ▸ hx) (h.next_round hn hr)
  · exact absurd (Node.pollRpc_key hx ▸ hx') (h.next_round hn hr')
  · obtain rfl : q = q' := by
      have := (Node.pollRpc_key hx).symm.trans (Node.pollRpc_key hx')
      simp only [Prod.mk.injEq] at this
      exact this.2.2.2
    have hnd : n.peers.Nodup := h.requested.enrolled.peers hn ▸ cfg.nodup.filter _
    obtain ⟨h1, h1'⟩ := List.getElem?_eq_some_iff.mp hq
    obtain ⟨h2, h2'⟩ := List.getElem?_eq_some_iff.mp hq'
    have := hnd.getElem_inj_iff.mp (h1'.trans h2'.symm)
    omega

/-- The process of `p` opens a poll. -/
theorem Canvass.polls (h : Canvass cfg acts s) (hn : s.node p = some n) (hc : io.crash = none)
    (ht : Requested cfg (s.finish p io n.polling)) (more : List Action) :
    Canvass cfg (acts ++ more) (s.finish p io n.polling) := by
  refine ⟨ht, fun k k' r r' x hr hr' hx hx' => h.polls_once hn hc hr hr' hx hx', fun q m hm => ?_⟩
  rw [State.polling_epoch hc]
  by_cases hq : q = p
  · subst hq
    rw [State.node, State.polling_self hc] at hm
    obtain rfl := Option.some.inj hm
    refine ⟨n.currentTerm, ∅, by simp, le_rfl, fun k r t req hr h1 h2 hb => ?_, by simp⟩
    rcases State.polling_rpc hc hr with hr | ⟨-, q, -, rfl⟩
    · exact absurd (Rpc.pollKey_eq.mpr ⟨h1, h2, rfl, t, req, hb⟩) (h.next_round hn hr)
    · exact (Body.preVote.inj hb).1.symm
  · rw [State.node, State.polling_other hc hq] at hm
    refine (h.count q m hm).mono rfl rfl (fun k r t req hr h1 _ _ => ?_) more
    rcases State.polling_rpc hc hr with hr | ⟨-, q', -, rfl⟩
    · exact ⟨r, hr, .refl r⟩
    · exact absurd h1.symm hq

/-- A grant counts for one more peer. -/
theorem PollCount.count (h : Canvass cfg acts s) (hexec : exec (step cfg) cfg.init acts = some s)
    (hn : s.node p = some n) {req : RequestVoteRequest} {resp : RequestVoteResponse}
    (hr : s.rpcs[k]? = some r) (hsrc : r.src = p) (hep : r.epoch = (s.servers p).epoch)
    (hun : r.handled = false) (hb : r.body = .preVote n.currentTerm n.preVoteRound req)
    (hresp : r.resps[j]? = some (.vote resp)) (hg : resp.voteGranted = true) (io : Io) :
    ∃ S : Finset ℕ, S ⊆ (cfg.peers p).toFinset ∧ n.preVotes ≤ S.card ∧
      (∀ (k : ℕ) (r : Rpc) t req, s.rpcs[k]? = some r → r.src = p →
        r.epoch = (s.servers p).epoch → r.body = .preVote t n.preVoteRound req →
        t = n.currentTerm) ∧
      ∀ q ∈ S, Granted cfg (acts ++ [.respond k j io]) p (s.servers p).epoch n.currentTerm
          n.preVoteRound q ∧
        ∀ (i : ℕ) (r' : Rpc), i ≠ k → s.rpcs[i]? = some r' →
          r'.pollKey = some (p, (s.servers p).epoch, n.preVoteRound, q) → r'.handled = true := by
  obtain ⟨term, S, hS, hc, hterm, hgr⟩ := h.count p n hn
  obtain rfl : n.currentTerm = term := hterm k r _ req hr hsrc hep hb
  have hiss := h.requested.rpc k r hr
  obtain ⟨hpv, hreq⟩ : req.preVote = true ∧ req.term = n.currentTerm + 1 := by
    have hform := hiss.formed
    rwa [hb] at hform
  have hkey : r.pollKey = some (p, (s.servers p).epoch, n.preVoteRound, r.dst) :=
    Rpc.pollKey_eq.mpr ⟨hsrc, hep, rfl, _, req, hb⟩
  have hnot : r.dst ∉ S := by
    intro hm
    have := (hgr _ hm).2 k r hr hkey
    rw [hun] at this
    cases this
  have hgrant : Granted cfg (acts ++ [.respond k j io]) p (s.servers p).epoch n.currentTerm
      n.preVoteRound r.dst :=
    ⟨acts, k, j, io, [], s, rfl, hexec,
      ⟨r, req, resp, hr, hsrc, rfl, hep, hun, hb, hpv, hreq, hresp, hg⟩, n, hn, rfl, rfl, rfl⟩
  refine ⟨insert r.dst S, ?_, ?_, hterm, fun q hq => ?_⟩
  · refine Finset.insert_subset ?_ hS
    rw [List.mem_toFinset, ← hsrc]
    exact hiss.dst
  · rw [Finset.card_insert_of_notMem hnot]
    omega
  · rcases Finset.mem_insert.mp hq with rfl | hq
    · exact ⟨hgrant, fun i r' hne hr' hk =>
        absurd (h.once i k r' r _ hr' hr hk hkey) hne⟩
    · exact ⟨(hgr q hq).1.append _, fun i r' _ hr' hk => (hgr q hq).2 i r' hr' hk⟩

theorem Body.ne_preVote {body : Body} {T : ℕ} (h : body.realTerm = some T) (term round : ℕ)
    (req : RequestVoteRequest) : body ≠ .preVote term round req := by
  rintro rfl
  cases h

/-- Where the requests come from in a section that asks for no pre-vote. -/
theorem Section.quiet_rpcs (h : Section cfg s n a p io e t) (hn : s.node p = some n)
    (hsends : io.crash = none → ∀ q body, (q, body) ∈ e.sends → ∃ T, body.realTerm = some T)
    (k : ℕ) (r' : Rpc) (hr' : t.rpcs[k]? = some r') : (∃ r, s.rpcs[k]? = some r ∧ r.Same r') ∨
      ∀ term round req, r'.body ≠ .preVote term round req := by
  cases h.origin hn hr' with
  | old r hr hsame _ => exact .inl ⟨r, hr, hsame⟩
  | answered r _ _ hr hsame _ _ _ _ => exact .inl ⟨r, hr, hsame⟩
  | sent q body _ hm hc he =>
    subst he
    obtain ⟨T, hT⟩ := hsends hc q body hm
    exact .inr fun _ _ _ => Body.ne_preVote hT _ _ _

/-- An answer is used once. -/
theorem Section.respond_handled (h : Section cfg s n (.respond k j io) p io e t)
    (hr' : t.rpcs[k]? = some r') : r'.handled = true := by
  cases h with
  | respond hr _ _ _ _ =>
    have hk := (List.getElem?_eq_some_iff.mp hr).1
    rcases State.finish_rpcs hr' with hr' | ⟨hle, -⟩
    · obtain ⟨r₀, -, rfl⟩ := getElem_modify_rpcs hr'
      rw [if_pos rfl]
    · simp only [State.markHandled, List.length_modify] at hle
      omega

/-- The counters after a section, given that of the process it runs in. -/
theorem Canvass.section (h : Canvass cfg acts s) (ht : Requested cfg t) (hn : s.node p = some n)
    (hsec : Section cfg s n a p io e t) {more : List Action}
    (hsends : io.crash = none → ∀ q body, (q, body) ∈ e.sends → ∃ T, body.realTerm = some T)
    (hpoll : io.crash = none →
      PollCount cfg (acts ++ more) t.rpcs p (s.servers p).epoch e.node) :
    Canvass cfg (acts ++ more) t := by
  have hold := hsec.quiet_rpcs hn hsends
  refine h.frame ht hold fun q m hm => ?_
  by_cases hq : q = p
  · subst hq
    rcases hsec.server with ⟨hc, hsrv⟩ | ⟨_, _, -, hsrv⟩
    · rw [State.node, hsrv] at hm
      obtain rfl := Option.some.inj hm
      rw [hsrv]
      exact hpoll hc
    · rw [State.node, hsrv] at hm
      cases hm
  · have hother := hsec.other hq
    rw [State.node, hother] at hm
    rw [hother]
    refine (h.count q m hm).mono rfl rfl (fun k r' t req hr' _ _ hb => ?_) more
    exact (hold k r' hr').resolve_right fun hno => hno _ _ _ hb

theorem Canvass.step (h2 : 2 ≤ cfg.ids.length) (h : Canvass cfg acts s)
    (hexec : exec (step cfg) cfg.init acts = some s) (hs : KMC.step cfg s a = some t) :
    Canvass cfg (acts ++ [a]) t := by
  have ht := h.requested.step hs
  rcases step_cases hs with ⟨p, io, n, e, hn, hsec⟩ | ⟨p, srv, hch, rfl⟩
  · cases hsec.terms (h.requested.majority h2 hn) h.requested.isPoll with
    | hears hh _ =>
      have hpl := hh.poll
      simp only [Node.poll, Prod.mk.injEq] at hpl
      have hsends : io.crash = none → ∀ q body, (q, body) ∈ e.sends → ∃ T, body.realTerm = some T :=
        fun _ q body hb => ⟨_, hh.sends q body hb⟩
      refine h.section ht hn hsec hsends fun _ => ?_
      refine (h.count p n hn).mono hpl.2.2.1 hpl.2.2.2 (fun k r' t req hr' _ _ hb => ?_) _
      exact (hsec.quiet_rpcs hn hsends k r' hr').resolve_right fun hno => hno _ _ _ hb
    | polls =>
      cases hc : io.crash with
      | none =>
        cases hsec with
        | tick _ => exact h.polls hn hc ht _
      | some kr =>
        have hdead : io.crash ≠ none := by simp [hc]
        exact h.section ht hn hsec (fun hno => absurd hno hdead) fun hno => absurd hno hdead
    | @counts k j _ r req resp _ hr hsrc hep hun hb hresp hg he =>
      obtain rfl := hsec.io_eq
      obtain ⟨S, hS, hc, hterm, hgr⟩ :=
        PollCount.count h hexec hn hr hsrc hep hun hb hresp hg io
      have hsends : ∀ q body, (q, body) ∈ e.sends → ∃ T, body.realTerm = some T := by
        rcases he with ⟨-, rfl⟩ | ⟨-, rfl⟩
        · simp
        · exact fun q body hb => ⟨_, (Node.startElection_stands _).sends q body hb⟩
      have hpl : e.node.poll = (n.id, n.peers, n.preVoteRound, n.preVotes + 1) := by
        rcases he with ⟨-, rfl⟩ | ⟨-, rfl⟩
        · rfl
        · exact (Node.startElection_stands _).poll
      simp only [Node.poll, Prod.mk.injEq] at hpl
      have hold := hsec.quiet_rpcs hn fun _ => hsends
      have hback : ∀ (i : ℕ) (r' : Rpc) t req, _ → r'.body = .preVote t n.preVoteRound req →
          ∃ r, s.rpcs[i]? = some r ∧ r.Same r' := fun i r' t req hr' hb =>
        (hold i r' hr').resolve_right fun hno => hno _ _ _ hb
      refine h.section ht hn hsec (fun _ => hsends) fun _ => ⟨n.currentTerm, S, hS, by omega,
        fun i r' t req hr' h1 h2 hb => ?_, fun q hq => ?_⟩
      · rw [hpl.2.2.1] at hb
        obtain ⟨r₀, hr₀, hsame⟩ := hback i r' t req hr' hb
        exact hterm i r₀ t req hr₀ (hsame.src ▸ h1) (hsame.epoch ▸ h2) (hsame.body ▸ hb)
      · rw [hpl.2.2.1]
        refine ⟨(hgr q hq).1, fun i r' hr' hk => ?_⟩
        by_cases hi : i = k
        · subst hi
          exact hsec.respond_handled hr'
        · obtain ⟨-, -, -, t, req, hb⟩ := Rpc.pollKey_eq.mp hk
          obtain ⟨r₀, hr₀, hsame⟩ := hback i r' t req hr' hb
          exact hsame.handled ((hgr q hq).2 i r₀ hi hr₀ (Rpc.pollKey_same hsame ▸ hk))
  · refine h.frame ht (fun k r' hr' => .inl ⟨r', hr', .refl r'⟩) fun q m hm => ?_
    by_cases hq : q = p
    · subst hq
      have hsrv : (s.setServer q srv).servers q = srv := by simp [State.setServer]
      rw [State.node, hsrv] at hm
      rw [hsrv]
      obtain ⟨n, hn, hep, _, _, _, rfl⟩ | ⟨hp, -, hep, rfl⟩ := hch.proc hm
      · rw [hep]
        exact (h.count q n hn).mono rfl rfl (fun k r' _ _ hr' _ _ _ => ⟨r', hr', .refl r'⟩) _
      · -- a process that has just started has made no requests
        refine ⟨0, ∅, by simp, Nat.zero_le _, fun k r t req hr h1 h2 _ => ?_, by simp⟩
        have hle := (h.requested.rpc k r hr).epoch
        rw [h1, h2, hep] at hle
        exact absurd hle (Nat.not_succ_le_self _)
    · have hsrv : (s.setServer p srv).servers q = s.servers q := by simp [State.setServer, hq]
      rw [State.node, hsrv] at hm
      rw [hsrv]
      exact (h.count q m hm).mono rfl rfl (fun k r' _ _ hr' _ _ _ => ⟨r', hr', .refl r'⟩) _

/-! ## Where terms come from -/

/-- Every term in the cluster, on a disk or under way has begun with an election. -/
structure Rooted (cfg : Config) (acts : List Action) (s : State) : Prop where
  node : ∀ p n, s.node p = some n → Begun cfg acts n.currentTerm
  disk : ∀ p T v, Rec.hardState T v ∈ (s.servers p).disk.wal → Begun cfg acts T
  body : ∀ (k : ℕ) (r : Rpc) T, s.rpcs[k]? = some r → r.body.realTerm = some T → Begun cfg acts T
  answer : ∀ (k : ℕ) (r : Rpc), s.rpcs[k]? = some r → ∀ resp ∈ r.resps, Begun cfg acts resp.term

theorem begun_zero (cfg : Config) (acts : List Action) : Begun cfg acts 0 :=
  fun h => absurd h (by omega)

theorem rooted_init (cfg : Config) : Rooted cfg [] cfg.init := by
  refine ⟨?_, ?_, ?_, ?_⟩ <;> simp [Config.init, State.node]

theorem Rooted.heard (h : Rooted cfg acts s) {T : ℕ} (hT : Heard s a T) : Begun cfg acts T := by
  cases hT with
  | request hr hb => exact h.body _ _ _ hr hb
  | answer hr hm => exact h.answer _ _ hr _ hm

/-- A majority of grants is in: the node stands, and its term begins. -/
theorem Canvass.started (h : Canvass cfg acts s)
    (hexec : exec (KMC.step cfg) cfg.init acts = some s) (hn : s.node p = some n)
    (hsec : Section cfg s n (.respond k j io) p io e t) {req : RequestVoteRequest}
    {resp : RequestVoteResponse} (hr : s.rpcs[k]? = some r) (hsrc : r.src = p)
    (hep : r.epoch = (s.servers p).epoch) (hun : r.handled = false)
    (hb : r.body = .preVote n.currentTerm n.preVoteRound req)
    (hresp : r.resps[j]? = some (.vote resp)) (hg : resp.voteGranted = true)
    (hmaj : n.preVotes + 1 = n.majority) (he : e.Stands { n with preVotes := n.preVotes + 1 }) :
    Started cfg (acts ++ [.respond k j io]) (n.currentTerm + 1) := by
  obtain ⟨hp, hmem⟩ := h.requested.enrolled p n hn
  obtain ⟨hid, hpeers⟩ := Prod.mk.inj hmem
  obtain ⟨S, hS, hc, -, hgr⟩ := PollCount.count h hexec hn hr hsrc hep hun hb hresp hg io
  refine ⟨acts, k, j, io, [], s, p, n, e, t, rfl, hexec, hn, rfl, hsec, he.term, ?_, S, hS, ?_,
    fun q hq => (hgr q hq).1⟩
  · rw [he.calls, hid]
  · have hlen := cfg.length_peers hp
    rw [Node.majority, hpeers] at hmaj
    omega

/-- A section leaves behind, writes and sends terms that have begun. -/
theorem Rooted.section (h2 : 2 ≤ cfg.ids.length) (hc : Canvass cfg acts s) (h : Rooted cfg acts s)
    (hexec : exec (KMC.step cfg) cfg.init acts = some s) (hn : s.node p = some n)
    (hsec : Section cfg s n a p io e t) :
    Begun cfg (acts ++ [a]) e.node.currentTerm ∧
    (∀ c ∈ e.calls, ∀ T, c.hardTerm = some T → Begun cfg (acts ++ [a]) T) ∧
    ∀ q body, (q, body) ∈ e.sends → ∀ T, body.realTerm = some T → Begun cfg (acts ++ [a]) T := by
  have hown : Begun cfg (acts ++ [a]) n.currentTerm := (h.node p n hn).append [a]
  cases hsec.terms (hc.requested.majority h2 hn) hc.requested.isPoll with
  | hears hh hmsg =>
    have hnew : Begun cfg (acts ++ [a]) e.node.currentTerm := by
      rcases hh.term with heq | hm
      · exact heq ▸ hown
      · exact (h.heard (hmsg _ hm)).append [a]
    refine ⟨hnew, fun c hcall T hT => ?_, fun q body hb T hT => ?_⟩
    · rcases hh.calls c hcall T hT with rfl | rfl
      · exact hown
      · exact hnew
    · obtain rfl := Option.some.inj ((hh.sends q body hb).symm.trans hT)
      exact hnew
  | polls =>
    refine ⟨hown, by simp [Node.polling], fun q body hb T hT => ?_⟩
    simp only [Node.polling, List.mem_map, Prod.mk.injEq] at hb
    obtain ⟨_, -, -, rfl⟩ := hb
    cases hT
  | counts hr hsrc hep hun hb hresp hg he =>
    obtain rfl := hsec.io_eq
    rcases he with ⟨-, rfl⟩ | ⟨hmaj, rfl⟩
    · exact ⟨hown, by simp, by simp⟩
    have hst : (Node.startElectionLocked io.fail { n with preVotes := n.preVotes + 1 }).Stands
        { n with preVotes := n.preVotes + 1 } := Node.startElection_stands _
    have hnew : Begun cfg _ (n.currentTerm + 1) :=
      fun _ => hc.started hexec hn hsec hr hsrc hep hun hb hresp hg hmaj hst
    refine ⟨hst.term ▸ hnew, fun c hcall T hT => ?_, fun q body hb T hT => ?_⟩
    · rw [hst.calls, List.mem_singleton] at hcall
      subst hcall
      obtain rfl := Option.some.inj hT
      exact hnew
    · obtain rfl := Option.some.inj ((hst.sends q body hb).symm.trans hT)
      exact hnew

theorem Rooted.step (h2 : 2 ≤ cfg.ids.length) (hc : Canvass cfg acts s) (h : Rooted cfg acts s)
    (hexec : exec (KMC.step cfg) cfg.init acts = some s) (hs : KMC.step cfg s a = some t) :
    Rooted cfg (acts ++ [a]) t := by
  have hservers := step_servers hs (I := fun p srv =>
    (∀ n, srv.proc = some n → Begun cfg (acts ++ [a]) n.currentTerm) ∧
    ∀ T v, Rec.hardState T v ∈ srv.disk.wal → Begun cfg (acts ++ [a]) T)
    (fun p => ⟨fun n hn => (h.node p n hn).append [a], fun T v hm => (h.disk p T v hm).append [a]⟩)
    (fun p io n e hn hsec _ => ?live) (fun p io n e k r hn hsec _ => ?dead)
    fun p srv hch => ?change
  case live =>
    obtain ⟨hnode, hcalls, -⟩ := h.section h2 hc hexec hn hsec
    refine ⟨fun m hm => Option.some.inj hm ▸ hnode, fun T v hm => ?_⟩
    rcases Disk.hardState_calls hm with hm | ⟨c, hcall, hT⟩
    · exact (h.disk p T v hm).append [a]
    · exact hcalls c hcall T hT
  case dead =>
    obtain ⟨-, hcalls, -⟩ := h.section h2 hc hexec hn hsec
    refine ⟨by simp [Server.die], fun T v hm => ?_⟩
    -- the calls before the crash, and what the one under way leaves
    have htake : ∀ {T v}, Rec.hardState T v ∈
        ((e.calls.take k).foldl io.apply (s.servers p).disk).wal → Begun cfg (acts ++ [a]) T := by
      intro T v hm
      rcases Disk.hardState_calls hm with hm | ⟨c, hcall, hT⟩
      · exact (h.disk p T v hm).append [a]
      · exact hcalls c (List.mem_of_mem_take hcall) T hT
    cases hhead : (e.calls.drop k).head? with
    | none =>
      rw [hhead] at hm
      exact htake hm
    | some c =>
      rw [hhead] at hm
      rcases Disk.hardState_write hm with hm | hT
      · exact htake hm
      · exact hcalls c (List.mem_of_mem_drop (List.mem_of_mem_head? hhead)) T hT
  case change =>
    refine ⟨fun m hm => ?_, fun T v hm => (h.disk p T v (hch.disk ▸ hm)).append [a]⟩
    obtain ⟨n, hn, -, _, _, _, rfl⟩ | ⟨-, -, -, rfl⟩ := hch.proc hm
    · exact (h.node p n hn).append [a]
    · simp only [newNode, openPersister_term, Disk.replayed]
      rcases PersistedState.replay_term (s.servers p).disk.wal { snap := (s.servers p).disk.image }
        with hT | ⟨v, hT⟩
      · rw [hT]
        exact begun_zero cfg _
      · exact (h.disk p _ v hT).append [a]
  have hbodies := step_bodies hs (I := fun body =>
    ∀ T, body.realTerm = some T → Begun cfg (acts ++ [a]) T)
    (fun k r hr T hT => (h.body k r T hr hT).append [a])
    fun p io n e hn hsec => (h.section h2 hc hexec hn hsec).2.2
  refine ⟨fun p => (hservers p).1, fun p => (hservers p).2, fun k r T hr => hbodies k r hr T,
    fun k r' hr' resp hm => ?_⟩
  rcases step_cases hs with ⟨p, io, n, e, hn, hsec⟩ | ⟨p, srv, -, rfl⟩
  · cases hsec.origin hn hr' with
    | old r hr _ hresps => exact (h.answer k r hr resp (hresps ▸ hm)).append [a]
    | answered r recent n' hr _ ha hcr hdst hresps =>
      rw [hresps, List.mem_append, List.mem_singleton] at hm
      rcases hm with hm | rfl
      · exact (h.answer k r hr resp hm).append [a]
      · subst ha
        rw [handle_answer]
        exact (h.section h2 hc hexec hdst (.deliver hr)).1
    | sent q body _ _ _ hr => simp [hr] at hm
  · exact (h.answer k r' hr' resp hm).append [a]

theorem run_rooted (h2 : 2 ≤ cfg.ids.length) {P : State → Action → Prop}
    (h : Run (step cfg) P cfg.init acts s) : Canvass cfg acts s ∧ Rooted cfg acts s := by
  induction h with
  | nil => exact ⟨canvass_init cfg, rooted_init cfg⟩
  | snoc hrun _ hs ih => exact ⟨ih.1.step h2 hrun.exec_eq hs, ih.2.step h2 ih.1 hrun.exec_eq hs⟩

/-! ## A node that hears nothing -/

/-- Nothing reaches node `p`: no request, and no answer to one of its own. -/
def Action.Isolates (p : ℕ) (s : State) : Action → Prop
  | .deliver k _ _ => ∀ r, s.rpcs[k]? = some r → r.dst ≠ p
  | .respond k _ _ => ∀ r, s.rpcs[k]? = some r → r.src ≠ p
  | _ => True

theorem Section.isolated (h2 : 2 ≤ cfg.ids.length) (hc : Canvass cfg acts s)
    (hn : s.node p = some n) (h : Section cfg s n a p io e t) (ha : a.Isolates p s) :
    e.node.currentTerm = n.currentTerm := by
  cases h.terms (hc.requested.majority h2 hn) hc.requested.isPoll with
  | hears hh hmsg =>
    rcases hh.term with heq | hm
    · exact heq
    · cases h with
      | deliver hr => exact absurd rfl (ha _ hr)
      | respond hr _ _ _ _ => exact absurd rfl (ha _ hr)
      | _ => cases hmsg _ hm
  | polls => rfl
  | counts hr hsrc _ _ _ _ _ _ => exact absurd hsrc (ha _ hr)

theorem Run.isolated (h2 : 2 ≤ cfg.ids.length) {P : State → Action → Prop}
    (h : Run (step cfg) P cfg.init acts s) {acts' : List Action}
    (h' : Run (step cfg) (fun s a => a.Isolates p s) s acts' t) (hn : s.node p = some n) :
    (s.servers p).epoch ≤ (t.servers p).epoch ∧ ((t.servers p).epoch = (s.servers p).epoch →
      ∀ m, t.node p = some m → m.currentTerm = n.currentTerm) := by
  induction h' with
  | nil =>
    refine ⟨le_rfl, fun _ m hm => ?_⟩
    rw [Option.mem_unique hm hn]
  | @snoc acts' u t a hrun ha hs ih =>
    have hle := step_epoch hs p
    refine ⟨ih.1.trans hle, fun hep m hm => ?_⟩
    have hu : (u.servers p).epoch = (s.servers p).epoch := by omega
    have hcan := (run_rooted h2 ((h.imp fun _ _ _ => trivial).trans
      (hrun.imp fun _ _ _ => trivial))).1
    cases step_lineage hs hm with
    | acts hv hsec _ _ he =>
      subst he
      exact (hsec.isolated h2 hcan hv ha).trans (ih.2 hu _ hv)
    | rests hv _ he =>
      have hterm := ih.2 hu _ hv
      subst he
      exact hterm
    | starts _ _ _ _ => omega

/-- No term inflation: a term above 0 of a node, a request or an answer began with an election that
a majority had granted in a poll, and the term of a node that nothing reaches stays what it is. -/
theorem no_term_inflation (h2 : 2 ≤ cfg.ids.length)
    (h : Run (step cfg) (fun _ _ => True) cfg.init acts s) :
    (∀ p n, s.node p = some n → 1 ≤ n.currentTerm → Started cfg acts n.currentTerm) ∧
    (∀ (k : ℕ) (r : Rpc) T, s.rpcs[k]? = some r →
      r.body.realTerm = some T ∨ (∃ resp ∈ r.resps, resp.term = T) → 1 ≤ T →
      Started cfg acts T) ∧
    ∀ p n acts' t m, s.node p = some n →
      Run (step cfg) (fun u a => a.Isolates p u) s acts' t → t.node p = some m →
      (t.servers p).epoch = (s.servers p).epoch → m.currentTerm = n.currentTerm := by
  obtain ⟨-, hroot⟩ := run_rooted h2 h
  refine ⟨hroot.node, fun k r T hr hT => ?_, fun p n acts' t m hn hrun hm hep => ?_⟩
  · rcases hT with hT | ⟨resp, hm, rfl⟩
    · exact hroot.body k r T hr hT
    · exact hroot.answer k r hr resp hm
  · exact (Run.isolated h2 h hrun hn).2 hep m hm

/-- Node 1 of a pair is elected in term 1. Node 2 then polls twice and nobody answers. -/
theorem no_term_inflation_pair : ∃ s t n m,
    Run (step .pair) (fun _ _ => True) Config.pair.init electFirst s ∧ s.node 1 = some n ∧
    n.currentTerm = 1 ∧ Started .pair electFirst 1 ∧
    Run (step .pair) (fun u a => a.Isolates 2 u) s [.tick 2 {}, .tick 2 {}] t ∧
    t.node 2 = some m ∧ m.currentTerm = 1 := by
  have hs := Run.get (step .pair) (fun _ _ => True) Config.pair.init electFirst
    (.of_forall (by simp) _) rfl
  have ht := Run.get (step .pair) (fun u a => a.Isolates 2 u)
    ((exec (step .pair) Config.pair.init electFirst).get rfl) [.tick 2 {}, .tick 2 {}]
    (.of_forall (by simp [Action.Isolates]) _) rfl
  obtain ⟨h1, -, h3⟩ := no_term_inflation (by decide) hs
  exact ⟨_, _, _, _, hs, rfl, rfl, h1 1 _ rfl (by decide), ht, rfl, h3 2 _ _ _ _ rfl ht rfl rfl⟩

end KMC
