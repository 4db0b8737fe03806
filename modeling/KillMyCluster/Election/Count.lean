import KillMyCluster.Election.Tally

/-! The bookkeeping of elections. `Ballots` is the history of votes; the disk of a node holds
its last line. A candidate's counter is backed by ballots, a leader by a majority of them. -/

namespace KMC

/-- The candidate a node voted for in a term: by term, then by voter. -/
abbrev Ballots := ℕ → ℕ → Option ℕ

def Ballots.Le (b b' : Ballots) : Prop := ∀ T u c, b T u = some c → b' T u = some c

/-- The persisted term and vote `h` are the last line of what `p` voted. -/
structure Booked (b : Ballots) (p : ℕ) (h : ℕ × ℕ) : Prop where
  unvoted : h.2 = noVote → b h.1 p = none
  voted : h.2 ≠ noVote → b h.1 p = some h.2
  later : ∀ T, h.1 < T → b T p = none

def Ballots.book (b : Ballots) (s : State) : Ballots := fun T u =>
  if T = (s.hard u).1 ∧ (s.hard u).2 ≠ noVote then some (s.hard u).2 else b T u

def Rpc.voteKey (r : Rpc) : Option (ℕ × ℕ × ℕ) :=
  match r.body with
  | .vote req => some (r.src, req.term, r.dst)
  | _ => none

def UniqueVotes (rpcs : List Rpc) : Prop :=
  ∀ (i j : ℕ) (r r' : Rpc) x, rpcs[i]? = some r → rpcs[j]? = some r' →
    r.voteKey = some x → r'.voteKey = some x → i = j

/-- A candidate's counter is backed by ballots of nodes whose answers it has used up. -/
def VoteCount (b : Ballots) (cfg : Config) (rpcs : List Rpc) (p : ℕ) (n : Node) : Prop :=
  ∃ S : Finset ℕ, S ⊆ cfg.ids.toFinset ∧ n.votes ≤ S.card ∧ ∀ u ∈ S,
    b n.currentTerm u = some p ∧
    ∀ (k : ℕ) (r : Rpc), rpcs[k]? = some r → r.voteKey = some (p, n.currentTerm, u) →
      r.handled = true

/-- A majority voted for `p` in term `T`. -/
def Won (b : Ballots) (cfg : Config) (T p : ℕ) : Prop :=
  ∃ S : Finset ℕ, S ⊆ cfg.ids.toFinset ∧ cfg.ids.length / 2 + 1 ≤ S.card ∧
    ∀ u ∈ S, b T u = some p

structure VoteRpc (b : Ballots) (cfg : Config) (hard : ℕ → ℕ × ℕ) (r : Rpc)
    (req : RequestVoteRequest) : Prop where
  src_mem : r.src ∈ cfg.ids
  dst_mem : r.dst ∈ cfg.ids
  real : req.preVote = false
  candidate : req.candidateId = r.src
  term_le : req.term ≤ (hard r.src).1
  granted : ∀ resp, .vote resp ∈ r.resps → resp.voteGranted = true → b req.term r.dst = some r.src

structure Elect (cfg : Config) (b : Ballots) (s : State) : Prop where
  booked : ∀ p, Booked b p (s.hard p)
  proc : ∀ p n, s.node p = some n →
    p ∈ cfg.ids ∧ n.id = p ∧ n.peers = cfg.peers p ∧ n.hard = s.hard p
  cand : ∀ p n, s.node p = some n → n.role = .candidate →
    n.votedFor = p ∧ VoteCount b cfg s.rpcs p n
  lead : ∀ p n, s.node p = some n → n.role = .leader → Won b cfg n.currentTerm p
  rpc : ∀ (k : ℕ) (r : Rpc) (req : RequestVoteRequest), s.rpcs[k]? = some r → r.body = .vote req →
    VoteRpc b cfg s.hard r req
  keys : UniqueVotes s.rpcs

variable {cfg : Config} {b b' : Ballots} {s t : State} {p : ℕ} {n : Node}

/-! ## Growing histories -/

theorem Booked.of_legal {h h' : ℕ × ℕ} (hb : Booked b p h) (hl : Legal h h')
    (hsome : h'.2 ≠ noVote → b' h'.1 p = some h'.2)
    (hrest : ∀ T, (T = h'.1 → h'.2 = noVote) → b' T p = b T p) : Booked b' p h' := by
  have hm := hl.mono
  refine ⟨fun hv => ?_, hsome, fun T hT => ?_⟩
  · rw [hrest _ fun _ => hv]
    rcases hl with hlt | ⟨heq, hv'⟩
    · exact hb.later _ hlt
    · rw [← heq]
      exact hb.unvoted (by omega)
  · rw [hrest T fun heq => by omega]
    exact hb.later T (by omega)

section Book

variable (hE : ∀ u, Booked b u (s.hard u)) (hl : ∀ u, Legal (s.hard u) (t.hard u))
include hE hl

theorem Ballots.le_book : b.Le (b.book t) := by
  intro T u c hc
  unfold Ballots.book
  split
  · rename_i h
    obtain ⟨rfl, hv⟩ := h
    -- the term of the ballot is still the voter's term
    have hle : (t.hard u).1 ≤ (s.hard u).1 := by
      by_contra hlt
      rw [(hE u).later _ (by omega)] at hc
      cases hc
    have heq : (s.hard u).1 = (t.hard u).1 := le_antisymm (hl u).mono hle
    by_cases hv0 : (s.hard u).2 = noVote
    · rw [← heq, (hE u).unvoted hv0] at hc
      cases hc
    · rw [← heq, (hE u).voted hv0] at hc
      rw [← hc]
      rcases hl u with h1 | ⟨-, h1 | h1⟩
      · omega
      · rw [h1]
      · exact absurd h1 hv0
  · exact hc

theorem Ballots.booked_book (u : ℕ) : Booked (b.book t) u (t.hard u) := by
  refine (hE u).of_legal (hl u) (fun hv => ?_) fun T hT => ?_
  · simp [Ballots.book, hv]
  · unfold Ballots.book
    rw [if_neg]
    tauto

end Book

theorem Won.mono {T : ℕ} (hle : b.Le b') (h : Won b cfg T p) : Won b' cfg T p := by
  obtain ⟨S, hS, hcard, hu⟩ := h
  exact ⟨S, hS, hcard, fun u hm => hle _ _ _ (hu u hm)⟩

theorem VoteRpc.mono {hard hard' : ℕ → ℕ × ℕ} {r : Rpc} {req : RequestVoteRequest}
    (hle : b.Le b') (hh : ∀ u, (hard u).1 ≤ (hard' u).1) (h : VoteRpc b cfg hard r req) :
    VoteRpc b' cfg hard' r req :=
  { h with
    term_le := h.term_le.trans (hh _)
    granted := fun resp hm hg => hle _ _ _ (h.granted resp hm hg) }

theorem VoteCount.mono (hle : b.Le b') {rpcs rpcs' : List Rpc}
    (hr : ∀ (k : ℕ) (r' : Rpc) u, rpcs'[k]? = some r' →
      r'.voteKey = some (p, n.currentTerm, u) →
      ∃ r, rpcs[k]? = some r ∧ r.voteKey = r'.voteKey ∧ (r.handled = true → r'.handled = true))
    (h : VoteCount b cfg rpcs p n) : VoteCount b' cfg rpcs' p n := by
  obtain ⟨S, hS, hc, hu⟩ := h
  refine ⟨S, hS, hc, fun u hm => ⟨hle _ _ _ (hu u hm).1, fun k r' hr' hk => ?_⟩⟩
  obtain ⟨r, h1, h2, h3⟩ := hr k r' u hr' hk
  exact h3 ((hu u hm).2 k r h1 (h2.trans hk))

theorem Elect.mono (hE : Elect cfg b s) (hle : b.Le b') (hb : ∀ p, Booked b' p (s.hard p)) :
    Elect cfg b' s where
  booked := hb
  proc := hE.proc
  cand p n hn hr :=
    ⟨(hE.cand p n hn hr).1, (hE.cand p n hn hr).2.mono hle fun _ r' _ hr' _ => ⟨r', hr', rfl, id⟩⟩
  lead p n hn hr := (hE.lead p n hn hr).mono hle
  rpc k r req hr hb := (hE.rpc k r req hr hb).mono hle fun _ => le_rfl
  keys := hE.keys

/-- Two majorities meet, and the node in both voted once. -/
theorem Won.unique {T q : ℕ} (h : Won b cfg T p) (h' : Won b cfg T q) : p = q := by
  obtain ⟨S, hS, hc, hu⟩ := h
  obtain ⟨S', hS', hc', hu'⟩ := h'
  have hcard : cfg.ids.toFinset.card = cfg.ids.length := List.toFinset_card_of_nodup cfg.nodup
  obtain ⟨u, hm⟩ := Finset.inter_nonempty_of_card_lt_card_add_card hS hS' (by omega)
  rw [Finset.mem_inter] at hm
  exact Option.some.inj ((hu u hm.1).symm.trans (hu' u hm.2))

end KMC
