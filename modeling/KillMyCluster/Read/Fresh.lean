import KillMyCluster.Raft.Leads
import KillMyCluster.Read.Model
import KillMyCluster.Sim.Run

/-! Freshness of `ReadIndex`. A confirmed round shows that no later term has begun, not that the
leader's commit index has caught up with what its predecessors committed. A leader that has
committed an entry of its own term returns an index at or above everything committed before the
call; one that has not may return less. -/

namespace KMC

open LeaderLog Trace

variable {K : Setting} {g g' : Ghost} {cfg : Config} {s t : State} {p q k : ℕ} {n m : Node}
  {a : ReadAction} {r : Rpc}

/-! ## What a leader that committed in its own term knows -/

theorem Setting.Up.term_commit {floor : ℕ → ℕ} {d : Disk} {ms : List ApplyMsg}
    (h : K.Up g floor p n d ms) {c : List LogEntry} (hb : K.Base g n.currentTerm n.log (g.log p) c)
    (hlen : c.length = n.commitIndex) : n.log.term n.commitIndex = some (logTerm c) := by
  rcases (hlen ▸ hb.first_le : n.log.firstIndex ≤ n.commitIndex).eq_or_lt with heq | hlt
  · rw [← heq, h.core.log.wf.term_first, hb.sentinel, List.take_of_length_le (by omega)]
  · have hi : n.commitIndex - 1 < c.length := by omega
    rw [h.core.log.term hlt, hb.getElem h.core.log (by omega) hi, List.getElem?_eq_getElem hi,
      Option.map_some]
    have := logTerm_take (L := c) (i := c.length) (by omega) (List.getElem?_eq_getElem (by omega))
    rw [List.take_length] at this
    rw [this]
    simp only [hlen]

/-- Everything committed in a term up to its own is within its commit index. -/
theorem Setting.Rel.commit_covers (hR : K.Rel g s) (hn : s.node p = some n)
    (hr : n.role = .leader) (ht : n.log.term n.commitIndex = some n.currentTerm)
    {L : List LogEntry} (hc : Committed g n.currentTerm L) : L.length ≤ n.commitIndex := by
  have hup := hR.up p n hn
  have hlead := hup.lead hr
  obtain ⟨T, hT, hpre⟩ := hc
  have hlen := hpre.length_le
  rw [List.length_take] at hlen
  rcases hT.eq_or_lt with rfl | hlt
  · have := hlead.commit
    omega
  -- committed in an earlier term: the entry at the commit index would be of that term
  by_contra hgt
  obtain ⟨c, hb, hclen⟩ := hup.core.base
  have hterm : logTerm c = n.currentTerm := by
    rw [hup.term_commit hb hclen] at ht
    exact Option.some.inj ht
  have hled : g.leader n.currentTerm ≠ none := by simp [hlead.leader]
  have h1 := hR.inv.committed_tlog hb.committed hled
  have h2 := hR.inv.committed_tlog ⟨T, hT, hpre⟩ hled
  have hcL : c <+: L := List.prefix_of_prefix_length_le h1 h2 (by omega)
  have hcT : c <+: g.tlog T := hcL.trans (hpre.trans (List.take_prefix _ _))
  have hle : logTerm c ≤ T := by
    cases hlast : c.getLast? with
    | none => simp [logTerm, LeaderLog.lastTerm, hlast]
    | some e =>
      rw [logTerm_of_last hlast]
      exact hR.inv.tlog_le e (hcT.subset (List.mem_of_getLast? hlast))
  omega

/-! ## Terms at the time of an answer -/

theorem Setting.Rel.hard_term (hR : K.Rel g s) (p : ℕ) : (s.hard p).1 = g.term p := by
  cases hn : s.node p with
  | none =>
    obtain ⟨c, hc⟩ := hR.down p hn
    exact hc.vote.term.symm
  | some n =>
    have hcore := (hR.up p n hn).core
    rw [State.hard, Disk.hard, hcore.disk.term]
    exact hcore.vote.term.symm

/-- Answers to RPCs sent after the first `len` come from nodes that are in term `low` or later. -/
def Answers (len : ℕ) (low : ℕ → ℕ) (s : State) : Prop :=
  ∀ (k : ℕ) (r : Rpc), len ≤ k → s.rpcs[k]? = some r → ∀ resp, .append resp ∈ r.resps →
    low r.dst ≤ resp.term

theorem Answers.step {len : ℕ} {low : ℕ → ℕ} (h : Answers len low s) {a : Action}
    (hs : step cfg s a = some t) (hR : K.Rel g t) (hlow : ∀ u, low u ≤ g.term u) :
    Answers len low t := by
  intro k r hk hr resp hm
  rcases step_cases hs with ⟨p, io, n, e, hn, hsec⟩ | ⟨p, srv, -, rfl⟩
  swap
  · exact h k r hk hr resp hm
  cases hsec.origin hn hr with
  | old r₀ hr₀ hsame hres => exact hsame.dst ▸ h k r₀ hk hr₀ resp (hres ▸ hm)
  | sent q body _ _ _ hr' => simp [hr'] at hm
  | answered r₀ recent n₀ hr₀ hsame ha halive hn₀ hres =>
    rw [hres] at hm
    rcases List.mem_append.mp hm with hm | hm
    · exact hsame.dst ▸ h k r₀ hk hr₀ resp hm
    -- the new answer: its term is the one the node is in now
    rw [hsame.dst]
    refine (hlow _).trans ?_
    have hnode : t.node p = some e.node := by
      rcases hsec.server with ⟨-, hsrv⟩ | ⟨_, _, hc, -⟩
      · rw [State.node, hsrv]
      · rw [halive] at hc
        cases hc
    have hterm := (hR.up p _ hnode).core.vote.term
    subst ha
    cases hsec with
    | @deliver _ _ _ r₁ hr₁ =>
      obtain rfl := Option.mem_unique hr₀ hr₁
      obtain rfl := Option.mem_unique hn₀ hn
      rw [hterm]
      have hresp := List.mem_singleton.mp hm
      cases hb : r₀.body <;> simp only [hb, handle, Response.append.injEq, reduceCtorEq] at hresp ⊢
      · rw [hresp, Node.handleAppendEntries_term]
      · rw [hresp, Node.handleAppendEntries_term]

/-! ## A round of heartbeats -/

/-- The heartbeats of a round are as `P` says, no two go to one peer, and each node that is counted
has sent back one of which `Q` holds. -/
structure Beats (P : ℕ → Rpc → Prop) (Q : Rpc → Prop) (rpcs : List Rpc) (acks : ℕ)
    (beats : List ℕ) : Prop where
  sent : ∀ k ∈ beats, ∃ r, rpcs[k]? = some r ∧ P k r
  once : ∀ k ∈ beats, ∀ k' ∈ beats, ∀ r r', rpcs[k]? = some r → rpcs[k']? = some r' →
    r.dst = r'.dst → k = k'
  acks : ∃ U : Finset ℕ, acks ≤ U.card + 1 ∧ ∀ u ∈ U, ∃ k ∈ beats, ∃ r, rpcs[k]? = some r ∧
    r.dst = u ∧ r.handled = true ∧ Q r

variable {len term acks : ℕ} {low : ℕ → ℕ} {beats : List ℕ}

namespace Beats

variable {P P' : ℕ → Rpc → Prop} {Q Q' : Rpc → Prop} {rpcs rpcs' : List Rpc}

theorem nil : Beats P Q rpcs 1 [] := ⟨by simp, by simp, ∅, by simp, by simp⟩

section Step

variable (h : Beats P Q rpcs acks beats) (hkeep : ∀ (k : ℕ) (r : Rpc), rpcs[k]? = some r →
  ∃ r', rpcs'[k]? = some r' ∧ r.Same r' ∧ (P k r → P' k r') ∧ (Q r → Q' r'))
include h hkeep

theorem back (hk : k ∈ beats) (hr : rpcs'[k]? = some r) :
    ∃ r₀, rpcs[k]? = some r₀ ∧ r.dst = r₀.dst := by
  obtain ⟨r₀, h0, -⟩ := h.sent k hk
  obtain ⟨r₁, h1, hsame, -⟩ := hkeep k r₀ h0
  obtain rfl := Option.mem_unique hr h1
  exact ⟨r₀, h0, hsame.dst⟩

/-- What other steps leave of a round. -/
theorem mono : Beats P' Q' rpcs' acks beats := by
  refine ⟨fun k hk => ?_, fun k hk k' hk' r r' hr hr' heq => ?_, ?_⟩
  · obtain ⟨r, hr, hp⟩ := h.sent k hk
    obtain ⟨r', hr', -, hP, -⟩ := hkeep k r hr
    exact ⟨r', hr', hP hp⟩
  · obtain ⟨r₀, h0, hd⟩ := h.back hkeep hk hr
    obtain ⟨r₁, h1, hd'⟩ := h.back hkeep hk' hr'
    exact h.once k hk k' hk' r₀ r₁ h0 h1 (by rw [← hd, ← hd', heq])
  · obtain ⟨U, hU, hu⟩ := h.acks
    refine ⟨U, hU, fun u hm => ?_⟩
    obtain ⟨k, hk, r, hr, hd, hh, hq⟩ := hu u hm
    obtain ⟨r', hr', hsame, -, hQ⟩ := hkeep k r hr
    exact ⟨k, hk, r', hr', hsame.dst.trans hd, hsame.handled hh, hQ hq⟩

theorem beat (hr : rpcs'[k]? = some r) (hk : P' k r)
    (hnew : ∀ k' ∈ beats, ∀ r', rpcs[k']? = some r' → r'.dst ≠ r.dst) :
    Beats P' Q' rpcs' acks (beats ++ [k]) := by
  have ht := h.mono hkeep
  have hfresh : ∀ k' ∈ beats, ∀ r', rpcs'[k']? = some r' → r'.dst ≠ r.dst := by
    intro k' hk' r' hr'
    obtain ⟨r₀, h0, hd⟩ := h.back hkeep hk' hr'
    exact hd ▸ hnew k' hk' r₀ h0
  refine ⟨fun k' hk' => ?_, fun k₁ h₁ k₂ h₂ r₁ r₂ hr₁ hr₂ heq => ?_, ?_⟩
  · rcases List.mem_append.mp hk' with hk' | hk'
    · exact ht.sent k' hk'
    · rw [List.mem_singleton.mp hk']
      exact ⟨r, hr, hk⟩
  · rcases List.mem_append.mp h₁ with h₃ | h₃ <;> rcases List.mem_append.mp h₂ with h₄ | h₄
    · exact ht.once k₁ h₃ k₂ h₄ r₁ r₂ hr₁ hr₂ heq
    · rw [List.mem_singleton.mp h₄, hr] at hr₂
      rw [← Option.some.inj hr₂] at heq
      exact absurd heq (hfresh k₁ h₃ r₁ hr₁)
    · rw [List.mem_singleton.mp h₃, hr] at hr₁
      rw [← Option.some.inj hr₁] at heq
      exact absurd heq.symm (hfresh k₂ h₄ r₂ hr₂)
    · rw [List.mem_singleton.mp h₃, List.mem_singleton.mp h₄]
  · obtain ⟨U, hU, hu⟩ := ht.acks
    refine ⟨U, hU, fun u hm => ?_⟩
    obtain ⟨k', hk', hrest⟩ := hu u hm
    exact ⟨k', List.mem_append_left _ hk', hrest⟩

/-- An answer used for the first time counts for its sender. -/
theorem ack {r' : Rpc} (hk : k ∈ beats) (hr : rpcs[k]? = some r) (hun : r.handled = false)
    (hr' : rpcs'[k]? = some r') (hh : r'.handled = true) (hq : Q' r') :
    Beats P' Q' rpcs' (acks + 1) beats := by
  obtain ⟨U, hU, hu⟩ := h.acks
  have hnew : r.dst ∉ U := by
    intro hm
    obtain ⟨k', hk', r₀, h0, hd, hh₀, -⟩ := hu _ hm
    obtain rfl := h.once k' hk' k hk r₀ r h0 hr hd
    rw [Option.mem_unique h0 hr, hun] at hh₀
    cases hh₀
  have ht := h.mono hkeep
  refine ⟨ht.sent, ht.once, insert r.dst U, ?_, fun u hm => ?_⟩
  · rw [Finset.card_insert_of_notMem hnew]
    omega
  · rcases Finset.mem_insert.mp hm with rfl | hm
    · obtain ⟨r₁, h1, hsame, -⟩ := hkeep k r hr
      obtain rfl := Option.mem_unique hr' h1
      exact ⟨k, hk, r', hr', hsame.dst, hh, hq⟩
    · obtain ⟨k', hk', r₀, h0, hd, hh₀, hq₀⟩ := hu u hm
      obtain ⟨r₁, h1, hsame, -, hQ⟩ := hkeep k' r₀ h0
      exact ⟨k', hk', r₁, h1, hsame.dst.trans hd, hsame.handled hh₀, hQ hq₀⟩

end Step

end Beats

/-- The heartbeats of a round went out after the first `len` RPCs, and `acks` of the nodes have
turned out to be in a term up to `term`. -/
def Polls (len : ℕ) (low : ℕ → ℕ) (cfg : Config) (s : State) (p term acks : ℕ)
    (beats : List ℕ) : Prop :=
  Beats (fun k r => len ≤ k ∧ r.dst ∈ cfg.peers p) (fun r => low r.dst ≤ term) s.rpcs acks beats

theorem State.RpcsKept.polls (h : s.RpcsKept t) (p : ℕ) (hr : s.rpcs[k]? = some r) :
    ∃ r', t.rpcs[k]? = some r' ∧ r.Same r' ∧
      (len ≤ k ∧ r.dst ∈ cfg.peers p → len ≤ k ∧ r'.dst ∈ cfg.peers p) ∧
      (low r.dst ≤ term → low r'.dst ≤ term) := by
  obtain ⟨r', hr', hsame⟩ := h k r hr
  exact ⟨r', hr', hsame, hsame.dst ▸ id, hsame.dst ▸ id⟩

/-- Every majority has a node in it that a confirmed round found in a term up to `term`. -/
theorem Polls.meets (h : Polls len low cfg s p term acks beats) (hp : p ∈ cfg.ids)
    (hself : low p ≤ term) (hmaj : cfg.ids.length / 2 + 1 ≤ acks) {S : Finset ℕ}
    (hS : S ⊆ cfg.ids.toFinset) (hcard : cfg.ids.length / 2 + 1 ≤ S.card) :
    ∃ u ∈ S, low u ≤ term := by
  obtain ⟨U, hU, hu⟩ := h.acks
  have hUp : ∀ u ∈ U, u ∈ cfg.peers p := by
    intro u hm
    obtain ⟨k, hk, r, h1, hd, -⟩ := hu u hm
    obtain ⟨r', h2, -, hd'⟩ := h.sent k hk
    rw [← hd, Option.mem_unique h1 h2]
    exact hd'
  have hpU : p ∉ U := fun hm => (Config.mem_peers.mp (hUp p hm)).2 rfl
  have hW : insert p U ⊆ cfg.ids.toFinset := by
    refine Finset.insert_subset (List.mem_toFinset.mpr hp) fun u hm => ?_
    exact List.mem_toFinset.mpr (Config.mem_peers.mp (hUp u hm)).1
  have hids : cfg.ids.toFinset.card = cfg.ids.length := List.toFinset_card_of_nodup cfg.nodup
  have hWc : (insert p U).card = U.card + 1 := Finset.card_insert_of_notMem hpU
  obtain ⟨u, hm⟩ := Finset.inter_nonempty_of_card_lt_card_add_card hS hW (by omega)
  rw [Finset.mem_inter] at hm
  refine ⟨u, hm.1, ?_⟩
  rcases Finset.mem_insert.mp hm.2 with rfl | hu'
  · exact hself
  · obtain ⟨k, -, r, -, hd, -, hlow⟩ := hu u hu'
    exact hd ▸ hlow

/-- A confirmed round: no leader had been elected in a later term when it started. -/
theorem Polls.term_le {x : State} {gx : Ghost} (hx : K.Sim gx x) (hq : x.node q = some m)
    (hlead : m.role = .leader) (hp : p ∈ K.cfg.ids)
    (h : Polls len gx.term K.cfg s p term acks beats) (hself : gx.term p ≤ term)
    (hmaj : K.cfg.ids.length / 2 + 1 ≤ acks) : m.currentTerm ≤ term := by
  obtain ⟨S, hS, hcard, hvote⟩ := hx.elect.lead q m hq hlead
  -- a voter of the leader answered the round
  obtain ⟨u, hm, hu⟩ := h.meets hp hself hmaj hS hcard
  refine le_trans ?_ hu
  by_contra hlt
  have := (hx.elect.booked u).later m.currentTerm (by rw [hx.rel.hard_term]; omega)
  rw [hvote u hm] at this
  cases this

/-- Nor had a leader of a later term committed anything. -/
theorem Polls.commit_le {x : State} {gx : Ghost} {T : ℕ} (hx : K.Sim gx x) (hT : 0 < gx.commit T)
    (hp : p ∈ K.cfg.ids) (h : Polls len gx.term K.cfg s p term acks beats)
    (hself : gx.term p ≤ term) (hmaj : K.cfg.ids.length / 2 + 1 ≤ acks) : T ≤ term := by
  obtain ⟨-, S, hack, hS, hcard⟩ := hx.rel.inv.commit_own T hT
  rw [List.toFinset_card_of_nodup K.cfg.nodup] at hcard
  obtain ⟨u, hm, hu⟩ := h.meets hp hself hmaj hS hcard
  exact (hx.rel.inv.ack_term T u (hT.trans_le (hack hm))).trans hu

/-! ## Reads -/

/-- The commit index is that of an entry of the leader's own term when it is read after a
round. -/
def ReadAction.Settled (s : ReadState) : ReadAction → Prop
  | .confirmed p => ∀ n ∈ s.base.node p, n.role = .leader →
      n.log.term n.commitIndex = some n.currentTerm
  | _ => True

def ReadAction.Reliable (a : ReadAction) : Prop := ∀ x ∈ a.act, x.Reliable

/-- The persister does not fail, and leaders are settled when they serve reads. -/
def SettledReads (s : ReadState) (a : ReadAction) : Prop := a.Reliable ∧ a.Settled s

/-- What is known of a state `s` after `x`. -/
structure Since (K : Setting) (x : State) (gx : Ghost) (s : State) : Prop where
  sim : ∃ g, K.Sim g s ∧ Grew gx g
  answers : Answers x.rpcs.length gx.term s
  length : x.rpcs.length ≤ s.rpcs.length

variable {x : State} {gx : Ghost}

theorem Since.refl (h : K.Sim gx x) : Since K x gx x where
  sim := ⟨gx, h, .refl gx⟩
  answers k r hk hr := by
    have := (List.getElem?_eq_some_iff.mp hr).1
    omega
  length := le_rfl

theorem Since.step (hK : ∀ s a, a.Reliable → K.Allowed s a) (h : Since K x gx s) {a : Action}
    (ha : a.Reliable) (hs : step K.cfg s a = some t) : Since K x gx t := by
  obtain ⟨g, hg, hgr⟩ := h.sim
  obtain ⟨g', hl, hg'⟩ := hg.step (hK s a ha) hs
  have hgr' := hgr.trans hl.grew
  exact ⟨⟨g', hg', hgr'⟩, h.answers.step hs hg'.rel hgr'.term, h.length.trans (step_length hs)⟩

structure Numbered (s : ReadState) : Prop where
  queued : ∀ p, ∀ c ∈ (s.readers p).queue, c < s.calls
  batched : ∀ p, ∀ c ∈ (s.readers p).batch, c < s.calls
  returned : ∀ r ∈ s.results, r.round = true → r.call < s.calls

/-- Call `id` came after `x`: its round is one of heartbeats sent after `x`, and what it waits for
or has returned is at least `c`. -/
structure LateRead (K : Setting) (x : State) (gx : Ghost) (c id : ℕ) (s : ReadState) : Prop where
  since : Since K x gx s.base
  polls : ∀ p term i acks beats, id ∈ (s.readers p).batch →
    (s.readers p).phase = .polling term i acks beats →
    Polls x.rpcs.length gx.term K.cfg s.base p term acks beats
  waits : ∀ p i, id ∈ (s.readers p).batch → (s.readers p).phase = .waiting i true → c ≤ i
  results : ∀ r ∈ s.results, r.call = id → r.round = true → c ≤ r.index

section LateRead

variable {c id : ℕ} {s t : ReadState} {b : Reader}

theorem ReadState.setReader_cases {P : ℕ → Reader → Prop} (hp : P p b)
    (hq : ∀ q, P q (s.readers q)) : P q ((s.setReader p b).readers q) := by
  unfold ReadState.setReader
  by_cases h : q = p
  · subst h
    simpa using hp
  · simpa [h] using hq q

theorem ReadState.advance_cases {u : State} {P : Reader → Prop} (hp : P {}) (hq : P (s.readers q)) :
    P ((s.advance u).readers q) := by
  unfold ReadState.advance
  simp only
  split
  · exact hq
  · exact hp

theorem LateRead.setReader (h : LateRead K x gx c id s)
    (hpolls : ∀ term i acks beats, id ∈ b.batch → b.phase = .polling term i acks beats →
      Polls x.rpcs.length gx.term K.cfg s.base p term acks beats)
    (hwaits : ∀ i, id ∈ b.batch → b.phase = .waiting i true → c ≤ i) :
    LateRead K x gx c id (s.setReader p b) where
  since := h.since
  polls _ := ReadState.setReader_cases (P := fun q b => ∀ term i acks beats, id ∈ b.batch →
    b.phase = .polling term i acks beats →
      Polls x.rpcs.length gx.term K.cfg s.base q term acks beats) hpolls h.polls
  waits _ := ReadState.setReader_cases (P := fun _ b => ∀ i, id ∈ b.batch →
    b.phase = .waiting i true → c ≤ i) hwaits h.waits
  results := h.results

theorem LateRead.answer (h : LateRead K x gx c id s) {res : ℕ → ReadResult}
    (hres : ∀ y ∈ b.batch, (res y).call = y)
    (hid : id ∈ b.batch → (res id).round = true → c ≤ (res id).index) :
    LateRead K x gx c id (s.answer p b res) := by
  have hset := h.setReader (p := p) (b := { b with batch := [], phase := .idle }) (by simp)
    (by simp)
  refine { hset with results := fun r hr hcall hround => ?_ }
  rcases List.mem_append.mp hr with hr | hr
  · exact h.results r hr hcall hround
  · obtain ⟨y, hy, rfl⟩ := List.mem_map.mp hr
    rw [hres y hy] at hcall
    subst hcall
    exact hid hy hround

theorem LateRead.failReads (h : LateRead K x gx c id s) : LateRead K x gx c id (s.failReads p b) :=
  h.answer (by simp) (by simp)

theorem LateRead.advance (hK : ∀ s a, a.Reliable → K.Allowed s a) (h : LateRead K x gx c id s)
    {a : Action} (ha : a.Reliable) {u : State} (hs : step K.cfg s.base a = some u) :
    LateRead K x gx c id (s.advance u) where
  since := h.since.step hK ha hs
  polls q := ReadState.advance_cases (P := fun b => ∀ term i acks beats, id ∈ b.batch →
    b.phase = .polling term i acks beats →
      Polls x.rpcs.length gx.term K.cfg u q term acks beats) (by simp)
    fun term i acks beats hm hph => Beats.mono (h.polls q term i acks beats hm hph)
      fun k r => (step_rpcs hs).polls q
  waits q := ReadState.advance_cases (P := fun b => ∀ i, id ∈ b.batch →
    b.phase = .waiting i true → c ≤ i) (by simp) (h.waits q)
  results := h.results

theorem step_heartbeat {s t : State} (h : step cfg s (.heartbeat p q) = some t) :
    q ∈ cfg.peers p ∧ ∃ n, s.node p = some n ∧ ∃ r req, t.rpcs[s.rpcs.length]? = some r ∧
      r.dst = q ∧ r.body = .heartbeat req ∧ req.term = n.currentTerm := by
  simp only [step] at h
  split at h
  · rename_i hq
    obtain ⟨n, e, hn, he, rfl⟩ := State.local_some h
    obtain ⟨-, -, -, rfl⟩ := Node.heartbeatAck_cases he
    exact ⟨hq, n, hn, by simp [State.finish, rpcsOf, Node.appendRequest]⟩
  · cases h

/-- A response is used once. -/
theorem step_respond {s t : State} {j : ℕ} {io : Io} (h : step cfg s (.respond k j io) = some t)
    (hr : s.rpcs[k]? = some r) :
    r.handled = false ∧ ∃ r', t.rpcs[k]? = some r' ∧ r'.handled = true := by
  simp only [step, hr, Option.bind_eq_bind, Option.bind_some, Option.bind_eq_some_iff] at h
  obtain ⟨resp, -, h⟩ := h
  split at h
  · cases h
  rename_i hg
  simp only [not_or, Bool.not_eq_true] at hg
  obtain ⟨n, e, -, -, rfl⟩ := State.local_some h
  have hk : (s.markHandled k).rpcs[k]? = some { r with handled := true } := by
    simp [State.markHandled, hr]
  refine ⟨hg.1, { r with handled := true }, ?_, rfl⟩
  unfold State.finish
  split
  · rw [List.getElem?_append_left (List.getElem?_eq_some_iff.mp hk).1]
    exact hk
  · exact hk

/-- A settled leader's commit index after a confirmed round. -/
theorem LateRead.confirmed {i : ℕ} (hx : K.Sim gx x) (hm : x.node q = some m)
    (hr : m.role = .leader) (hc : c ≤ m.commitIndex) (h : LateRead K x gx c id s)
    (hid : id ∈ (s.readers p).batch) (hph : (s.readers p).phase = .polling term i acks beats)
    (hn : s.base.node p = some n) (hlead : n.role = .leader) (hterm : n.currentTerm = term)
    (hmaj : n.majority ≤ acks) (hset : n.log.term n.commitIndex = some n.currentTerm) :
    c ≤ n.commitIndex := by
  subst hterm
  obtain ⟨g, hg, hgr⟩ := h.since.sim
  have hself : gx.term p ≤ n.currentTerm := by
    rw [← (hg.rel.up p n hn).core.vote.term]
    exact hgr.term p
  rw [hg.elect.majority hn] at hmaj
  have hT := (h.polls p _ _ _ _ hid hph).term_le hx hm hr (hg.elect.proc p n hn).1 hself hmaj
  obtain ⟨L, hb, hlen⟩ := (hx.rel.up q m hm).core.base
  have := hg.rel.commit_covers hn hlead hset (hb.committed.mono hx.rel.inv hgr hT)
  omega

/-- A step keeps a watch if a round that it ends finds a commit index of at least `c`. -/
theorem LateRead.step_of (hK : ∀ s a, a.Reliable → K.Allowed s a) (h : LateRead K x gx c id s)
    (hrel : a.Reliable) (hs : readStep K.cfg s a = some t)
    (hconf : ∀ {p term i acks : ℕ} {beats : List ℕ} {n : Node}, a = .confirmed p →
      id ∈ (s.readers p).batch → (s.readers p).phase = .polling term i acks beats →
      s.base.node p = some n → n.role = .leader → n.currentTerm = term → n.majority ≤ acks →
      c ≤ n.commitIndex) : LateRead K x gx c id t := by
  cases readStep_cases hs with
  | cluster hu => exact h.advance hK (hrel _ rfl) hu
  | @call p held n hn =>
    have hw : LateRead K x gx c id (s.setReader p (n.readIndex held s.calls (s.readers p))) := by
      refine h.setReader ?_ ?_ <;> unfold Node.readIndex <;> split
      · exact h.polls p
      · exact h.polls p
      · exact h.waits p
      · exact h.waits p
    exact { hw with }
  | collect hph =>
    refine h.setReader (fun term i acks beats _ he => ?_) fun i _ he => ?_ <;>
      rcases hph with ⟨_, rfl⟩ | ⟨_, _, rfl⟩ <;> cases he
  | confirm _ =>
    refine h.setReader (fun term i acks beats _ he => ?_) fun i _ he => ?_
    · cases he
      exact .nil
    · cases he
  | @beat p q' term i acks beats u hph hnew hu =>
    have hw := h.advance hK (hrel _ rfl) hu
    obtain ⟨hq, -, -, r, -, hr, rfl, -⟩ := step_heartbeat hu
    refine hw.setReader (fun term i acks beats hm he => ?_) fun i _ he => ?_
    · cases he
      exact (h.polls p _ _ _ _ hm hph).beat (fun k r => (step_rpcs hu).polls p) hr
        ⟨h.since.length, hq⟩ hnew
    · cases he
  | @ack p k j term i acks beats io n r resp u hph hk hrk hresp hu =>
    have hw := h.advance hK (hrel _ rfl) hu
    refine hw.setReader (fun term' i' acks' beats' hm he => ?_) fun i _ he => ?_
    · cases he
      have hold := h.polls p _ _ _ _ hm hph
      have hmono : Polls x.rpcs.length gx.term K.cfg u p term acks beats :=
        hold.mono fun k r => (step_rpcs hu).polls p
      unfold countAck
      split
      · rename_i ar
        split
        · rename_i hack
          obtain ⟨hun, r', hr', hh⟩ := step_respond hu hrk
          have hterm : ar.term = term := by
            simp only [Node.acknowledges, Bool.and_eq_true, beq_iff_eq] at hack
            exact hack.2
          obtain ⟨r₀, h0, hlen, -⟩ := hold.sent k hk
          refine hold.ack (fun k r => (step_rpcs hu).polls p) hk hrk hun hr' hh ?_
          obtain ⟨r₁, h1, hsame⟩ := step_rpcs hu k r hrk
          rw [Option.mem_unique hr' h1, hsame.dst, ← hterm]
          exact h.since.answers k r hlen hrk ar (List.mem_of_getElem? hresp)
        · exact hmono
      · exact hmono
    · cases he
  | @confirmed p term i acks beats n u hn hph hmaj hu hlead hterm =>
    refine (h.advance hK (hrel _ rfl) hu).setReader (fun term i acks beats _ he => ?_)
      fun j hid he => ?_
    · cases he
    · have := hconf rfl hid hph hn hlead hterm hmaj
      cases he
      split <;> omega
  | deposed hu => exact (h.advance hK (hrel _ rfl) hu).failReads
  | fail _ _ _ => exact h.failReads
  | @applied p i round hph =>
    refine h.answer (fun _ _ => rfl) fun hid hround => ?_
    obtain rfl : round = true := hround
    exact h.waits p i hid hph
  | @appliedLeased p j y i leased =>
    have hw := h.setReader (b := { s.readers p with leased := leased }) (h.polls p) (h.waits p)
    refine { hw with results := fun r hr hcall hround => ?_ }
    rcases List.mem_append.mp hr with hr | hr
    · exact h.results r hr hcall hround
    · rw [List.mem_singleton.mp hr] at hround
      cases hround

theorem LateRead.step (hK : ∀ s a, a.Reliable → K.Allowed s a) (hx : K.Sim gx x)
    (hm : x.node q = some m) (hr : m.role = .leader) (hc : c ≤ m.commitIndex)
    (h : LateRead K x gx c id s) (ha : SettledReads s a) (hs : readStep K.cfg s a = some t) :
    LateRead K x gx c id t := by
  obtain ⟨hrel, hset⟩ := ha
  refine h.step_of hK hrel hs fun heq hid hph hn hlead hterm hmaj => ?_
  subst heq
  exact h.confirmed hx hm hr hc hid hph hn hlead hterm hmaj (hset _ hn hlead)

/-- The same for anything that was committed, whoever knew of it. -/
theorem LateRead.step_committed {L : List LogEntry} {T : ℕ} (hK : ∀ s a, a.Reliable → K.Allowed s a)
    (hx : K.Sim gx x) (hL : Committed gx T L) (h : LateRead K x gx L.length id s)
    (ha : SettledReads s a) (hs : readStep K.cfg s a = some t) : LateRead K x gx L.length id t := by
  obtain ⟨hrel, hset⟩ := ha
  refine h.step_of hK hrel hs fun {p term _ _ _ n} heq hid hph hn hlead hterm hmaj => ?_
  subst heq
  obtain ⟨T₀, -, hpre⟩ := hL
  rcases Nat.eq_zero_or_pos (gx.commit T₀) with h0 | hpos
  · have := hpre.length_le
    rw [h0, List.take_zero, List.length_nil] at this
    omega
  obtain ⟨g, hg, hgr⟩ := h.since.sim
  have hself : gx.term p ≤ term := by
    rw [← hterm, ← (hg.rel.up p n hn).core.vote.term]
    exact hgr.term p
  rw [hg.elect.majority hn] at hmaj
  have hT := (h.polls p _ _ _ _ hid hph).commit_le hx hpos (hg.elect.proc p n hn).1 hself hmaj
  have hcom : Committed gx T₀ L := ⟨T₀, le_rfl, hpre⟩
  exact hg.rel.commit_covers hn hlead (hset n hn hlead)
    (hcom.mono hx.rel.inv hgr (hterm ▸ hT))

/-! ## Numbers of calls -/

theorem Numbered.setReader (h : Numbered s) (hq : ∀ y ∈ b.queue, y < s.calls)
    (hb : ∀ y ∈ b.batch, y < s.calls) : Numbered (s.setReader p b) where
  queued _ := ReadState.setReader_cases (P := fun _ b => ∀ y ∈ b.queue, y < s.calls) hq h.queued
  batched _ := ReadState.setReader_cases (P := fun _ b => ∀ y ∈ b.batch, y < s.calls) hb h.batched
  returned := h.returned

theorem Numbered.answer (h : Numbered s) {res : ℕ → ReadResult} (hq : ∀ y ∈ b.queue, y < s.calls)
    (hb : ∀ y ∈ b.batch, y < s.calls) (hres : ∀ y, (res y).call = y) :
    Numbered (s.answer p b res) := by
  refine { h.setReader (p := p) (b := { b with batch := [], phase := .idle }) hq (by simp) with
    returned := fun r hr hround => ?_ }
  rcases List.mem_append.mp hr with hr | hr
  · exact h.returned r hr hround
  · obtain ⟨y, hy, rfl⟩ := List.mem_map.mp hr
    rw [hres]
    exact hb y hy

theorem Numbered.advance (h : Numbered s) (u : State) : Numbered (s.advance u) where
  queued q := ReadState.advance_cases (P := fun b => ∀ y ∈ b.queue, y < s.calls) (by simp)
    (h.queued q)
  batched q := ReadState.advance_cases (P := fun b => ∀ y ∈ b.batch, y < s.calls) (by simp)
    (h.batched q)
  returned := h.returned

theorem Numbered.step (h : Numbered s) (hs : readStep cfg s a = some t) : Numbered t := by
  cases readStep_cases hs with
  | cluster _ => exact h.advance _
  | @call p held n hn =>
    have hs : Numbered { s with calls := s.calls + 1 } :=
      ⟨fun q y hy => Nat.lt_succ_of_lt (h.queued q y hy),
        fun q y hy => Nat.lt_succ_of_lt (h.batched q y hy),
        fun r hr hround => Nat.lt_succ_of_lt (h.returned r hr hround)⟩
    refine hs.setReader ?_ ?_ <;> unfold Node.readIndex <;> split
    · exact hs.queued p
    · intro y hy
      rcases List.mem_append.mp hy with hy | hy
      · exact hs.queued p y hy
      · rw [List.mem_singleton.mp hy]
        exact Nat.lt_succ_self _
    · exact hs.batched p
    · exact hs.batched p
  | @collect p k held phase _ =>
    exact h.setReader (fun y hy => h.queued p y (List.mem_of_mem_drop hy))
      fun y hy => h.queued p y (List.mem_of_mem_take hy)
  | @confirm p _ _ _ => exact h.setReader (h.queued p) (h.batched p)
  | @beat p _ _ _ _ _ u _ _ _ => exact (h.advance u).setReader (h.queued p) (h.batched p)
  | @ack p _ _ _ _ _ _ _ _ _ _ u _ _ _ _ _ =>
    exact (h.advance u).setReader (h.queued p) (h.batched p)
  | @confirmed p _ _ _ _ _ u _ _ _ _ _ _ =>
    exact (h.advance u).setReader (h.queued p) (h.batched p)
  | @deposed p u _ => exact (h.advance u).answer (h.queued p) (h.batched p) fun _ => rfl
  | @fail _ p b _ hq hb =>
    exact h.answer (fun y hy => h.queued p y (hq y hy))
      (fun y hy => (hb y hy).elim (h.batched p y) (h.queued p y)) fun _ => rfl
  | @applied p _ _ _ => exact h.answer (h.queued p) (h.batched p) fun _ => rfl
  | @appliedLeased p _ _ _ leased =>
    have hw := h.setReader (p := p) (b := { s.readers p with leased := leased }) (h.queued p)
      (h.batched p)
    refine { hw with returned := fun r hr hround => ?_ }
    rcases List.mem_append.mp hr with hr | hr
    · exact h.returned r hr hround
    · rw [List.mem_singleton.mp hr] at hround
      cases hround

end LateRead

/-! ## The result -/

theorem Since.reads {s t : ReadState} (hK : ∀ s a, a.Reliable → K.Allowed s a)
    (h : Since K x gx s.base) (hr : Reaches (readStep K.cfg) (fun _ a => a.Reliable) s t) :
    Since K x gx t.base := by
  refine hr.invariant (I := fun s => Since K x gx s.base) (fun s a t ih ha hs => ?_) h
  rcases readStep_base hs with heq | ⟨b, hb, hs⟩
  · exact heq ▸ ih
  · exact ih.step hK (ha b hb) hs

/-- What some leader had committed when `ReadIndex` was called, a confirmed read covers. -/
theorem read_index_fresh {x y z w : ReadState} {q c : ℕ} {held : Bool} {m : Node}
    {res : ReadResult} (hx : Reaches (readStep cfg) (fun _ a => a.Reliable) { base := cfg.init } x)
    (hm : x.base.node q = some m) (hr : m.role = .leader) (hc : c ≤ m.commitIndex)
    (hy : Reaches (readStep cfg) (fun _ a => a.Reliable) x y)
    (hcall : readStep cfg y (.call p held) = some z)
    (hw : Reaches (readStep cfg) SettledReads z w) (hres : res ∈ w.results)
    (hid : res.call = y.calls) (hround : res.round = true) : c ≤ res.index := by
  let K : Setting := ⟨cfg, fun _ => [], False, False, False⟩
  have hK : ∀ s a, a.Reliable → K.Allowed s a :=
    fun s a ha => ⟨ha, False.elim, False.elim, False.elim⟩
  obtain ⟨gx, hsim, -⟩ := ((Since.refl K.sim_init).reads hK hx).sim
  have hnum : Numbered y := by
    refine hy.invariant (fun _ _ _ h _ => h.step) (hx.invariant (fun _ _ _ h _ => h.step) ?_)
    exact ⟨by simp, by simp, by simp⟩
  -- nothing has the number of the call before it is made
  have hyw : LateRead K x.base gx c y.calls y := by
    refine ⟨(Since.refl hsim).reads hK hy, fun p _ _ _ _ hm _ => ?_, fun p _ hm _ => ?_,
      fun r hr heq hround => ?_⟩
    · exact absurd (hnum.batched p _ hm) (lt_irrefl _)
    · exact absurd (hnum.batched p _ hm) (lt_irrefl _)
    · exact absurd (hnum.returned r hr hround) (by omega)
  have hzw : LateRead K x.base gx c y.calls z :=
    hyw.step (a := .call p held) hK hsim hm hr hc
      ⟨by simp [ReadAction.Reliable, ReadAction.act], trivial⟩ hcall
  have hww : LateRead K x.base gx c y.calls w :=
    hw.invariant (fun _ _ _ h ha hs => h.step hK hsim hm hr hc ha hs) hzw
  exact hww.results res hres hid hround

instance (s : ReadState) : (a : ReadAction) → Decidable (a.Settled s)
  | .confirmed p => inferInstanceAs (Decidable (∀ n ∈ s.base.node p, n.role = .leader →
      n.log.term n.commitIndex = some n.currentTerm))
  | .cluster .. | .call .. | .collect .. | .confirm .. | .beat .. | .ack .. | .abandon ..
  | .applied .. | .appliedLeased .. => isTrue trivial

def servePair : List ReadAction :=
  [.collect 1 0 false, .confirm 1, .beat 1 2, .cluster (.deliver 3 false {}), .ack 1 3 0 {},
    .confirmed 1, .cluster (.applierTake 1), .applied 1]

theorem read_index_fresh_pair : ∃ x z w m res,
    Reaches (readStep .pair) (fun _ a => a.Reliable) { base := Config.pair.init } x ∧
    x.base.node 1 = some m ∧ m.role = .leader ∧ 1 ≤ m.commitIndex ∧
    readStep .pair x (.call 1 false) = some z ∧ Reaches (readStep .pair) SettledReads z w ∧
    res ∈ w.results ∧ res.call = x.calls ∧ res.round = true ∧ 1 ≤ res.index := by
  have hx := Reaches.of_exec (readStep .pair) (fun _ a => a.Reliable) { base := Config.pair.init }
    (firstCommit.map .cluster)
    (.of_forall (by simp [firstCommit, electFirst, ReadAction.Reliable, ReadAction.act,
      Action.Reliable, Action.io]) _) rfl
  have hz := (Option.some_get (x := readStep .pair ((exec (readStep .pair)
    { base := Config.pair.init } (firstCommit.map .cluster)).get rfl) (.call 1 false)) rfl).symm
  have hw := Reaches.of_exec (readStep .pair) SettledReads ((readStep .pair
    ((exec (readStep .pair) { base := Config.pair.init } (firstCommit.map .cluster)).get rfl)
    (.call 1 false)).get rfl) servePair
    (.and (.of_forall (by simp [servePair, ReadAction.Reliable, ReadAction.act, Action.Reliable,
      Action.io]) _) (by decide)) rfl
  refine ⟨_, _, _, _, ⟨0, 1, true, true⟩, hx, rfl, rfl, by decide, hz, hw, by decide, rfl, rfl, ?_⟩
  exact read_index_fresh (q := 1) hx rfl rfl (by decide) ⟨[], .nil⟩ hz hw (by decide) rfl rfl

/-- Node 1 of a trio commits an entry with node 2, which holds it but does not know that it is
committed when it is elected in the next term. -/
def inherited : List Action :=
  [.restart 1, .restart 2, .restart 3, .tick 1 {}, .deliver 0 false {}, .respond 0 0 {},
    .deliver 2 false {}, .respond 2 0 {}, .propose 1 [[7]] {}, .replicate 1 2,
    .deliver 4 false {}, .respond 4 0 {}, .tick 2 {}, .deliver 6 false {}, .respond 6 0 {},
    .deliver 8 false {}, .respond 8 0 {}]

/-- A leader that has just been elected confirms its leadership and returns index 0. -/
theorem read_index_stale : ∃ x z w m res,
    Reaches (readStep .trio) (fun _ a => a.Reliable) { base := Config.trio.init } x ∧
    x.base.node 1 = some m ∧ m.role = .leader ∧ 1 ≤ m.commitIndex ∧
    readStep .trio x (.call 2 false) = some z ∧
    Reaches (readStep .trio) (fun _ a => a.Reliable) z w ∧
    res ∈ w.results ∧ res.call = x.calls ∧ res.ok = true ∧ res.round = true ∧
    ¬ 1 ≤ res.index := by
  have hx := Reaches.of_exec (readStep .trio) (fun _ a => a.Reliable) { base := Config.trio.init }
    (inherited.map .cluster)
    (.of_forall (by simp [inherited, ReadAction.Reliable, ReadAction.act, Action.Reliable,
      Action.io]) _) rfl
  have hz := (Option.some_get (x := readStep .trio ((exec (readStep .trio)
    { base := Config.trio.init } (inherited.map .cluster)).get rfl) (.call 2 false)) rfl).symm
  have hw := Reaches.of_exec (readStep .trio) (fun _ a => a.Reliable) ((readStep .trio
    ((exec (readStep .trio) { base := Config.trio.init } (inherited.map .cluster)).get rfl)
    (.call 2 false)).get rfl)
    [.collect 2 0 false, .confirm 2, .beat 2 1, .cluster (.deliver 9 false {}), .ack 2 9 0 {},
      .confirmed 2, .applied 2]
    (.of_forall (by simp [ReadAction.Reliable, ReadAction.act, Action.Reliable, Action.io]) _) rfl
  exact ⟨_, _, _, _, ⟨0, 0, true, true⟩, hx, rfl, rfl, by decide, hz, hw, by decide, rfl, rfl, rfl,
    by decide⟩

end KMC
