import KillMyCluster.Sim.Run

/-! What leaders hold: every later leader holds what an earlier one committed, and what a leader
believes a peer to hold, the peer holds for as long as the two share the term. -/

namespace KMC

open LeaderLog Trace

variable {K : Setting} {g g' : Ghost} {floor : ℕ → ℕ} {p i T T' : ℕ} {n : Node} {d : Disk}
  {ms : List ApplyMsg} {L : List LogEntry} {e : LogEntry}

/-- A node has entry `e` at index `i`, in its log or, once that is compacted, in its snapshot
file. What the image stands for is known if the state machine's images are `honest`. -/
def Holds (honest : Prop) (stands : Bytes → List Bytes) (n : Node) (d : Disk) (i : ℕ)
    (e : LogEntry) : Prop :=
  n.log.firstIndex < i ∧ n.log.entry i = some e ∨
  i ≤ n.log.firstIndex ∧ ∃ snap, d.snap = some snap ∧ i ≤ snap.index ∧
    (honest → (stands snap.data)[i - 1]? = some e.data)

/-- The file of a compacted log covers what is committed. -/
theorem Setting.OnDisk.holds (hi : K.cfg.Inv g) {w ci : ℕ}
    (hd : K.OnDisk g T w n.log ci d) (hc : Committed g T' L) (h1 : 1 ≤ i)
    (he : L[i - 1]? = some e) (hle : i ≤ n.log.firstIndex) : Holds K.honest K.stands n d i e := by
  obtain ⟨cf, hf⟩ := hd.file
  have hfirst := hd.first_le
  obtain ⟨hs, -⟩ := hf.snap (by omega)
  refine Or.inr ⟨hle, d.image, hs, hle.trans hfirst, fun hh => ?_⟩
  have hlt : i - 1 < cf.length := by have := hf.length; omega
  have hcf := List.getElem?_eq_getElem hlt
  rw [hf.stands hh _ hs, List.getElem?_map, hcf, hi.committed_unique hf.committed hc hcf he]
  rfl

/-- The log of a node above its sentinel. -/
theorem LogRel.holds {v : List LogEntry} {honest : Prop} {stands : Bytes → List Bytes}
    (hl : LogRel n.log v) (hlt : n.log.firstIndex < i) (he : v[i - 1]? = some e) :
    Holds honest stands n d i e :=
  Or.inl ⟨hlt, (hl.entry hlt).trans he⟩

/-- A node holds what it knows to be committed. -/
theorem Setting.Up.holds_committed (hi : K.cfg.Inv g) (h : K.Up g floor p n d ms) (h1 : 1 ≤ i)
    (hci : i ≤ n.commitIndex) : ∃ L e, Committed g n.currentTerm L ∧ L[i - 1]? = some e ∧
      Holds K.honest K.stands n d i e := by
  obtain ⟨L, hc, hlen⟩ := h.core.base
  have hlt : i - 1 < L.length := by omega
  refine ⟨L, L[i - 1], hc.committed, List.getElem?_eq_getElem hlt, ?_⟩
  by_cases hle : i ≤ n.log.firstIndex
  · exact h.core.disk.holds hi hc.committed h1 (List.getElem?_eq_getElem hlt) hle
  · refine h.core.log.holds (by omega) ?_
    rw [hc.getElem h.core.log (by omega) hlt, List.getElem?_eq_getElem hlt]

/-- The leader of a term holds the entries of the log it was elected with and built. -/
theorem Setting.Up.holds_tlog (hi : K.cfg.Inv g) (h : K.Up g floor p n d ms)
    (hr : n.role = .leader) (h1 : 1 ≤ i) (he : (g.tlog n.currentTerm)[i - 1]? = some e) :
    Holds K.honest K.stands n d i e := by
  have hlead := h.lead hr
  by_cases hle : i ≤ n.log.firstIndex
  · obtain ⟨L, hc, hlen⟩ := h.core.base
    have hlt : i - 1 < L.length := by have := hc.first_le; omega
    have hce := List.getElem?_eq_getElem hlt
    have hpre := hi.committed_tlog hc.committed (by simp [hlead.leader])
    rw [prefix_getElem hpre hce] at he
    exact h.core.disk.holds hi hc.committed h1 (hce.trans he) hle
  · exact h.core.log.holds (by omega) (hlead.tlog ▸ he)

/-! ## Leader completeness -/

def Steady (honest : Prop) (stands : Bytes → List Bytes) (s : State) (a : Action) : Prop :=
  a.Reliable ∧ (honest → a.Honest stands s)

def OneRun (cfg : Config) (P : State → Action → Prop) (a b : State) : Prop :=
  Reaches (step cfg) P cfg.init a ∧ Reaches (step cfg) P a b ∨
    Reaches (step cfg) P cfg.init b ∧ Reaches (step cfg) P b a

theorem OneRun.sim {P : State → Action → Prop} {a b : State}
    (hP : ∀ s x, P s x → K.Allowed s x) (h : OneRun K.cfg P a b) :
    ∃ g g', K.Sim g a ∧ K.Sim g' b ∧ (Grew g g' ∨ Grew g' g) := by
  have key : ∀ {a b : State}, Reaches (step K.cfg) P K.cfg.init a → Reaches (step K.cfg) P a b →
      ∃ g g', K.Sim g a ∧ K.Sim g' b ∧ Grew g g' := by
    rintro a b ⟨_, ha⟩ ⟨_, hb⟩
    obtain ⟨g, g', h1, h2, h3⟩ := K.sim_reaches ⟨_, ha.imp hP⟩ ⟨_, hb.imp hP⟩
    exact ⟨g, g', h1, h2, h3.grew⟩
  rcases h with ⟨ha, hb⟩ | ⟨hb, ha⟩
  · obtain ⟨g, g', h1, h2, h3⟩ := key ha hb
    exact ⟨g, g', h1, h2, Or.inl h3⟩
  · obtain ⟨g', g, h2, h1, h3⟩ := key hb ha
    exact ⟨g, g', h1, h2, Or.inr h3⟩

/-- The leader of a later term holds, at any time, what is committed in an earlier term at any
time. -/
theorem Setting.Sim.holds_later {a b : State} {q : ℕ} {m : Node} (h : K.Sim g a) (h' : K.Sim g' b)
    (hg : Grew g g' ∨ Grew g' g) (hm : b.node q = some m) (hr : m.role = .leader)
    (hc : Committed g T L) (hT : T < m.currentTerm) (h1 : 1 ≤ i) (he : L[i - 1]? = some e) :
    Holds K.honest K.stands m (b.servers q).disk i e := by
  have hup := h'.rel.up q m hm
  have hlead := (hup.lead hr).leader
  refine hup.holds_tlog h'.rel.inv hr h1 (prefix_getElem ?_ he)
  rcases hg with hg | hg
  · exact h'.rel.inv.committed_tlog (hc.mono h.rel.inv hg hT.le) (by simp [hlead])
  · -- the log it was elected with is the same at both times
    have hled : g'.leader m.currentTerm ≠ none := by simp [hlead]
    have hpre := h.rel.inv.committed_ilog hc hT (hg.led hled)
    rw [hg.ilog _ hled] at hpre
    exact hpre.trans (h'.rel.inv.ilog_prefix hled)

/-- Node `n` of term `T`, whether it still leads or not, has committed index `i`. -/
theorem leader_completeness {cfg : Config} {honest : Prop} {stands : Bytes → List Bytes}
    {a b : State} (hab : OneRun cfg (Steady honest stands) a b) {p u q i : ℕ} {n w m : Node}
    (hn : a.node p = some n) (hci : i ≤ n.commitIndex) (h1 : 1 ≤ i)
    (hw : a.node u = some w) (hcu : i ≤ w.commitIndex)
    (hm : b.node q = some m) (hrm : m.role = .leader) (hT : n.currentTerm < m.currentTerm) :
    ∃ e, Holds honest stands n (a.servers p).disk i e ∧
      Holds honest stands w (a.servers u).disk i e ∧
      Holds honest stands m (b.servers q).disk i e := by
  let K : Setting := ⟨cfg, stands, honest, False, False⟩
  obtain ⟨g, g', h, h', hg⟩ := OneRun.sim (K := K) (fun s x hx => ⟨hx.1, hx.2, False.elim,
    False.elim⟩) hab
  obtain ⟨L, e, hc, he, hhold⟩ := (h.rel.up p n hn).holds_committed h.rel.inv h1 hci
  obtain ⟨c', e', hc', he', hhold'⟩ := (h.rel.up u w hw).holds_committed h.rel.inv h1 hcu
  obtain rfl := h.rel.inv.committed_unique hc hc' he he'
  exact ⟨e, hhold, hhold', h.holds_later h' hg hm hrm hc hT h1 he⟩

def electSecond : List Action :=
  [.tick 2 {}, .deliver 3 false {}, .respond 3 0 {}, .deliver 4 false {}, .respond 4 0 {}]

theorem leader_completeness_pair : ∃ a b n m,
    OneRun .pair (Steady False fun _ => []) a b ∧ a.node 1 = some n ∧ n.role = .leader ∧
    1 ≤ n.commitIndex ∧ b.node 2 = some m ∧ m.role = .leader ∧ n.currentTerm < m.currentTerm ∧
    ∃ e, Holds False (fun _ => []) n (a.servers 1).disk 1 e ∧
      Holds False (fun _ => []) n (a.servers 1).disk 1 e ∧
      Holds False (fun _ => []) m (b.servers 2).disk 1 e := by
  have ha := Reaches.of_exec (step .pair) (Steady False fun _ => []) Config.pair.init firstCommit
    (.of_forall (by simp [firstCommit, electFirst, Steady, Action.Reliable, Action.io]) _) rfl
  have hb := Reaches.of_exec (step .pair) (Steady False fun _ => [])
    ((exec (step .pair) Config.pair.init firstCommit).get rfl) electSecond
    (.of_forall (by simp [electSecond, Steady, Action.Reliable, Action.io]) _) rfl
  exact ⟨_, _, _, _, Or.inl ⟨ha, hb⟩, rfl, rfl, by decide, rfl, rfl, by decide,
    leader_completeness (Or.inl ⟨ha, hb⟩) rfl (by decide) (by decide) rfl (by decide) rfl rfl
      (by decide)⟩

/-! ## Matched prefixes -/

/-- A peer in the leader's term holds what it acknowledged of the leader's log. -/
theorem Setting.MatchOK.holds (hi : K.cfg.Inv g) (hns : K.noStop) (h : K.Up g floor p n d ms)
    (hfl : floor p = n.log.firstIndex) (hm : K.MatchOK g floor n.currentTerm p i) {j : ℕ}
    (h1 : 1 ≤ j) (hj : j ≤ i) (hled : g.leader n.currentTerm ≠ none) :
    ∃ e, (g.tlog n.currentTerm)[j - 1]? = some e ∧ Holds K.honest K.stands n d j e := by
  have hlt : j - 1 < (g.tlog n.currentTerm).length := by have := hm.le; omega
  have he := List.getElem?_eq_getElem hlt
  refine ⟨_, he, ?_⟩
  by_cases hle : j ≤ n.log.firstIndex
  · obtain ⟨L, hc, -⟩ := h.core.base
    have hclt : j - 1 < L.length := by have := hc.first_le; omega
    have hce := List.getElem?_eq_getElem hclt
    have heq := (prefix_getElem (hi.committed_tlog hc.committed hled) hce).symm.trans he
    exact h.core.disk.holds hi hc.committed h1 (hce.trans heq) hle
  · -- above the sentinel the acknowledged prefix is in the log itself
    have hack : j ≤ g.ack n.currentTerm p := by
      rcases hm.held hns with h2 | h2 <;> omega
    have hpre := hi.ack_now n.currentTerm p h.core.vote.term
    refine h.core.log.holds (by omega) (prefix_getElem hpre ?_)
    rw [List.getElem?_take_of_lt (by omega), he]

/-- From the moment leader `l` knows `p` to match up to `i`, the two hold the same entries up to
`i` whenever `l` still leads the term and `p` is in it. -/
theorem matched_prefix {cfg : Config} {honest : Prop} {stands : Bytes → List Bytes} {a b : State}
    (ha : Reaches (step cfg) (fun s x => Steady honest stands s x ∧ ∀ q, x ≠ .stop q) cfg.init a)
    (hb : Reaches (step cfg) (fun s x => Steady honest stands s x ∧ ∀ q, x ≠ .stop q) a b)
    {l p i j : ℕ} {n n' m : Node} (hn : a.node l = some n) (hr : n.role = .leader)
    (hp : p ∈ n.peers) (hi : i ≤ n.matchIndex p) (hn' : b.node l = some n')
    (hr' : n'.role = .leader) (hT : n'.currentTerm = n.currentTerm) (hm : b.node p = some m)
    (hT' : m.currentTerm = n.currentTerm) (h1 : 1 ≤ j) (hj : j ≤ i) :
    ∃ e, Holds honest stands n' (b.servers l).disk j e ∧
      Holds honest stands m (b.servers p).disk j e := by
  let K : Setting := ⟨cfg, stands, honest, True, False⟩
  have hK : ∀ s x, Steady honest stands s x ∧ (∀ q, x ≠ .stop q) → K.Allowed s x :=
    fun s x h => ⟨h.1.1, h.1.2, fun _ => h.2, False.elim⟩
  obtain ⟨_, ha⟩ := ha
  obtain ⟨_, hb⟩ := hb
  obtain ⟨g, g', h, h', hg⟩ := K.sim_reaches ⟨_, ha.imp hK⟩ ⟨_, hb.imp hK⟩
  have hlead := (h.rel.up l n hn).lead hr
  have hupl := h'.rel.up l n' hn'
  have hupm := h'.rel.up p m hm
  have hled : g'.leader m.currentTerm ≠ none := by
    rw [hT', ← hT]; simp [(hupl.lead hr').leader]
  have hmatch := ((hlead.matched p hp).mono h.rel.inv hg.grew (hg.floor p))
  rw [← hT'] at hmatch
  obtain ⟨e, he, hhold⟩ := hmatch.holds h'.rel.inv trivial hupm (Setting.Rel.floor_eq hm) h1
    (hj.trans hi) hled
  rw [hT', ← hT] at he
  exact ⟨e, hupl.holds_tlog h'.rel.inv hr' h1 he, hhold⟩

theorem matched_prefix_pair : ∃ a b n n' m,
    Reaches (step .pair) (fun s x => Steady False (fun _ => []) s x ∧ ∀ q, x ≠ .stop q)
      Config.pair.init a ∧
    Reaches (step .pair) (fun s x => Steady False (fun _ => []) s x ∧ ∀ q, x ≠ .stop q) a b ∧
    a.node 1 = some n ∧ n.role = .leader ∧ n.matchIndex 2 = 1 ∧ b.node 1 = some n' ∧
    b.node 2 = some m ∧ ∃ e, Holds False (fun _ => []) n' (b.servers 1).disk 1 e ∧
      Holds False (fun _ => []) m (b.servers 2).disk 1 e := by
  have ha := Reaches.of_exec (step .pair)
    (fun s x => Steady False (fun _ => []) s x ∧ ∀ q, x ≠ .stop q)
    Config.pair.init firstCommit
    (.of_forall (by simp [firstCommit, electFirst, Steady, Action.Reliable, Action.io]) _) rfl
  have hb := Reaches.of_exec (step .pair)
    (fun s x => Steady False (fun _ => []) s x ∧ ∀ q, x ≠ .stop q)
    ((exec (step .pair) Config.pair.init firstCommit).get rfl) [.heartbeat 1 2, .deliver 3 false {}]
    (.of_forall (by simp [Steady, Action.Reliable, Action.io]) _) rfl
  exact ⟨_, _, _, _, _, ha, hb, rfl, rfl, rfl, rfl, rfl,
    matched_prefix ha hb rfl rfl (by decide) (show 1 ≤ _ by decide) rfl rfl rfl rfl rfl le_rfl
      le_rfl⟩

end KMC
