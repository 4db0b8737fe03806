import KillMyCluster.Sim.Run

/-! Log matching. It fails: `HandleInstallSnapshot` keeps the entries above the snapshot without
comparing the term at the snapshot point. It holds as long as snapshots are installed only
where they agree with the log. -/

namespace KMC

open LeaderLog Trace

/-- Along the log, from the sentinel on, terms never decrease. -/
def RaftLog.Ordered (l : RaftLog) : Prop :=
  ∀ i j t u, i ≤ j → l.term i = some t → l.term j = some u → t ≤ u

/-- Wherever two logs share an index and term, they agree at all lower indexes both hold. Of a
sentinel only the term is held. -/
def RaftLog.Match (l l' : RaftLog) : Prop :=
  ∀ i j t, j ≤ i → l.term i = some t → l'.term i = some t → l.firstIndex ≤ j →
    l'.firstIndex ≤ j → l.term j = l'.term j ∧
      (l.firstIndex < j → l'.firstIndex < j → l.entry j = l'.entry j)

def LogMatching (s : State) : Prop :=
  (∀ p n, s.node p = some n → n.log.Ordered) ∧
  ∀ p q n m, s.node p = some n → s.node q = some m → n.log.Match m.log

variable {K : Setting} {g : Ghost} {floor : ℕ → ℕ} {p q : ℕ} {n m : Node} {d d' : Disk}
  {ms ms' : List ApplyMsg}

/-- Where snapshots agree with the logs, a log is the tail of the log it would be without
compaction, the sentinel included. -/
theorem Setting.Up.term_eq (hfr : K.fresh) (h : K.Up g floor p n d ms) {i : ℕ} (h1 : 1 ≤ i)
    (hi : n.log.firstIndex ≤ i) : n.log.term i = ((g.log p)[i - 1]?).map LogEntry.term := by
  rcases hi.eq_or_lt with rfl | hlt
  · obtain ⟨c, hc, -⟩ := h.core.base
    have hle := hc.first_le
    have hclt : n.log.firstIndex - 1 < c.length := by omega
    have hce := List.getElem?_eq_getElem hclt
    rw [h.core.log.wf.term_first, hc.sentinel, prefix_getElem (hc.fresh hfr) hce,
      logTerm_take (by omega) hce]
    rfl
  · exact h.core.log.term hlt

/-- The sentinel of an uncompacted log has term 0. -/
theorem Setting.Up.term_zero (h : K.Up g floor p n d ms) (h0 : n.log.firstIndex ≤ 0) :
    n.log.term 0 = some 0 := by
  obtain ⟨c, hc, -⟩ := h.core.base
  have hs := h.core.log.wf.term_first
  rw [hc.sentinel, Nat.le_zero.mp h0] at hs
  exact hs

theorem RaftLog.first_le_of_term {l : RaftLog} {i t : ℕ} (ht : l.term i = some t) :
    l.firstIndex ≤ i := by
  by_contra hlt
  rw [RaftLog.term, if_pos (Or.inl (by omega))] at ht
  cases ht

theorem Setting.Up.ordered (hi : K.cfg.Inv g) (hfr : K.fresh) (h : K.Up g floor p n d ms) :
    n.log.Ordered := by
  intro i j t u hij ht hu
  have hf := RaftLog.first_le_of_term ht
  rcases Nat.eq_zero_or_pos i with rfl | hpos
  · rw [h.term_zero hf] at ht
    obtain rfl := Option.some.inj ht
    exact Nat.zero_le u
  · rw [h.term_eq hfr hpos hf] at ht
    rw [h.term_eq hfr (by omega) (by omega)] at hu
    obtain ⟨e, he, rfl⟩ := Option.map_eq_some_iff.mp ht
    obtain ⟨e', he', rfl⟩ := Option.map_eq_some_iff.mp hu
    exact hi.good_sorted (hi.good_log p).1 (by omega) he he'

theorem Setting.Up.matching (hi : K.cfg.Inv g) (hfr : K.fresh) (h : K.Up g floor p n d ms)
    (h' : K.Up g floor q m d' ms') : n.log.Match m.log := by
  intro i j t hij ht ht' hf hf'
  rcases Nat.eq_zero_or_pos j with rfl | hpos
  · exact ⟨by rw [h.term_zero hf, h'.term_zero hf'], fun h1 => absurd h1 (by omega)⟩
  · have he := ht
    have he' := ht'
    rw [h.term_eq hfr (by omega) (by omega)] at he
    rw [h'.term_eq hfr (by omega) (by omega)] at he'
    obtain ⟨e, he, hte⟩ := Option.map_eq_some_iff.mp he
    obtain ⟨e', he', hte'⟩ := Option.map_eq_some_iff.mp he'
    have htake := (hi.good_log p).1.take_eq (hi.good_log q).1 le_rfl he he' (hte.trans hte'.symm)
    have hget : (g.log p)[j - 1]? = (g.log q)[j - 1]? := by
      rw [← List.getElem?_take_of_lt (show j - 1 < i - 1 + 1 by omega), htake,
        List.getElem?_take_of_lt (by omega)]
    refine ⟨?_, fun h1 h2 => ?_⟩
    · rw [h.term_eq hfr hpos hf, h'.term_eq hfr hpos hf', hget]
    · rw [h.core.log.entry h1, h'.core.log.entry h2, hget]

theorem log_matching {cfg : Config} {s : State}
    (hs : Reaches (step cfg) (fun s a => a.Reliable ∧ a.Matching s) cfg.init s) :
    LogMatching s := by
  let K : Setting := ⟨cfg, fun _ => [], False, False, True⟩
  obtain ⟨_, hs⟩ := hs
  obtain ⟨g, -, h⟩ := K.sim_init.run (hs.imp fun s a ha => ⟨ha.1, False.elim, False.elim,
    fun _ => ha.2⟩)
  have hi := h.rel.inv
  exact ⟨fun p n hn => (h.rel.up p n hn).ordered hi trivial,
    fun p q n m hn hm => (h.rel.up p n hn).matching hi trivial (h.rel.up q m hm)⟩

/-- Node 1 leads term 1 and appends two entries that nobody else gets. -/
def orphans : List Action :=
  [.restart 1, .restart 2, .restart 3, .tick 1 {}, .deliver 0 false {}, .respond 0 0 {},
    .deliver 2 false {}, .respond 2 0 {}, .propose 1 [[1], [2]] {}]

/-- Node 2 leads term 2, commits its own entry at index 1 with node 3 and applies it. -/
def usurper : List Action :=
  [.tick 2 {}, .deliver 5 false {}, .respond 5 0 {}, .deliver 7 false {}, .respond 7 0 {},
    .propose 2 [[3]] {}, .replicate 2 3, .deliver 8 false {}, .respond 8 0 {}, .applierTake 2,
    .applierSend 2]

instance (n : Node) (req : InstallSnapshotRequest) : Decidable (n.Agrees req) := by
  unfold Node.Agrees
  infer_instance

instance (s : State) (r : Rpc) : Decidable (r.Matching s) := by
  unfold Rpc.Matching
  exact match r.body, s.node r.dst with
    | .snapshot req, some n => inferInstanceAs (Decidable (n.stopped = false →
        n.currentTerm ≤ req.term → n.commitIndex < req.lastIncludedIndex → n.Agrees req))
    | .snapshot _, none | .preVote .., _ | .vote _, _ | .replicate _, _ | .heartbeat _, _ =>
      isTrue trivial

instance (s : State) : (a : Action) → Decidable (a.Matching s)
  | .deliver k _ _ => inferInstanceAs (Decidable (∀ r ∈ s.rpcs[k]?, r.Matching s))
  | .tick .. | .stepDown .. | .respond .. | .propose .. | .replicate .. | .heartbeat ..
  | .lease .. | .applierTake .. | .applierSend .. | .snapshot .. | .crash .. | .restart ..
  | .stop .. => isTrue trivial

/-- Node 1 replicates its entries after all, and sends node 3, whose answer it has not got, a
snapshot of the first one. -/
def shared : List Action :=
  [.replicate 1 3, .deliver 4 false {}, .replicate 1 2, .deliver 5 false {}, .respond 5 0 {},
    .applierTake 1, .applierSend 1, .snapshot 1 1 [1] {}, .replicate 1 3, .deliver 6 false {}]

/-- Node 3 installs the snapshot and keeps the entry above it. -/
theorem log_matching_trio : ∃ s n, Reaches (step .trio) (fun s a => a.Reliable ∧ a.Matching s)
    Config.trio.init s ∧ s.node 3 = some n ∧ n.log.firstIndex = 1 ∧ n.log.lastIndex = 2 ∧
    LogMatching s := by
  have hs := Reaches.of_exec (step .trio) (fun s a => a.Reliable ∧ a.Matching s) Config.trio.init
    (orphans ++ shared)
    (.and (.of_forall (by simp [orphans, shared, Action.Reliable, Action.io]) _) (by decide)) rfl
  exact ⟨_, _, hs, rfl, rfl, rfl, log_matching hs⟩

/-- Node 2 takes a snapshot at index 1 and sends it to node 1, which keeps its entry at index 2
below a sentinel of a later term. -/
theorem log_matching_fails : ∃ s, Reaches (step .trio) (Sound fun d => [d]) Config.trio.init s ∧
    ¬ LogMatching s := by
  have h₁ := Run.get (step .trio) (Sound fun d => [d]) Config.trio.init (orphans ++ usurper)
    (.of_forall (by simp [orphans, usurper, Sound, Action.Reliable, Action.Honest, Action.io]) _)
    rfl
  have h₂ := h₁.snoc (a := Action.snapshot 2 1 [3] {}) ⟨rfl, 1, rfl⟩ (Option.some_get rfl).symm
  have h₃ := h₂.trans (Run.get (step .trio) (Sound fun d => [d]) _
    [.replicate 2 1, .deliver 9 false {}]
    (.of_forall (by simp [Sound, Action.Reliable, Action.Honest, Action.io]) _) rfl)
  refine ⟨_, ⟨_, h₃⟩, fun h => ?_⟩
  have := h.1 1 _ rfl 1 2 2 1 (by decide) rfl rfl
  omega

end KMC
