import KillMyCluster.Safety.Books

/-! What may be committed is committed. The commit rule runs when an AppendEntries is acknowledged
and at no other time. In a cluster of two or more nodes that is enough: an election and a proposal
leave nobody but the leader with the entries in question, and a snapshot covers nothing that is
not yet committed. A node on its own never gets to run the rule. -/

namespace KMC

open LeaderLog Trace

variable {cfg : Config} {s t : State} {a : Action} {p i : ℕ} {io : Io} {n m : Node} {e : Effect}

/-! ## Snapshots that go out -/

/-- A node ships images of what it has committed; one that lives on has committed what it
shipped. -/
structure Shipments (s : State) : Prop where
  cache : ∀ p n, s.node p = some n → n.snapCache.index ≤ n.commitIndex
  epoch : ∀ (k : ℕ) (r : Rpc), s.rpcs[k]? = some r → r.epoch ≤ (s.servers r.src).epoch
  sent : ∀ (k : ℕ) (r : Rpc) (req : InstallSnapshotRequest) (n : Node), s.rpcs[k]? = some r →
    r.body = .snapshot req → s.node r.src = some n → (s.servers r.src).epoch = r.epoch →
    req.lastIncludedIndex ≤ n.commitIndex

theorem Node.snapshot_cache (h : n.lastApplied ≤ n.commitIndex)
    (hc : n.snapCache.index ≤ n.commitIndex) (fail : Call → Bool) (index : ℕ) (data : Bytes) :
    (n.snapshot fail index data).1.node.snapCache.index ≤ n.commitIndex := by
  unfold Node.snapshot
  split
  · exact hc
  split
  · exact hc
  rename_i happ
  split
  · exact hc
  simp only
  split
  · exact hc
  · exact (not_lt.mp happ).trans h

theorem Node.shipped_le {file : Option Snapshot} (hc : n.snapCache.index ≤ n.commitIndex)
    (hf : ∀ snap ∈ file, snap.index ≤ n.commitIndex) :
    (n.shipped file).index ≤ n.commitIndex := by
  unfold Node.shipped
  split
  · cases file with
    | none => exact Nat.zero_le _
    | some snap => exact hf snap rfl
  · exact hc

/-- The commit index after a section covers what the node keeps of a snapshot. -/
theorem Moves.cache {file : Option Snapshot} (h : Moves s file n a io e)
    (hio : io.fault = fun _ => none) (happ : n.lastApplied ≤ n.commitIndex)
    (hc : n.snapCache.index ≤ n.commitIndex) (hf : ∀ snap ∈ file, snap.index ≤ n.commitIndex) :
    e.node.snapCache.index ≤ e.node.commitIndex := by
  have hle := h.commit_le
  have hgrows : e.Grows n → e.node.snapCache.index ≤ e.node.commitIndex := fun hg => by
    rw [hg.snapCache]
    exact hc.trans hle
  cases h with
  | stays hq => exact hgrows hq.grows
  | ship _ => exact Node.shipped_le hc hf
  | commit hm _ => simpa only [hm.snapCache] using hc.trans hle
  | @merge _ _ _ _ req m _ _ _ _ _ hm hsaves _ =>
    exact hgrows ((m.mergeEntries_grows req).after hm hsaves)
  | @install _ _ _ _ req m _ _ _ _ hm _ hci =>
    rw [Io.fail_reliable hio, Effect.after_node, Node.installLocked,
      if_neg (by rw [hm.commitIndex]; omega)]
    exact le_rfl
  | propose _ => exact hgrows (n.commitPropBatch_grows _)
  | snapshot =>
    rw [n.snapshot_commit]
    exact Node.snapshot_cache happ hc _ _ _

theorem Shipments.step {g : Ghost} {K : Setting} (h : Shipments s) (hsim : K.Sim g s)
    (ha : a.Reliable) (hs : step K.cfg s a = some t) : Shipments t := by
  have hsec : ∀ {p io n e}, s.node p = some n → Section K.cfg s n a p io e t →
      e.node.snapCache.index ≤ e.node.commitIndex ∧
      ∀ q req, (q, .snapshot req) ∈ e.sends → req.lastIncludedIndex ≤ n.commitIndex := by
    intro p io n e hn hsec
    have hup := hsim.rel.up p n hn
    have hc := h.cache p n hn
    have hf : ∀ snap ∈ (s.servers p).disk.snap, snap.index ≤ n.commitIndex := by
      intro snap hsnap
      have := hup.core.disk.le_commit
      rwa [Disk.image, Option.mem_def.mp hsnap] at this
    refine ⟨hsec.moves.cache (hsec.io_eq ▸ ha) hup.applied_le hc hf, fun q req hm => ?_⟩
    rcases hsec.moves.sends q _ hm with hfrom | ⟨-, heq⟩
    · exact hfrom.elim
    · obtain rfl := Body.snapshot.inj heq
      exact Node.shipped_le hc hf
  -- a process that lives on has committed at least as much
  have hmono : ∀ p m, t.node p = some m → (t.servers p).epoch = (s.servers p).epoch →
      ∃ n, s.node p = some n ∧ n.commitIndex ≤ m.commitIndex := by
    intro p m hm hep
    cases step_lineage hs hm with
    | acts hn _ _ _ _ | rests hn _ _ => exact ⟨_, hn, step_commit_le hs hn hm⟩
    | starts _ _ hep' _ => omega
  refine ⟨fun p m hm => ?_, fun k r' hr' => ?_, fun k r' req m hr' hb hm hep => ?_⟩
  · cases step_lineage hs hm with
    | acts hn hse _ _ he => exact he ▸ (hsec hn hse).1
    | rests hn _ he =>
      have hcache := h.cache p _ hn
      subst he
      exact hcache
    | starts _ _ _ he => exact he ▸ Nat.zero_le _
  · rcases step_rpc hs hr' with ⟨r, hr, hsame⟩ | ⟨p, io, n, e, q, body, -, -, -, -, rfl⟩
    · rw [hsame.epoch, hsame.src]
      exact (h.epoch k r hr).trans (step_epoch hs _)
    · exact step_epoch hs p
  · rcases step_rpc hs hr' with ⟨r, hr, hsame⟩ | ⟨p, io, n, e, q, body, hn, hse, -, hbody, rfl⟩
    · rw [hsame.src] at hm hep
      rw [hsame.epoch] at hep
      rw [hsame.body] at hb
      have hep' := h.epoch k r hr
      have hle := step_epoch hs r.src
      obtain ⟨n, hn, hci⟩ := hmono _ m hm (by omega)
      exact (h.sent k r req n hr hb hn (by omega)).trans hci
    · obtain ⟨n', hn', hci⟩ := hmono _ m hm hep
      obtain rfl := Option.mem_unique hn hn'
      subst hb
      exact ((hsec hn hse).2 q req hbody).trans hci

/-! ## What may be committed -/

theorem Node.Committable.of_idle (hi : n.Idle m) (h : m.Committable i) : n.Committable i := by
  obtain ⟨h1, h2, h3⟩ := h
  rw [hi.commitIndex] at h1
  rw [hi.log, hi.term] at h2
  rw [hi.peers, hi.matchIndex] at h3
  exact ⟨h1, h2, h3⟩

/-- What no peer holds is not held by a majority. -/
theorem Node.not_committable (hp : n.peers ≠ []) (hm : ∀ q ∈ n.peers, n.matchIndex q < i) :
    ¬ n.Committable i := by
  intro h
  have hzero : n.peers.countP (fun q => decide (i ≤ n.matchIndex q)) = 0 := by
    rw [List.countP_eq_zero]
    intro q hq
    simpa using hm q hq
  have hheld := h.held
  rw [hzero] at hheld
  have hpos := List.length_pos_iff.mpr hp
  omega

/-- A peer known to hold what is committed anyway adds nothing. -/
theorem Node.Committable.of_raise {j q : ℕ} (hj : j ≤ n.commitIndex)
    (h : (n.raiseMatch q j).Committable i) : n.Committable i := by
  obtain ⟨h1, h2, h3⟩ := h
  have habove : n.commitIndex < i := h1
  refine ⟨h1, h2, ?_⟩
  have hcount : n.peers.countP (fun q' => decide (i ≤ (n.raiseMatch q j).matchIndex q')) =
      n.peers.countP fun q' => decide (i ≤ n.matchIndex q') := by
    refine List.countP_congr fun q' _ => ?_
    simp only [Node.raiseMatch, Function.update_apply]
    split
    · rename_i hq
      subst hq
      simp only [decide_eq_true_eq]
      omega
    · rfl
  rw [← hcount]
  exact h3

section Related

variable {K : Setting} {g : Ghost} {floor : ℕ → ℕ} {d : Disk} {ms : List ApplyMsg}

theorem Setting.Up.rising (hi : K.cfg.Inv g) (h : K.Up g floor p n d ms) :
    n.log.Rising n.commitIndex n.currentTerm := by
  have hreals := h.core.log.reals
  refine h.core.log.wf.rising (h.first_le.trans h.applied_le) ?_ fun e he => ?_
  · rw [hreals, List.pairwise_iff_getElem]
    intro i j hi' hj hij
    refine hi.good_sorted (hi.good_log p).1 (i := n.log.firstIndex + i)
      (j := n.log.firstIndex + j) (by omega) ?_ ?_
    · rw [← List.getElem?_drop, List.getElem?_eq_getElem]
    · rw [← List.getElem?_drop, List.getElem?_eq_getElem]
  · rw [hreals] at he
    have := (hi.good_log p).2 e (List.mem_of_mem_drop he)
    rwa [h.core.vote.term] at this

theorem Setting.Up.matchIndex_le (h : K.Up g floor p n d ms) (hl : n.role = .leader) :
    ∀ q ∈ n.peers, n.matchIndex q ≤ n.log.lastIndex := by
  intro q hq
  have hlead := h.lead hl
  rw [h.core.log.lastIndex, ← hlead.tlog]
  exact (hlead.matched q hq).le

/-- Proposals put entries behind what any peer is known to hold. -/
theorem Setting.Up.proposed_settled (h : K.Up g floor p n d ms) (hl : n.role = .leader)
    (hp : n.peers ≠ []) (hn : ∀ i, ¬ n.Committable i) (batch : List Bytes) (i : ℕ) :
    ¬ (n.commitPropBatch (fun _ => false) batch).1.node.Committable i := by
  have hwf := h.core.log.wf
  rw [Node.commitPropBatch_ok _ hl rfl]
  set entries := Node.newEntries n.currentTerm n.log.lastIndex batch
  intro hc
  have habove : n.commitIndex < i := hc.above
  have hfirst := h.first_le.trans h.applied_le
  rcases lt_or_ge n.log.lastIndex i with hlt | hle
  · exact Node.not_committable (n := { n with log := n.log.append entries }) hp
      (fun q hq => (h.matchIndex_le hl q hq).trans_lt hlt) hc
  · have hwf' : (n.log.append entries).WF :=
      hwf.append fun k e he => (Node.newEntries_spec _ batch _ k e he).1
    refine hn i ⟨hc.above, ?_, hc.held⟩
    have hterm := hc.term
    rw [hwf'.term_entry (by simpa using hfirst.trans_lt habove),
      hwf.entry_append (hfirst.trans_lt habove) hle] at hterm
    rw [hwf.term_entry (hfirst.trans_lt habove)]
    exact hterm

/-- Compaction does not reach what is not yet committed. -/
theorem Setting.Up.compacted_settled (h : K.Up g floor p n d ms)
    (hn : ∀ i, ¬ n.Committable i) (fail : Call → Bool) (index : ℕ) (data : Bytes) (i : ℕ) :
    ¬ (n.snapshot fail index data).1.node.Committable i := by
  have hfirst := h.first_le.trans h.applied_le
  have happ := h.applied_le
  unfold Node.snapshot
  split
  · exact hn i
  split
  · exact hn i
  rename_i hidx
  split
  · exact hn i
  have hcut := n.snapshotCut_le index
  have hterm : n.commitIndex < i → (n.compactBehind index).term i = n.log.term i := by
    intro hi
    unfold Node.compactBehind
    split
    · split
      · exact h.core.log.wf.compactTo_term (by omega) (by omega)
      · rfl
    · rfl
  simp only
  split
  · exact fun hc => hn i ⟨hc.above, (hterm hc.above).symm.trans hc.term, hc.held⟩
  · exact fun hc => hn i ⟨hc.above, (hterm hc.above).symm.trans hc.term, hc.held⟩

/-- The commit rule leaves nothing behind. -/
theorem Node.maybeAdvance_settled (h : n.log.Rising n.commitIndex n.currentTerm) (i : ℕ) :
    ¬ n.maybeAdvanceCommitLocked.Committable i := by
  rcases maybeAdvanceCommit_cases h with ⟨idx, heq, hg⟩ | ⟨heq, hno⟩
  · rw [heq]
    intro hc
    have hlt : idx < i := hc.above
    have hle := hg.2 (show n.Committable i from ⟨hg.1.above.trans hlt, hc.term, hc.held⟩)
    omega
  · rw [heq]
    exact hno i

theorem Leads.settled (hi : K.cfg.Inv g) (hup : K.Up g floor p n d ms) (hship : Shipments s)
    (hnode : ∀ k j io r, a = .respond k j io → s.rpcs[k]? = some r → s.node r.src = some n)
    (ha : a.Reliable) (hp : n.peers ≠ []) (h : Leads s n a e)
    (hn : n.role = .leader → ∀ i, ¬ n.Committable i) : ∀ i, ¬ e.node.Committable i := by
  cases h with
  | @elected _ _ m _ hpeers _ he =>
    intro i
    rw [he]
    rintro hc
    refine Node.not_committable ?_ (fun q _ => ?_) hc
    · exact hpeers ▸ hp
    · exact (Nat.zero_le _).trans_lt hc.above
  | idle hl hi => exact fun i hc => hn hl i (hc.of_idle hi)
  | @proposed _ batch io hl =>
    have hio : io.fault = fun _ => none := ha
    rw [Io.fail_reliable hio]
    exact hup.proposed_settled hl hp (hn hl) batch
  | compacted hl => exact hup.compacted_settled (hn hl) _ _ _
  | acked _ =>
    have hrising := hup.rising hi
    exact Node.maybeAdvance_settled hrising
  | refused hl => exact fun i hc => hn hl i ⟨hc.above, hc.term, hc.held⟩
  | @installed k j io r req hl hr hb hep =>
    exact fun i hc => hn hl i
      (hc.of_raise (hship.sent k r req n hr hb (hnode k j io r rfl hr) hep))

end Related

structure NothingLeft (s : State) : Prop where
  shipments : Shipments s
  settled : ∀ p n, s.node p = some n → n.role = .leader → ∀ i, ¬ n.Committable i

theorem Config.peers_ne_nil (h2 : 2 ≤ cfg.ids.length) (hp : p ∈ cfg.ids) : cfg.peers p ≠ [] := by
  have := cfg.length_peers hp
  rw [← List.length_pos_iff]
  omega

theorem NothingLeft.step {K : Setting} {g : Ghost} (h2 : 2 ≤ K.cfg.ids.length) (h : NothingLeft s)
    (hsim : K.Sim g s) (ha : a.Reliable) (hs : step K.cfg s a = some t) : NothingLeft t := by
  refine ⟨h.shipments.step hsim ha hs, fun p m hm hl => ?_⟩
  cases step_lineage hs hm with
  | @acts n io e hn hsec _ _ he =>
    subst he
    have hup := hsim.rel.up p n hn
    refine (hsec.leads hl).settled hsim.rel.inv hup h.shipments (fun k j io r hk hr => ?_) ha ?_
      (h.settled p n hn)
    · subst hk
      cases hsec with
      | respond hr' =>
        obtain rfl := Option.mem_unique hr hr'
        exact hn
    · rw [hup.peers]
      exact Config.peers_ne_nil h2 hup.mem
  | rests hn _ he =>
    have hset := h.settled p _ hn
    subst he
    exact fun i hc => hset hl i ⟨hc.above, hc.term, hc.held⟩
  | starts _ _ _ he =>
    subst he
    cases hl

theorem reliable_settled (h2 : 2 ≤ cfg.ids.length)
    (h : Reaches (step cfg) (fun _ a => a.Reliable) cfg.init s) : NothingLeft s := by
  have hall : (∃ g, cfg.plain.Sim g s) ∧ NothingLeft s := by
    refine h.invariant (I := fun s => (∃ g, cfg.plain.Sim g s) ∧ NothingLeft s) ?_ ?_
    · rintro s a t ⟨⟨g, hsim⟩, hset⟩ ha hs
      obtain ⟨g', -, hsim'⟩ := hsim.step ⟨ha, False.elim, False.elim, False.elim⟩ hs
      exact ⟨⟨g', hsim'⟩, hset.step h2 hsim ha hs⟩
    · refine ⟨⟨_, cfg.plain.sim_init⟩, ⟨?_, ?_, ?_⟩, ?_⟩ <;> simp [Config.init, State.node]
  exact hall.2

/-- Between steps a leader with at least one peer has committed everything it may. -/
theorem nothing_left_to_commit (h2 : 2 ≤ cfg.ids.length)
    (h : Reaches (step cfg) (fun _ a => a.Clean) cfg.init s) (hn : s.node p = some n)
    (hl : n.role = .leader) : ∀ i, ¬ n.Committable i :=
  (reliable_settled h2 (clean_reaches h)).settled p n hn hl

theorem nothing_left_to_commit_pair : ∃ s n,
    Reaches (step .pair) (fun _ a => a.Clean) Config.pair.init s ∧ s.node 1 = some n ∧
    n.role = .leader ∧ n.commitIndex = 1 ∧ n.log.lastIndex = 2 ∧ ∀ i, ¬ n.Committable i := by
  have hs := Reaches.of_exec (step .pair) (fun _ a => a.Clean) Config.pair.init
    (firstCommit ++ [.propose 1 [[8]] {}])
    (.of_forall (by simp [firstCommit, electFirst, Action.Clean, Action.Reliable, Action.io]) _) rfl
  exact ⟨_, _, hs, rfl, rfl, rfl, rfl, nothing_left_to_commit (p := 1) (by decide) hs rfl rfl⟩

def Config.single : Config := ⟨[1], by decide, by decide, fun _ => 0⟩

/-- A node on its own is elected by its own vote. Its entry is held by all there are and stays
uncommitted. -/
theorem left_to_commit_alone : ∃ s n,
    Reaches (step .single) (fun _ a => a.Clean) Config.single.init s ∧ s.node 1 = some n ∧
    n.role = .leader ∧ n.commitIndex = 0 ∧ n.Committable 1 := by
  have hs := Reaches.of_exec (step .single) (fun _ a => a.Clean) Config.single.init
    [.restart 1, .tick 1 {}, .propose 1 [[7]] {}]
    (.of_forall (by simp [Action.Clean, Action.Reliable, Action.io]) _) rfl
  exact ⟨_, _, hs, rfl, rfl, rfl, by decide, by decide, by decide⟩

end KMC
