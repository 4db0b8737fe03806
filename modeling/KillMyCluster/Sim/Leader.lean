import KillMyCluster.Sim.Snapshots

/-! What a leader does keeps the relation: requests it sends, answers it takes in, the commit
rule and new proposals. -/

namespace KMC

open LeaderLog

variable {K : Setting} {g g' : Ghost} {floor : ℕ → ℕ} {p lo q : ℕ} {n : Node} {d : Disk}
  {ms : List ApplyMsg} {e : Effect} {resp : AppendEntriesResponse}

/-! ## Requests -/

theorem Setting.Up.appendRequest (hi : K.cfg.Inv g) (h : K.Up g floor p n d ms)
    (hl : K.Leading g floor p n) {next k : ℕ} (hf : n.log.firstIndex < next)
    (hnext : next ≤ n.log.lastIndex + 1) :
    AppendOK g p (n.appendRequest next ((n.log.suffix next).take k)) := by
  have hlast := h.core.log.lastIndex
  obtain ⟨c, hc, hlen, hpre⟩ := h.base_prefix hi (by rw [hl.leader]; simp)
  have hfc := hc.first_le
  have hsuf : n.log.suffix next = (g.log p).drop (next - 1) := by
    rw [h.core.log.wf.suffix hf, h.core.log.reals, List.drop_drop]; congr 1; omega
  rw [hsuf]
  refine ⟨hl.leader, ?_, ?_, fun j e he => ?_, ?_, c, hc.committed, hlen⟩
  · simp only [Node.appendRequest, hl.tlog, List.length_take, List.length_drop]
    omega
  · simp only [Node.appendRequest, hl.tlog]
    rw [List.length_take, ← List.take_eq_take_min]
  · simp only [Node.appendRequest] at he ⊢
    have hj := (List.getElem?_eq_some_iff.mp he).1
    rw [List.length_take] at hj
    rw [List.getElem?_take_of_lt (by omega), List.getElem?_drop] at he
    have := h.core.log.index (by omega) he
    omega
  · simp only [Node.appendRequest, hl.tlog]
    by_cases hp : n.log.firstIndex < next - 1
    · obtain ⟨e, he⟩ : ∃ e, (g.log p)[next - 1 - 1]? = some e :=
        ⟨_, List.getElem?_eq_getElem (by omega)⟩
      rw [h.core.log.term hp, he, logTerm_take (by omega) he]
      rfl
    · rw [show next - 1 = n.log.firstIndex by omega, h.core.log.wf.term_first, Option.getD_some,
        hc.sentinel, prefix_take_take hpre hfc, hl.tlog]

theorem Setting.Up.replicateOnce (hi : K.cfg.Inv g) (h : K.Up g floor p n d ms)
    (hlo : lo ≤ n.log.firstIndex) (hq : q ∈ K.cfg.peers p)
    (he : n.replicateOnce d.snap q = some e) : K.Lands g floor p lo d ms e fun _ => True := by
  obtain ⟨-, hr, rfl | ⟨snap, hne, hs, rfl⟩ | ⟨hf, rfl⟩⟩ := Node.replicateOnce_cases he
  · exact .quiet (h.down hi) .refl h hlo (by simp) trivial
  · have hok : K.SnapOK g n.currentTerm snap := by
      split at hs <;> subst hs
      · obtain ⟨c, hc⟩ := h.core.disk.file
        exact (hc.snap hne).2
      · exact h.cache.resolve_left hne
    refine .quiet (h.down hi) .refl
      { h with cache := Or.inr hok, lead := fun hr => { h.lead hr with } } hlo
      (fun q' body hm => ?_) trivial
    simp only [List.mem_singleton, Prod.mk.injEq] at hm
    obtain ⟨rfl, rfl⟩ := hm
    exact ⟨hq, (h.lead hr).leader, hok⟩
  · have hl := h.lead hr
    refine .quiet (h.down hi) .refl h hlo (fun q' body hm => ?_) trivial
    simp only [List.mem_singleton, Prod.mk.injEq] at hm
    obtain ⟨rfl, rfl⟩ := hm
    exact ⟨hq, h.appendRequest hi hl hf (hl.next _ (h.peers ▸ hq))⟩

theorem Setting.Up.heartbeatAck (hi : K.cfg.Inv g) (h : K.Up g floor p n d ms)
    (hlo : lo ≤ n.log.firstIndex) (hq : q ∈ K.cfg.peers p) (he : n.heartbeatAck q = some e) :
    K.Lands g floor p lo d ms e fun _ => True := by
  obtain ⟨-, hr, hf, rfl⟩ := Node.heartbeatAck_cases he
  have hl := h.lead hr
  refine .quiet (h.down hi) .refl h hlo (fun q' body hm => ?_) trivial
  simp only [List.mem_singleton, Prod.mk.injEq] at hm
  obtain ⟨rfl, rfl⟩ := hm
  have := h.appendRequest (k := 0) hi hl hf (hl.next _ (h.peers ▸ hq))
  rw [List.take_zero] at this
  exact ⟨hq, this⟩

/-! ## The commit rule -/

/-- The nodes a leader counts are a quorum of acknowledgements. -/
theorem Setting.Up.quorum (h : K.Up g floor p n d ms) {idx : ℕ}
    (hmaj : n.majority ≤ n.replicas idx) {A : Set ℕ} (hp : p ∈ A)
    (hA : ∀ q ∈ n.peers, idx ≤ n.matchIndex q → q ∈ A) : K.cfg.quorums.IsQuorum A := by
  classical
  have hnodup : n.peers.Nodup := by rw [h.peers]; exact K.cfg.nodup.filter _
  set P := (n.peers.filter fun q => decide (idx ≤ n.matchIndex q)).toFinset with hP
  have hpP : p ∉ P := by
    intro hm
    rw [hP, List.mem_toFinset, List.mem_filter] at hm
    exact h.peer_ne hm.1 rfl
  refine ⟨insert p P, ?_, ?_, ?_⟩
  · intro q hq
    rcases Finset.mem_insert.mp (Finset.mem_coe.mp hq) with rfl | hq
    · exact hp
    · rw [hP, List.mem_toFinset, List.mem_filter, decide_eq_true_eq] at hq
      exact hA q hq.1 hq.2
  · intro q hq
    rw [List.mem_toFinset]
    rcases Finset.mem_insert.mp hq with rfl | hq
    · exact h.mem
    · rw [hP, List.mem_toFinset, List.mem_filter, h.peers, Config.mem_peers] at hq
      exact hq.1.1
  · rw [Finset.card_insert_of_notMem hpP, hP, List.toFinset_card_of_nodup (hnodup.filter _),
      ← List.countP_eq_length_filter, ← h.majority]
    unfold Node.replicas at hmaj
    omega

theorem Setting.Up.maybeAdvanceCommit (hi : K.cfg.Inv g) (h : K.Up g floor p n d ms)
    (hr : n.role = .leader) : ∃ g', K.cfg.Acts p g g' ∧
      K.Up g' floor p n.maybeAdvanceCommitLocked d ms := by
  unfold Node.maybeAdvanceCommitLocked
  split
  swap
  · exact ⟨g, .refl, h⟩
  rename_i idx hscan
  obtain ⟨hgt, hle, hterm, hmaj⟩ := n.commitScan_spec hscan
  have hl := h.lead hr
  have hlast := h.core.log.lastIndex
  obtain ⟨c, hc, hlen, hpre⟩ := h.base_prefix hi (by rw [hl.leader]; simp)
  have hfc := hc.first_le
  -- the leader's own disk counts
  obtain ⟨g₁, hs₁, hup₁, htl₁, hack₁⟩ := h.acknowledge hi (i := idx) (by rw [hl.leader]; simp)
    (by rw [hl.tlog]; omega) (by rw [hl.tlog])
  obtain ⟨hi₁, hgr₁⟩ := hi.steps hs₁
  have hl₁ := hup₁.lead hr
  have hown : OwnAt LogEntry.term g₁ n.currentTerm idx := by
    rw [hup₁.core.log.term (by omega)] at hterm
    obtain ⟨e, he, hte⟩ := Option.map_eq_some_iff.mp hterm
    exact ⟨by omega, e, by rw [hl₁.tlog]; exact he, hte⟩
  have hcommit := hl₁.commit
  have hq : K.cfg.quorums.IsQuorum {u | idx ≤ g₁.ack n.currentTerm u} := by
    refine h.quorum hmaj hack₁ fun q hq hm => ?_
    rcases (hl₁.matched q hq).own idx hm hown with h1 | h1
    · omega
    · exact h1
  set g₂ : Ghost := { g₁ with commit := Function.update g₁.commit n.currentTerm idx } with hg₂
  have hs₂ : K.cfg.Acts p g₁ g₂ := .single (.commit n.currentTerm idx hl₁.leader (by omega) hown hq)
  obtain ⟨hi₂, hgr₂⟩ := hi₁.steps hs₂
  have hlog₂ : g₂.log p = g₁.log p := rfl
  obtain ⟨b, hb, hblen, hbpre⟩ := hup₁.base_prefix hi₁ (by rw [hl₁.leader]; simp)
  have hbase : K.Base g₂ n.currentTerm n.log (g₂.log p) ((g₂.log p).take idx) := by
    refine ⟨⟨n.currentTerm, le_rfl, ?_⟩, ?_, ?_, ?_, fun _ => List.take_prefix _ _⟩
    · rw [hlog₂, ← hl₁.tlog]
      simp [hg₂]
    · rw [List.length_take, hlog₂, ← hup₁.core.log.lastIndex]
      omega
    · rw [List.take_take, min_eq_left (by omega), hb.sentinel,
        prefix_take_take hbpre (by omega), hl₁.tlog]
    · rw [List.length_take, hlog₂, ← hup₁.core.log.lastIndex, min_eq_left hle,
        hup₁.core.log.reals, List.drop_take]
  refine ⟨g₂, hs₁.trans hs₂, ?_⟩
  obtain ⟨i, hdel, hpn⟩ := hup₁.delivered
  exact { hup₁ with
    core := ⟨{ hup₁.core.vote with }, hup₁.core.log, ⟨_, hbase, by
      rw [List.length_take, hlog₂, ← hup₁.core.log.lastIndex]
      exact min_eq_left hle⟩, hup₁.core.disk.mono hi₁ hgr₂ hgt.le⟩
    applied_le := h.applied_le.trans hgt.le
    cache := hup₁.cache.imp_right fun hs => hs.mono hi₁ hgr₂ le_rfl
    delivered := ⟨i, hdel.mono hi₁ hgr₂ le_rfl, hpn⟩
    pending := fun snap hs =>
      ⟨(hup₁.pending snap hs).1.mono hi₁ hgr₂ le_rfl, (hup₁.pending snap hs).2⟩
    lead := fun _ => ⟨hl₁.leader, hl₁.tlog, by simp [hg₂],
      fun q hq => (hl₁.matched q hq).mono hi₁ hgr₂ le_rfl, hl₁.next⟩ }

/-! ## Answers -/

theorem Setting.Up.raiseMatch (h : K.Up g floor p n d ms) (hr : n.role = .leader) {i : ℕ}
    (hm : K.MatchOK g floor n.currentTerm q i) : K.Up g floor p (n.raiseMatch q i) d ms := by
  have hl := h.lead hr
  refine { h with lead := fun _ => { hl with matched := fun u hu => ?_, next := fun u hu => ?_ } }
  · simp only [Node.raiseMatch]
    by_cases huq : u = q
    · subst huq
      rw [Function.update_self]
      rcases max_choice (n.matchIndex u) i with hmax | hmax <;> rw [hmax]
      · exact hl.matched u hu
      · exact hm
    · rw [Function.update_of_ne huq]
      exact hl.matched u hu
  · have hle := hm.le
    rw [hl.tlog, ← h.core.log.lastIndex] at hle
    have := hl.next u hu
    simp only [Node.raiseMatch]
    by_cases huq : u = q
    · subst huq
      rw [Function.update_self]
      omega
    · rw [Function.update_of_ne huq]
      exact this

/-- The repaired `nextIndex` stays within the log. -/
theorem Setting.Up.backUp_le (h : K.Up g floor p n d ms)
    (hnext : n.nextIndex q ≤ n.log.lastIndex + 1) (hc : resp.conflictIndex ≤ n.log.lastIndex + 1) :
    n.backUp q resp ≤ n.log.lastIndex + 1 := by
  have hterm : ∀ t, n.log.lastIndexOfTerm t ≤ n.log.lastIndex := by
    intro t
    unfold RaftLog.lastIndexOfTerm
    simp only
    split
    · omega
    split
    · rename_i e he
      split
      · have h1 := h.core.log.wf _ e he
        have h2 := (List.getElem?_eq_some_iff.mp he).1
        have h3 := h.core.log.wf.lastIndex
        omega
      · omega
    · omega
  have := hterm resp.conflictTerm
  unfold Node.backUp
  simp only
  split
  · split <;> omega
  split <;> omega

theorem Setting.Up.acked (hi : K.cfg.Inv g) (h : K.Up g floor p n d ms)
    (hlo : lo ≤ n.log.firstIndex) (hr : n.role = .leader) {req : AppendEntriesRequest}
    (ht : n.currentTerm = req.term) (hresp : K.AppendAnswerOK g floor q req resp)
    (hsucc : resp.success = true) : K.Lands g floor p lo d ms { node :=
      (n.raiseMatch q (req.prevLogIndex + req.entries.length)).maybeAdvanceCommitLocked }
      fun _ => True := by
  have hup := h.raiseMatch hr (ht ▸ hresp.success hsucc)
  obtain ⟨g₁, hs, hup₁⟩ := hup.maybeAdvanceCommit hi hr
  refine .quiet (h.down hi) hs hup₁ ?_ (by simp) trivial
  rw [Node.maybeAdvanceCommitLocked]
  split <;> exact hlo

theorem Setting.Up.refused (hi : K.cfg.Inv g) (h : K.Up g floor p n d ms)
    (hlo : lo ≤ n.log.firstIndex) (hr : n.role = .leader) {req : AppendEntriesRequest}
    (ht : n.currentTerm = req.term) (hreq : AppendOK g p req)
    (hresp : K.AppendAnswerOK g floor q req resp) : K.Lands g floor p lo d ms { node :=
      { n with nextIndex := Function.update n.nextIndex q (n.backUp q resp) } } fun _ => True := by
  have hl := h.lead hr
  have hle := hreq.le
  rw [← ht, hl.tlog, ← h.core.log.lastIndex] at hle
  have hc := hresp.conflict
  refine .quiet (h.down hi) .refl
    { h with lead := fun _ => { hl with next := fun u hu => ?_ } } hlo (by simp) trivial
  simp only
  by_cases huq : u = q
  · subst huq
    rw [Function.update_self]
    exact h.backUp_le (hl.next u hu) (by omega)
  · rw [Function.update_of_ne huq]
    exact hl.next u hu

theorem Setting.Up.installed (hi : K.cfg.Inv g) (h : K.Up g floor p n d ms)
    (hlo : lo ≤ n.log.firstIndex) (hr : n.role = .leader) {req : InstallSnapshotRequest}
    (ht : n.currentTerm = req.term) {resp : InstallSnapshotResponse}
    (hterm : resp.term ≤ n.currentTerm) (hreq : K.BodyOK g p (.snapshot req))
    (hresp : K.AnswerOK g floor p q (.snapshot req) (.install resp)) :
    K.Lands g floor p lo d ms { node := n.raiseMatch q req.lastIncludedIndex } fun _ => True := by
  obtain ⟨hled, c, hc, hlen, -⟩ := hreq
  have hlen' : c.length = req.lastIncludedIndex := hlen
  have hpre := hi.committed_tlog hc (by rw [hled]; simp)
  -- the leader had committed what the snapshot covers
  have hm : K.MatchOK g floor n.currentTerm q req.lastIncludedIndex := by
    rw [ht, ← hlen']
    refine ⟨hpre.length_le, fun j hj ho => Or.inl (hi.own_committed hc ho hj), fun hn => ?_⟩
    rw [hlen']
    exact hresp hn (by omega)
  exact .quiet (h.down hi) .refl (h.raiseMatch hr hm) hlo (by simp) trivial

theorem Setting.Up.resign (hi : K.cfg.Inv g) (h : K.Up g floor p n d ms)
    (hlo : lo ≤ n.log.firstIndex) (he : n.resign = some e) :
    K.Lands g floor p lo d ms e fun _ => True := by
  obtain ⟨-, rfl⟩ := Node.resign_some he
  exact .quiet (h.down hi) .refl (h.settled hi n.stepDownLocked rfl rfl rfl (Or.inl rfl)) hlo
    (by simp) trivial

/-! ## Proposals -/

/-- The leader writes entries of its own term behind its log. -/
theorem Setting.Up.lengthen (hi : K.cfg.Inv g) (h : K.Up g floor p n d ms) (hr : n.role = .leader)
    (es : List LogEntry) (hes : ∀ k e, es[k]? = some e →
      e.index = n.log.lastIndex + 1 + k ∧ e.term = n.currentTerm) :
    ∃ g', K.cfg.Acts p g g' ∧
      K.Up g' floor p { n with log := n.log.append es } (d.run (.appendEntries es)) ms := by
  have hl := h.lead hr
  obtain ⟨c, hc, hlen⟩ := h.core.base
  have hcv := hc.le_length h.core.log
  have hf := h.core.log.first_le
  have hfc := hc.first_le
  set g₁ : Ghost := { g with
    log := Function.update g.log p (g.log p ++ es)
    tlog := Function.update g.tlog n.currentTerm (g.tlog n.currentTerm ++ es) } with hg₁
  have hs : K.cfg.Acts p g g₁ := .single (.append n.currentTerm es h.core.vote.term hl.leader
    hl.tlog fun e he => by
      obtain ⟨k, hk⟩ := List.mem_iff_getElem?.mp he
      exact (hes k e hk).2)
  obtain ⟨hi₁, hgr⟩ := hi.steps hs
  have hlog : g₁.log p = g.log p ++ es := by simp [hg₁]
  have hrel : LogRel (n.log.append es) (g₁.log p) := by
    rw [hlog]
    refine ⟨h.core.log.wf.append fun k e he => (hes k e he).1, ?_, ?_, fun heq => ?_⟩
    · rw [RaftLog.append_firstIndex, List.length_append]; omega
    · rw [RaftLog.append_reals, RaftLog.append_firstIndex, List.drop_append_of_le_length hf,
        h.core.log.reals]
    · rw [RaftLog.append_firstIndex, List.length_append] at heq
      obtain rfl : es = [] := List.length_eq_zero_iff.mp (by omega)
      rw [List.append_nil]
      exact h.core.log.sentinel (by omega)
  obtain ⟨i, hdel, hpn⟩ := h.delivered
  refine ⟨g₁, hs, ⟨h.mem, h.id, h.peers, ⟨{ h.core.vote with }, hrel, ⟨c, ⟨?_, hfc, hc.sentinel,
    ?_, fun hfr => ?_⟩, hlen⟩, (h.core.disk.append es).mono hi hgr le_rfl⟩, h.first_le,
    h.applied_le, h.cache.imp_right fun hs => hs.mono hi hgr le_rfl,
    ⟨i, hdel.mono hi hgr le_rfl, hpn⟩,
    fun snap hs => ⟨(h.pending snap hs).1.mono hi hgr le_rfl, (h.pending snap hs).2⟩,
    fun hc => ?_, fun _ => ?_, h.running⟩⟩
  · exact hc.committed.mono hi hgr le_rfl
  · change (n.log.reals ++ es).take (c.length - n.log.firstIndex) = _
    rw [List.take_append_of_le_length (by rw [h.core.log.reals, List.length_drop]; omega)]
    exact hc.held
  · rw [hlog]
    exact (hc.fresh hfr).trans (List.prefix_append _ _)
  · exact absurd (hr.symm.trans hc) (by simp)
  · refine ⟨hl.leader, ?_, hl.commit, fun q hq => (hl.matched q hq).mono hi hgr le_rfl,
      fun q hq => ?_⟩
    · simp only [hg₁, Function.update_self, hl.tlog]
    · have hlast : (n.log.append es).lastIndex = n.log.lastIndex + es.length := by
        rw [hrel.lastIndex, hlog, List.length_append, h.core.log.lastIndex]
      have := hl.next q hq
      change n.nextIndex q ≤ (n.log.append es).lastIndex + 1
      omega

theorem Setting.Up.commitPropBatch (hi : K.cfg.Inv g) (h : K.Up g floor p n d ms)
    (hlo : lo ≤ n.log.firstIndex) (batch : List Bytes) :
    K.Lands g floor p lo d ms (n.commitPropBatch noFail batch).1 fun _ => True := by
  unfold Node.commitPropBatch
  split
  · exact .quiet (h.down hi) .refl h hlo (by simp) trivial
  rename_i hr
  simp only [ne_eq, not_not] at hr
  simp only [noFail, Bool.false_eq_true, if_false]
  set es := Node.newEntries n.currentTerm n.log.lastIndex batch with hes
  have hspec := Node.newEntries_spec n.currentTerm batch n.log.lastIndex
  rw [← hes] at hspec
  obtain ⟨g₁, hs, hup⟩ := h.lengthen hi hr es hspec
  have hlod := hlo.trans h.core.disk.first_le
  refine ⟨⟨g₁, hs, hup, by simp, trivial⟩, hlo,
    crashSafe_cons (fun r => ?_) ⟨g₁, hs, crashSafe_nil (hup.down (hi.steps hs).1) hlod⟩⟩
  rw [d.write_append]
  obtain ⟨g₂, hs₂, hup₂⟩ := h.lengthen hi hr (es.take r) fun k e he => by
    have hk := (List.getElem?_eq_some_iff.mp he).1
    rw [List.length_take] at hk
    rw [List.getElem?_take_of_lt (by omega)] at he
    exact hspec k e he
  exact ⟨g₂, hs₂, hup₂.down (hi.steps hs₂).1, hlod⟩

end KMC
