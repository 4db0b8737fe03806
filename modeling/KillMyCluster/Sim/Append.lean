import KillMyCluster.Raft.Loops
import KillMyCluster.Raft.Searches
import KillMyCluster.Sim.Election

/-! AppendEntries keeps the relation. Where the request and the log agree on a term above the
sentinel they agree on everything below; what lies under the sentinel is committed. -/

namespace KMC

open LeaderLog

variable {K : Setting} {g g' : Ghost} {floor floor₂ : ℕ → ℕ} {p lo i : ℕ} {n : Node} {d : Disk}
  {ms : List ApplyMsg} {l : RaftLog} {v L : List LogEntry} {e : LogEntry}

theorem logTerm_take (hi : 0 < i) (he : L[i - 1]? = some e) : logTerm (L.take i) = e.term := by
  refine logTerm_of_last ?_
  have := (List.getElem?_eq_some_iff.mp he).1
  rw [List.getLast?_eq_getElem?, List.length_take, min_eq_left (by omega),
    List.getElem?_take_of_lt (by omega), he]

theorem prefix_take_take {c : List LogEntry} (h : c <+: L) (hi : i ≤ c.length) :
    c.take i = L.take i := (prefix_take h hi).symm

/-- The log of the follower and the log of the term agree up to `i`, or the sentinel covers it. -/
def Agree (l : RaftLog) (v L : List LogEntry) (i : ℕ) : Prop :=
  i ≤ l.firstIndex ∨ v.take i = L.take i

/-- Equal terms above the sentinel mean equal logs up to there. -/
theorem LogRel.agree (hl : LogRel l v) (hv : Good LogEntry.term g v) (hL : Good LogEntry.term g L)
    (hf : l.firstIndex < i) (he : L[i - 1]? = some e) (ht : l.term i = some e.term) :
    v.take i = L.take i := by
  rw [hl.term hf] at ht
  obtain ⟨e', he', hte⟩ := Option.map_eq_some_iff.mp ht
  have := hv.take_eq hL le_rfl he' he hte
  rwa [show i - 1 + 1 = i by omega] at this

/-! ## The walk over the entries -/

inductive MergeEnd (l : RaftLog) (v L : List LogEntry) (prev len k : ℕ) : Option ℕ → Prop
  | done (h : k = len) : MergeEnd l v L prev len k none
  | past (h : k < len) (hlast : l.lastIndex = prev + k) : MergeEnd l v L prev len k none
  | conflict (h : k < len) (hf : l.firstIndex ≤ prev + k) (hlast : prev + k < l.lastIndex)
      {e e' : LogEntry} (he : v[prev + k]? = some e) (he' : L[prev + k]? = some e')
      (hne : e.term ≠ e'.term) : MergeEnd l v L prev len k (some (prev + 1 + k))

theorem mergeLoop_spec (hl : LogRel l v) (hv : Good LogEntry.term g v)
    (hL : Good LogEntry.term g L) {es : List LogEntry} {prev : ℕ}
    (hseg : es = (L.drop prev).take es.length) (hidx : Consecutive prev es)
    (hlast : prev ≤ l.lastIndex) (ha : Agree l v L prev) :
    ∃ k ≤ es.length, (Node.mergeLoop l es).2 = es.drop k ∧ Agree l v L (prev + k) ∧
      MergeEnd l v L prev es.length k (Node.mergeLoop l es).1 := by
  have hget : ∀ {i : ℕ} {e : LogEntry}, es[i]? = some e → L[prev + i]? = some e := by
    intro i e he
    have hi := (List.getElem?_eq_some_iff.mp he).1
    rw [hseg, List.getElem?_take_of_lt hi, List.getElem?_drop] at he
    exact he
  obtain ⟨k, hk, hnew, hold, hstop⟩ := Node.mergeLoop_walk hl.wf es prev hidx hlast
  refine ⟨k, hk, hnew, ?_, ?_⟩
  · -- the last entry that was passed over decides
    cases k with
    | zero => exact ha
    | succ j =>
      obtain ⟨e, he⟩ := exists_getElem (show j < es.length by omega)
      have hi := hidx j e he
      rcases hold j e (by omega) he with hf | ht
      · exact Or.inl (by omega)
      · by_cases hf : prev + (j + 1) ≤ l.firstIndex
        · exact Or.inl hf
        · rw [hi, show prev + 1 + j = prev + (j + 1) by omega] at ht
          exact Or.inr (hl.agree hv hL (by omega) (hget he) ht)
  · generalize (Node.mergeLoop l es).1 = res at hstop ⊢
    cases hstop with
    | done h _ => exact .done h
    | past h h' => exact .past h h'
    | @conflict e he hf h' hne =>
      have hlen := hl.lastIndex
      obtain ⟨e', he'⟩ := exists_getElem (show prev + k < v.length by omega)
      refine .conflict (List.getElem?_eq_some_iff.mp he).1 hf h' he' (hget he) fun heq => hne ?_
      rw [hl.term (by omega), show prev + 1 + k - 1 = prev + k by omega, he', Option.map_some, heq]

/-! ## Taking over a prefix of the leader's log -/

section Follow

variable {src : ℕ} {req : AppendEntriesRequest}

/-- What is committed on the node is in the log of the term it follows. -/
theorem Setting.Up.base_prefix (hi : K.cfg.Inv g) (h : K.Up g floor p n d ms)
    (hled : g.leader n.currentTerm ≠ none) : ∃ c, K.Base g n.currentTerm n.log (g.log p) c ∧
      c.length = n.commitIndex ∧ c <+: g.tlog n.currentTerm := by
  obtain ⟨c, hc, hlen⟩ := h.core.base
  exact ⟨c, hc, hlen, hi.committed_tlog hc.committed hled⟩

theorem Setting.Up.accept (hi : K.cfg.Inv g) (h : K.Up g floor p n d ms)
    (hr : n.role = .follower) (hled : g.leader n.currentTerm = some src) (hne : src ≠ p) (i : ℕ)
    (l' : RaftLog) {d' : Disk} (hsent : l'.sentinel = n.log.sentinel) (hwf : l'.WF)
    (hreals : l'.reals = ((g.tlog n.currentTerm).take i).drop n.log.firstIndex)
    (hci : n.commitIndex ≤ i) (hiL : i ≤ (g.tlog n.currentTerm).length)
    (hkeep : ∀ q, q <+: g.log p → q <+: g.tlog n.currentTerm →
      q <+: (g.tlog n.currentTerm).take i)
    (hd : K.OnDisk g n.currentTerm n.votedFor l' n.commitIndex d') :
    ∃ g', K.cfg.Acts p g g' ∧ g'.log p = (g.tlog n.currentTerm).take i ∧ g'.tlog = g.tlog ∧
      K.Up g' floor p { n with log := l' } d' ms := by
  obtain ⟨c, hc, hlen, hpre⟩ := h.base_prefix hi (by simp [hled])
  set L := g.tlog n.currentTerm with hL
  set g₁ : Ghost := { g with log := Function.update g.log p (L.take i) } with hg₁
  have hs : K.cfg.Acts p g g₁ := .single
    (.accept n.currentTerm src _ h.core.vote.term hled hne (List.take_prefix _ _) hkeep)
  obtain ⟨hi₁, hgr⟩ := hi.steps hs
  have hlog : g₁.log p = L.take i := by simp [hg₁]
  have hfirst : l'.firstIndex = n.log.firstIndex := by rw [RaftLog.firstIndex, hsent]; rfl
  have hfi := hc.first_le
  have hct : c = L.take c.length := List.prefix_iff_eq_take.mp hpre
  obtain ⟨j, hdel, hpn⟩ := h.delivered
  refine ⟨g₁, hs, hlog, rfl, ⟨h.mem, h.id, h.peers, ⟨{ h.core.vote with }, ?_, ⟨c, ?_, hlen⟩,
    hd.mono hi hgr le_rfl⟩, ?_, h.applied_le, h.cache.imp_right fun hs => hs.mono hi hgr le_rfl,
    ⟨j, hdel.mono hi hgr le_rfl, hpn⟩,
    fun snap hs => ⟨(h.pending snap hs).1.mono hi hgr le_rfl, (h.pending snap hs).2⟩,
    fun hr' => ?_, fun hr' => ?_, h.running⟩⟩
  · rw [hlog]
    refine ⟨hwf, ?_, by rw [hreals, hfirst], fun heq => ?_⟩
    · rw [hfirst, List.length_take]; omega
    · rw [hfirst, List.length_take, min_eq_left hiL] at heq
      change l'.sentinel.term = _
      rw [hsent, hc.sentinel, prefix_take_take hpre hfi, heq]
  · rw [hlog]
    refine ⟨hc.committed.mono hi hgr le_rfl, by rw [hfirst]; exact hfi, ?_, ?_, fun _ => ?_⟩
    · change l'.sentinel.term = _
      rw [hsent, hfirst, hc.sentinel]
    · change l'.reals.take _ = _
      rw [hreals, hfirst, ← List.drop_take, List.take_take, min_eq_left (by omega), ← hct]
    · rw [hct]
      exact List.take_prefix_take_left (by omega)
  · change l'.firstIndex ≤ _
    rw [hfirst]; exact h.first_le
  · exact absurd (hr.symm.trans hr') (by simp)
  · exact absurd (hr.symm.trans hr') (by simp)

/-! ## Commit and acknowledgement -/

@[simp] theorem Node.advanceCommit_term (n : Node) (req : AppendEntriesRequest) :
    (n.advanceCommit req).currentTerm = n.currentTerm := by
  unfold Node.advanceCommit
  split <;> rfl

/-- A node whose log agrees with its term's log up to `i` may acknowledge it. -/
theorem Setting.Up.acknowledge (hi : K.cfg.Inv g) (h : K.Up g floor p n d ms)
    (hled : g.leader n.currentTerm ≠ none) (hiL : i ≤ (g.tlog n.currentTerm).length)
    (hag : (g.log p).take i = (g.tlog n.currentTerm).take i) :
    ∃ g', K.cfg.Acts p g g' ∧ K.Up g' floor p n d ms ∧ g'.tlog = g.tlog ∧
      i ≤ g'.ack n.currentTerm p := by
  set T := n.currentTerm with hT
  set g₁ : Ghost := { g with ack := set2 g.ack T p (max i (g.ack T p)) } with hg₁
  have hs : K.cfg.Acts p g g₁ := .single
    (.ack T i h.core.vote.term hled hiL (hag ▸ List.take_prefix _ _))
  have hsame : SameAt p g g₁ := ⟨rfl, rfl, fun _ => rfl, fun _ => rfl, fun _ => Iff.rfl,
    fun _ _ => ⟨rfl, rfl⟩⟩
  exact ⟨g₁, hs, h.frame hi hsame (hi.steps hs).2 fun _ _ => le_rfl, rfl,
    (set2_self g.ack _ _ _).ge.trans' (le_max_left _ _)⟩

theorem Setting.Up.advanceCommit (hi : K.cfg.Inv g) (h : K.Up g floor p n d ms)
    (hr : n.role = .follower) (hreq : AppendOK g src req) (ht : n.currentTerm = req.term)
    (hfl : n.log.firstIndex ≤ floor₂ p)
    (hag : Agree n.log (g.log p) (g.tlog req.term) (req.prevLogIndex + req.entries.length)) :
    ∃ g', K.cfg.Acts p g g' ∧ K.Up g' floor p (n.advanceCommit req) d ms ∧
      K.MatchOK g' floor₂ req.term p (req.prevLogIndex + req.entries.length) ∧
      (req.prevLogIndex + req.entries.length ≤ floor₂ p ∨
        req.prevLogIndex + req.entries.length ≤ g'.ack req.term p) := by
  set i := req.prevLogIndex + req.entries.length with hidef
  have hled : g.leader n.currentTerm ≠ none := by rw [ht, hreq.leader]; simp
  obtain ⟨c, hc, hlen, hpre⟩ := h.base_prefix hi hled
  obtain ⟨c', hc', hlen'⟩ := hreq.commit
  have hpre' : c' <+: g.tlog req.term := hi.committed_tlog hc' (by rw [hreq.leader]; simp)
  rw [ht] at hpre
  have hfi := hc.first_le
  have hup : K.Up g floor p (n.advanceCommit req) d ms := by
    unfold Node.advanceCommit
    split
    · rename_i hlt
      set ci := min req.leaderCommit (max i n.commitIndex) with hci
      have hcile : n.commitIndex ≤ ci := by omega
      have hbase : ∃ b, K.Base g n.currentTerm n.log (g.log p) b ∧ b.length = ci := by
        rcases hcile.eq_or_lt with heq | hgt
        · exact ⟨c, hc, by omega⟩
        · -- the log agrees with the leader's beyond the old commit index
          have hagi : (g.log p).take i = (g.tlog req.term).take i :=
            hag.resolve_left (by omega)
          have hb : c'.take ci = (g.log p).take ci := by
            rw [prefix_take_take hpre' (by omega)]
            have := congrArg (List.take ci) hagi
            rw [List.take_take, List.take_take, min_eq_left (by omega)] at this
            exact this.symm
          have hblen : (c'.take ci).length = ci := by rw [List.length_take]; omega
          refine ⟨c'.take ci, ⟨ht ▸ hc'.shorter (List.take_prefix _ _), ?_, ?_, ?_, fun _ => ?_⟩,
            ?_⟩
          · omega
          · rw [hc.sentinel, prefix_take_take hpre hfi, List.take_take, min_eq_left (by omega),
              prefix_take_take hpre' (by omega)]
          · rw [hblen, hb, h.core.log.reals, List.drop_take]
          · rw [hb]; exact List.take_prefix _ _
          · exact hblen
      exact { h with
        core := { h.core with base := hbase, disk := h.core.disk.mono hi (Grows.refl g) hcile }
        applied_le := h.applied_le.trans hcile
        lead := fun hl => absurd (hr.symm.trans hl) (by simp) }
    · exact h
  rcases hag with hle | hagi
  · -- below the sentinel everything is committed
    have hheld := hle.trans hfl
    refine ⟨g, .refl, hup, ⟨hreq.le, fun j hj ho => Or.inl ?_, fun _ => Or.inl hheld⟩, .inl hheld⟩
    exact hi.own_committed (ht ▸ hc.committed) ho (by omega)
  · obtain ⟨g₁, hs, hup₁, htl, hack⟩ := hup.acknowledge hi (i := i) (by simpa using hled)
      (by simpa [ht] using hreq.le) (by simpa [ht] using hagi)
    simp only [Node.advanceCommit_term, ht] at hack
    exact ⟨g₁, hs, hup₁, ⟨by rw [htl]; exact hreq.le, fun j hj _ => Or.inr (hj.trans hack),
      fun _ => Or.inr hack⟩, .inr hack⟩

/-! ## Writing the entries -/

/-- A log whose sentinel is its end, or that agrees with the leader's to its end, is a prefix of
the leader's. -/
theorem Setting.Up.eq_take_of_agree (hi : K.cfg.Inv g) (h : K.Up g floor p n d ms)
    (hled : g.leader n.currentTerm ≠ none)
    (hag : Agree n.log (g.log p) (g.tlog n.currentTerm) n.log.lastIndex) :
    g.log p = (g.tlog n.currentTerm).take n.log.lastIndex := by
  have hlast := h.core.log.lastIndex
  rcases hag with hle | heq
  · obtain ⟨c, hc, -, hpre⟩ := h.base_prefix hi hled
    have hfi := hc.first_le
    have hfirst : n.log.firstIndex = (g.log p).length := by
      have := h.core.log.first_le
      omega
    rw [hlast, ← hfirst, ← prefix_take_take hpre hfi]
    rcases Nat.eq_zero_or_pos n.log.firstIndex with h0 | hpos
    · rw [h0, List.take_zero, ← List.length_eq_zero_iff]
      omega
    · -- both end in the sentinel's term, so both are the same prefix of that term's log
      obtain ⟨e, he⟩ := exists_getElem (show n.log.firstIndex - 1 < (g.log p).length by omega)
      obtain ⟨e', he'⟩ := exists_getElem (show n.log.firstIndex - 1 < c.length by omega)
      have ht : e.term = e'.term := by
        have h1 := h.core.log.sentinel hfirst
        rw [hc.sentinel, logTerm_take hpos he', ← List.take_length (l := g.log p), ← hfirst,
          logTerm_take hpos he] at h1
        exact h1.symm
      have := (hi.good_log p).1.take_eq (hi.committed_good hc.committed) le_rfl he he' ht
      rwa [show n.log.firstIndex - 1 + 1 = n.log.firstIndex by omega, hfirst,
        List.take_length, ← hfirst] at this
  · rwa [hlast, List.take_length, ← hlast] at heq

/-- Some of the entries that follow the end of the log are written. -/
theorem Setting.Up.extend (hi : K.cfg.Inv g) (h : K.Up g floor p n d ms)
    (hr : n.role = .follower) (hled : g.leader n.currentTerm = some src) (hne : src ≠ p) {m : ℕ}
    (es : List LogEntry) (hm : n.log.lastIndex = m) (hlog : g.log p = (g.tlog n.currentTerm).take m)
    (hseg : es = ((g.tlog n.currentTerm).drop m).take es.length)
    (hle : m + es.length ≤ (g.tlog n.currentTerm).length)
    (hidx : ∀ k e, es[k]? = some e → e.index = m + 1 + k) :
    ∃ g', K.cfg.Acts p g g' ∧ g'.log p = (g.tlog n.currentTerm).take (m + es.length) ∧
      g'.tlog = g.tlog ∧
      K.Up g' floor p { n with log := n.log.append es } (d.run (.appendEntries es)) ms := by
  have hlast := h.core.log.lastIndex
  have hci : n.commitIndex ≤ m := by
    obtain ⟨c, hc, hlen⟩ := h.core.base
    have := hc.le_length h.core.log
    omega
  have hfirst := h.core.log.first_le
  refine h.accept hi hr hled hne _ _ rfl (h.core.log.wf.append fun k e he => ?_) ?_ (by omega) hle
    (fun q hq hq' => ?_) (h.core.disk.append es)
  · rw [hm]; exact hidx k e he
  · rw [RaftLog.append_reals, h.core.log.reals, List.take_add, ← hseg,
      List.drop_append_of_le_length (by rw [← hlog]; exact hfirst), ← hlog]
  · have := hq.length_le
    exact List.prefix_of_prefix_length_le hq' (List.take_prefix _ _)
      (by rw [List.length_take]; omega)

theorem Setting.Up.appendNew (hi : K.cfg.Inv g) (h : K.Up g floor p n d ms)
    (hlo : lo ≤ n.log.firstIndex) (hr : n.role = .follower) (hreq : AppendOK g src req)
    (hne : src ≠ p) (ht : n.currentTerm = req.term) (hfl : n.log.firstIndex ≤ floor₂ p) {k : ℕ}
    (hk : k ≤ req.entries.length) (hm : n.log.lastIndex = req.prevLogIndex + k)
    (hlog : g.log p = (g.tlog req.term).take (req.prevLogIndex + k)) :
    K.Lands g floor p lo d ms (n.appendNew noFail req (req.entries.drop k)).1 fun g' =>
      K.AppendAnswerOK g' floor₂ p req (n.appendNew noFail req (req.entries.drop k)).2 := by
  have hle := hreq.le
  have hlod : lo ≤ d.image.index := hlo.trans h.core.disk.first_le
  unfold Node.appendNew
  split
  · rename_i hnil
    have hkl : k = req.entries.length := by
      have := List.drop_eq_nil_iff.mp hnil
      omega
    obtain ⟨g₁, hs, hup, hmatch, hheld⟩ := h.advanceCommit hi hr hreq ht hfl
      (Or.inr (by rw [← hkl, hlog, List.take_take, min_self]))
    exact .quiet (h.down hi) hs hup (by rwa [Node.advanceCommit_log]) (by simp)
      ⟨fun _ => hmatch, fun _ => hheld, by simp⟩
  simp only [noFail, Bool.false_eq_true, if_false]
  -- every part of the new entries is a segment of the leader's log
  have hext : ∀ r, r ≤ req.entries.length - k → ∃ g', K.cfg.Acts p g g' ∧
      g'.log p = (g.tlog req.term).take (req.prevLogIndex + k + r) ∧ g'.tlog = g.tlog ∧
      K.Up g' floor p { n with log := n.log.append ((req.entries.drop k).take r) }
        (d.run (.appendEntries ((req.entries.drop k).take r))) ms := by
    intro r hrle
    have hlen : ((req.entries.drop k).take r).length = r := by
      rw [List.length_take, List.length_drop]; omega
    have hseg : (req.entries.drop k).take r =
        ((g.tlog n.currentTerm).drop (req.prevLogIndex + k)).take r := by
      rw [ht]
      conv_lhs => rw [hreq.entries]
      rw [List.drop_take, List.take_take, List.drop_drop, min_eq_left (by omega)]
    obtain ⟨g', hs, hl, htl, hu⟩ := h.extend hi hr (ht ▸ hreq.leader) hne
      ((req.entries.drop k).take r) hm (ht ▸ hlog) (by rw [hlen]; exact hseg)
      (by rw [hlen, ht]; omega) fun j e he => by
        have hj := (List.getElem?_eq_some_iff.mp he).1
        rw [List.getElem?_take_of_lt (by omega), List.getElem?_drop] at he
        have := hreq.index _ e he
        omega
    exact ⟨g', hs, by rw [hl, hlen, ht], htl, hu⟩
  have hall : (req.entries.drop k).take (req.entries.length - k) = req.entries.drop k :=
    List.take_of_length_le (by rw [List.length_drop])
  obtain ⟨g₁, hs₁, hlog₁, htl₁, hup₁⟩ := hext _ le_rfl
  rw [hall] at hup₁
  obtain ⟨hi₁, hgr₁⟩ := hi.steps hs₁
  have hland : K.Lands g floor p lo d ms
      { node := { n with log := n.log.append (req.entries.drop k) }
        calls := [.appendEntries (req.entries.drop k)] }
      fun g' => g'.log p = (g'.tlog req.term).take (req.prevLogIndex + req.entries.length) := by
    refine ⟨⟨g₁, hs₁, hup₁, by simp, ?_⟩, hlo,
      crashSafe_cons (fun r => ?_) ⟨g₁, hs₁, crashSafe_nil (hup₁.down hi₁) hlod⟩⟩
    · rw [hlog₁, htl₁]; congr 1; omega
    · rw [d.write_append]
      obtain ⟨g₂, hs₂, -, -, hup₂⟩ := hext (min r (req.entries.length - k)) (min_le_right _ _)
      have hmin : (req.entries.drop k).take (min r (req.entries.length - k)) =
          (req.entries.drop k).take r := by
        rw [← List.length_drop, ← List.take_eq_take_min]
      rw [hmin] at hup₂
      exact ⟨g₂, hs₂, hup₂.down (hi.steps hs₂).1, hlod⟩
  refine .bind hi hland
    (e := { node := Node.advanceCommit { n with log := n.log.append (req.entries.drop k) } req })
    fun g₂ hi₂ hgr₂ hlog₂ hu hlo => ?_
  obtain ⟨g₃, hs₃, hup₃, hmatch, hheld⟩ := hu.advanceCommit hi₂ hr (hreq.mono hi hgr₂) ht hfl
    (Or.inr (by rw [hlog₂, List.take_take, min_self]))
  exact .quiet (hu.down hi₂) hs₃ hup₃ (by rwa [Node.advanceCommit_log]) (by simp)
      ⟨fun _ => hmatch, fun _ => hheld, by simp⟩

/-- A conflicting entry and everything after it are dropped. -/
theorem Setting.Up.cut (hi : K.cfg.Inv g) (h : K.Up g floor p n d ms) (hlo : lo ≤ n.log.firstIndex)
    (hr : n.role = .follower) (hled : g.leader n.currentTerm = some src) (hne : src ≠ p) {m : ℕ}
    (hf : n.log.firstIndex ≤ m) {e' : LogEntry} (he : (g.log p)[m]? = some e)
    (he' : (g.tlog n.currentTerm)[m]? = some e') (hte : e.term ≠ e'.term)
    (hag : Agree n.log (g.log p) (g.tlog n.currentTerm) m) : K.Lands g floor p lo d ms
      { node := { n with log := n.log.truncateFrom (m + 1) }, calls := [.truncateFrom (m + 1)] }
      fun g' => g'.log p = (g.tlog n.currentTerm).take m := by
  set L := g.tlog n.currentTerm with hL
  have hmL := (List.getElem?_eq_some_iff.mp he').1
  have hreals : (n.log.truncateFrom (m + 1)).reals = (L.take m).drop n.log.firstIndex := by
    rw [RaftLog.truncateFrom_reals (by omega), h.core.log.reals,
      show m + 1 - n.log.firstIndex - 1 = m - n.log.firstIndex by omega, ← List.drop_take]
    rcases hag with hle | heq
    · obtain rfl : m = n.log.firstIndex := le_antisymm hle hf
      simp
    · rw [heq]
  have hci : n.commitIndex ≤ m := by
    obtain ⟨c, hc, hlen, hpre⟩ := h.base_prefix hi (by simp [hled])
    by_contra hlt
    have h1 := hc.getElem h.core.log hf (by omega)
    obtain ⟨r, hr⟩ := hpre
    rw [← hL] at hr
    rw [← hr, List.getElem?_append_left (by omega), ← h1, he] at he'
    exact hte (congrArg LogEntry.term (Option.some.inj he'))
  -- a common prefix ends before the conflict
  have hkeep : ∀ q, q <+: g.log p → q <+: L → q <+: L.take m := by
    intro q hq hq'
    refine List.prefix_of_prefix_length_le hq' (List.take_prefix _ _) ?_
    rw [List.length_take, min_eq_left hmL.le]
    by_contra hlt
    have h1 := (List.prefix_iff_getElem?.mp hq) m (by omega)
    have h2 := (List.prefix_iff_getElem?.mp hq') m (by omega)
    rw [he] at h1
    rw [he', ← h1] at h2
    exact hte (congrArg LogEntry.term (Option.some.inj h2)).symm
  obtain ⟨g₁, hs, hlog, -, hup⟩ := h.accept hi hr hled hne m (n.log.truncateFrom (m + 1)) rfl
    (h.core.log.wf.truncateFrom (m + 1)) hreals hci hmL.le hkeep
    (h.core.disk.truncate h.core.log.wf (by omega))
  have hlod : lo ≤ d.image.index := hlo.trans h.core.disk.first_le
  refine ⟨⟨g₁, hs, hup, by simp, hlog⟩, hlo, crashSafe_cons (fun r => ?_)
    ⟨g₁, hs, crashSafe_nil (hup.down (hi.steps hs).1) hlod⟩⟩
  rcases d.write_truncate r (m + 1) with hw | hw <;> rw [hw]
  · exact ⟨g, .refl, h.down hi, hlod⟩
  · exact ⟨g₁, hs, hup.down (hi.steps hs).1, hlod⟩

theorem Setting.Up.mergeEntries (hi : K.cfg.Inv g) (h : K.Up g floor p n d ms)
    (hlo : lo ≤ n.log.firstIndex) (hr : n.role = .follower) (hreq : AppendOK g src req)
    (hne : src ≠ p) (ht : n.currentTerm = req.term) (hfl : n.log.firstIndex ≤ floor₂ p)
    (hle : req.prevLogIndex ≤ n.log.lastIndex)
    (hag : Agree n.log (g.log p) (g.tlog req.term) req.prevLogIndex) :
    K.Lands g floor p lo d ms (n.mergeEntries noFail req).1 fun g' =>
      K.AppendAnswerOK g' floor₂ p req (n.mergeEntries noFail req).2 := by
  obtain ⟨k, hk, hnew, hagk, hend⟩ := mergeLoop_spec h.core.log (hi.good_log p).1
    (hi.good_tlog req.term) hreq.entries hreq.index hle hag
  unfold Node.mergeEntries
  generalize Node.mergeLoop n.log req.entries = res at hnew hend ⊢
  obtain ⟨cut, new⟩ := res
  simp only at hnew hend
  subst hnew
  cases hend with
  | done hkl =>
    obtain ⟨g₁, hs, hup, hmatch, hheld⟩ := h.advanceCommit hi hr hreq ht hfl (hkl ▸ hagk)
    have hnil : req.entries.drop k = [] := List.drop_of_length_le hkl.ge
    simp only [hnil, Node.appendNew, if_true]
    exact .quiet (h.down hi) hs hup (by rwa [Node.advanceCommit_log]) (by simp)
      ⟨fun _ => hmatch, fun _ => hheld, by simp⟩
  | past hlt hlast =>
    refine h.appendNew hi hlo hr hreq hne ht hfl hk hlast ?_
    have := h.eq_take_of_agree hi (by rw [ht, hreq.leader]; simp) (by rw [hlast, ht]; exact hagk)
    rwa [hlast, ht] at this
  | @conflict hlt hf hlast e e' he he' hte =>
    rw [show req.prevLogIndex + 1 + k = req.prevLogIndex + k + 1 by omega]
    simp only [noFail, Bool.false_eq_true, if_false]
    refine .bind hi (h.cut hi hlo hr (ht ▸ hreq.leader) hne hf he (ht ▸ he') hte (ht ▸ hagk))
      fun g₁ hi₁ hgr₁ hlog₁ hu hlo => ?_
    have hmL := (List.getElem?_eq_some_iff.mp he').1
    have htl : (g₁.tlog req.term).take (req.prevLogIndex + k) =
        (g.tlog req.term).take (req.prevLogIndex + k) := hi.take_tlog hgr₁ (by omega)
    rw [ht, ← htl] at hlog₁
    refine hu.appendNew hi₁ hlo hr (hreq.mono hi hgr₁) hne ht hfl hk ?_ hlog₁
    rw [hu.core.log.lastIndex, hlog₁, htl, List.length_take, min_eq_left (by omega)]

/-! ## Refusals -/

theorem Setting.Up.sorted (hi : K.cfg.Inv g) (h : K.Up g floor p n d ms) : n.log.Sorted := by
  intro a b e e' hab he he'
  rw [h.core.log.reals, List.getElem?_drop] at he he'
  exact hi.good_sorted (hi.good_log p).1 (by omega) he he'

/-- Where entries of the sentinel's own term are held, they start right above it. -/
theorem Setting.Up.first_of_sentinel (hi : K.cfg.Inv g) (h : K.Up g floor p n d ms) {t : ℕ}
    (ht : n.log.term n.log.firstIndex = some t) (hne : (n.log.indexesOf t).Nonempty) :
    n.log.firstIndex + 1 ∈ n.log.indexesOf t := by
  have hrel := h.core.log
  obtain ⟨c, hc, -⟩ := h.core.base
  have hfc := hc.first_le
  have hget : ∀ j, n.log.reals[j]? = (g.log p)[n.log.firstIndex + j]? := fun j => by
    rw [hrel.reals, List.getElem?_drop]
  rw [hrel.wf.term_first, hc.sentinel] at ht
  obtain ⟨_, hmem⟩ := hne
  obtain ⟨k, e, hk, hte, -⟩ := hrel.wf.mem_indexesOf.mp hmem
  have hlen := (List.getElem?_eq_some_iff.mp hk).1
  obtain ⟨e₀, he₀⟩ := exists_getElem (show 0 < n.log.reals.length by omega)
  refine hrel.wf.mem_indexesOf.mpr ⟨0, e₀, he₀, le_antisymm ?_ ?_, rfl⟩
  · exact hte ▸ h.sorted hi 0 k e₀ e k.zero_le he₀ hk
  rcases Nat.eq_zero_or_pos n.log.firstIndex with hz | hz
  · rw [hz, List.take_zero] at ht
    exact (Option.some.inj ht).symm.le.trans (Nat.zero_le _)
  -- an entry of the sentinel's term holds the compacted entry at its place
  obtain ⟨e₁, he₁⟩ := exists_getElem (show n.log.firstIndex - 1 < c.length by omega)
  rw [logTerm_take hz he₁] at ht
  have ht₁ : e₁.term = t := Option.some.inj ht
  have htake := (hi.good_log p).1.take_eq (hi.committed_good hc.committed)
    (show n.log.firstIndex - 1 ≤ _ by omega) ((hget k).symm.trans hk) he₁ (hte.trans ht₁.symm)
  have hv₁ : (g.log p)[n.log.firstIndex - 1]? = some e₁ := by
    have := congrArg (·[n.log.firstIndex - 1]?) htake
    simpa [List.getElem?_take_of_lt, he₁] using this
  have := hi.good_sorted (hi.good_log p).1 (Nat.sub_le _ 1) hv₁ ((hget 0).symm.trans he₀)
  omega

/-- The hint of a refusal never points past the probed index. -/
theorem Setting.Up.firstIndexOfTerm_le (hi : K.cfg.Inv g) (h : K.Up g floor p n d ms) {t : ℕ}
    (hf : n.log.firstIndex ≤ i) (ht : n.log.term i = some t) :
    n.log.firstIndexOfTerm t ≤ i + 1 := by
  have hwf := h.core.log.wf
  by_cases hz : n.log.firstIndexOfTerm t = 0
  · omega
  have hmem := RaftLog.firstIndexOfTerm_mem hz
  rcases hf.eq_or_lt with rfl | hlt
  · exact hwf.firstIndexOfTerm_le (h.sorted hi) (h.first_of_sentinel hi ht ⟨_, hmem⟩)
  · exact (hwf.firstIndexOfTerm_le (h.sorted hi) (hwf.mem_of_term hlt ht)).trans i.le_succ

theorem Setting.Up.appendLocked (hi : K.cfg.Inv g) (h : K.Up g floor p n d ms)
    (hlo : lo ≤ n.log.firstIndex) (hr : n.role = .follower) (hreq : AppendOK g src req)
    (hne : src ≠ p) (ht : n.currentTerm = req.term) (hfl : n.log.firstIndex ≤ floor₂ p) :
    K.Lands g floor p lo d ms (n.appendLocked noFail req).1 fun g' =>
      K.AppendAnswerOK g' floor₂ p req (n.appendLocked noFail req).2 := by
  have hlast := h.core.log.lastIndex
  have hle := hreq.le
  unfold Node.appendLocked
  split
  · refine .quiet (h.down hi) .refl h hlo (by simp) ⟨by simp, by simp, ?_⟩
    change n.log.lastIndex + 1 ≤ _
    omega
  rename_i hnl
  split
  · rename_i hc
    obtain ⟨t, hterm⟩ : ∃ t, n.log.term req.prevLogIndex = some t := by
      rcases hc.1.eq_or_lt with heq | hlt
      · exact ⟨_, heq ▸ h.core.log.wf.term_first⟩
      · rw [h.core.log.term hlt, List.getElem?_eq_getElem (by omega)]
        exact ⟨_, rfl⟩
    refine .quiet (h.down hi) .refl h hlo (by simp)
      ⟨by simp [Node.conflict], by simp [Node.conflict], ?_⟩
    have := h.firstIndexOfTerm_le hi hc.1 hterm
    simp only [Node.conflict, hterm, Option.getD_some]
    split
    · omega
    · exact this
  · rename_i hc
    refine h.mergeEntries hi hlo hr hreq hne ht hfl (by omega) ?_
    by_cases hf : req.prevLogIndex ≤ n.log.firstIndex
    · exact Or.inl hf
    · simp only [not_and, not_not] at hc
      obtain ⟨e, he⟩ : ∃ e, (g.tlog req.term)[req.prevLogIndex - 1]? = some e :=
        ⟨_, List.getElem?_eq_getElem (by omega)⟩
      refine Or.inr (h.core.log.agree (hi.good_log p).1 (hi.good_tlog _) (by omega) he ?_)
      rw [hc (by omega), hreq.prevTerm, logTerm_take (by omega) he]

theorem Setting.Up.handleAppendEntries (hi : K.cfg.Inv g) (h : K.Up g floor p n d ms)
    (hlo : lo ≤ n.log.firstIndex) (hreq : AppendOK g src req) (hne : src ≠ p)
    (hfl : n.log.firstIndex ≤ floor₂ p) :
    K.Lands g floor p lo d ms (n.handleAppendEntries noFail req).1 fun g' =>
      K.AppendAnswerOK g' floor₂ p req (n.handleAppendEntries noFail req).2 := by
  unfold Node.handleAppendEntries
  split
  · exact .quiet (h.down hi) .refl h hlo (by simp) ⟨by simp, by simp, Nat.zero_le _⟩
  simp only
  have ha := h.adoptTerm hi hlo req.term
  have hterm := n.adoptTerm_term req.term
  split
  · exact ha.imp fun _ _ => ⟨by simp, by simp, Nat.zero_le _⟩
  · refine .bind hi ha fun g₁ hi₁ hgr₁ _ hu hlo => ?_
    have hu' := hu.settled hi₁ ((n.adoptTerm req.term).node.followLeader req.leaderId) rfl rfl rfl
      (Or.inl rfl)
    refine hu'.appendLocked hi₁ hlo rfl (hreq.mono hi hgr₁) hne ?_ ?_
    · change (n.adoptTerm req.term).node.currentTerm = _
      omega
    · change (n.adoptTerm req.term).node.log.firstIndex ≤ _
      rw [n.adoptTerm_log]
      exact hfl

end Follow

end KMC
