import KillMyCluster.Sim.Append

/-! InstallSnapshot, local snapshots and the applier keep the relation. -/

namespace KMC

open LeaderLog

variable {K : Setting} {g g' : Ghost} {floor : ℕ → ℕ} {p lo i src : ℕ} {n : Node} {d : Disk}
  {ms : List ApplyMsg} {l : RaftLog} {v c : List LogEntry} {T : ℕ}

/-! ## Installing -/

/-- The log after `compactTo` at a snapshot that stands for `c`. A log that ends below the
snapshot is taken to be `c`; a longer one is kept as it is. -/
theorem LogRel.install (h : LogRel l v) (hv : Good LogEntry.term g v)
    (hc : Good LogEntry.term g c) (hcm : Committed g T c) (hf : l.firstIndex < c.length)
    (hfresh : K.fresh → l.lastIndex ≤ c.length ∨ l.term c.length = some (logTerm c))
    {v' : List LogEntry}
    (hv' : v' = if v.length ≤ c.length then c else v) :
    LogRel (l.compactTo c.length (logTerm c)) v' ∧
      K.Base g T (l.compactTo c.length (logTerm c)) v' c := by
  have hlast := h.lastIndex
  rw [h.wf.compactTo hf]
  set l' : RaftLog := ⟨⟨c.length, logTerm c, []⟩, l.reals.drop (c.length - l.firstIndex)⟩ with hl'
  have hfirst : l'.firstIndex = c.length := rfl
  have hreals : l'.reals = v.drop c.length := by
    change l.reals.drop _ = _
    rw [h.reals, List.drop_drop]; congr 1; omega
  have hwf : l'.WF := by
    have := h.wf.compactTo_wf c.length (logTerm c)
    rwa [h.wf.compactTo hf] at this
  refine ⟨⟨hwf, ?_, ?_, fun heq => ?_⟩, hcm, hfirst.le, ?_, ?_, fun hfr => ?_⟩
  · rw [hv', hfirst]; split <;> omega
  · rw [hreals, hv', hfirst]
    split
    · rw [List.drop_length, List.drop_of_length_le (by omega)]
    · rfl
  · rw [hv']
    split
    · rfl
    · rw [hv', if_neg (by assumption), hfirst] at heq; omega
  · rw [hfirst, List.take_length]
  · rw [hfirst, Nat.sub_self, List.take_zero, List.drop_length]
  · rw [hv']
    split
    · exact List.prefix_rfl
    · -- the terms at the snapshot point were compared, so the logs agree up to it
      have hterm := (hfresh hfr).resolve_left (by omega)
      obtain ⟨e, he⟩ := exists_getElem (show c.length - 1 < c.length by omega)
      have ht : logTerm c = e.term := by
        have := logTerm_take (L := c) (i := c.length) (by omega) he
        rwa [List.take_length] at this
      have := h.agree hv hc hf he (by rw [hterm, ht])
      rw [List.take_length] at this
      exact this ▸ List.take_prefix _ _

def Node.Agrees (n : Node) (req : InstallSnapshotRequest) : Prop :=
  n.log.lastIndex ≤ req.lastIncludedIndex ∨
    n.log.term req.lastIncludedIndex = some req.lastIncludedTerm

/-- A snapshot of what is committed already: the log holds what it covers. -/
theorem Setting.Up.installKnown (hi : K.cfg.Inv g) (h : K.Up g floor p n d ms)
    (hlo : lo ≤ n.log.firstIndex) (hled : g.leader n.currentTerm ≠ none) (hle : i ≤ n.commitIndex) :
    K.Lands g floor p lo d ms { node := n } fun g' =>
      i ≤ n.log.firstIndex ∨ i ≤ g'.ack n.currentTerm p := by
  obtain ⟨cb, hb, hblen, hbpre⟩ := h.base_prefix hi hled
  have hbf := hb.first_le
  by_cases hf : i ≤ n.log.firstIndex
  · exact .quiet (h.down hi) .refl h hlo (by simp) (Or.inl hf)
  obtain ⟨e, he⟩ : ∃ e, cb[i - 1]? = some e := ⟨_, List.getElem?_eq_getElem (by omega)⟩
  have hev := (hb.getElem h.core.log (i := i - 1) (by omega) (by omega)).trans he
  have htake : (g.log p).take i = (g.tlog n.currentTerm).take i := by
    have := (hi.good_log p).1.take_eq (hi.committed_good hb.committed) le_rfl hev he rfl
    rw [show i - 1 + 1 = i by omega] at this
    rw [this, prefix_take_take hbpre (by omega)]
  have hlen : i ≤ (g.tlog n.currentTerm).length := by
    have := hbpre.length_le
    omega
  obtain ⟨g₁, hst, hup₁, -, hack⟩ := h.acknowledge hi hled hlen htake
  exact .quiet (h.down hi) hst hup₁ hlo (by simp) (Or.inr hack)

/-- The abstract log follows a snapshot only where the real one was shorter. -/
theorem follow_snapshot {w : ℕ} (h : VoteRel g p T w) (hled : g.leader T = some src) (hne : src ≠ p)
    (hc : c <+: g.tlog T) : ∃ g₁ : Ghost, K.cfg.Acts p g g₁ ∧
      g₁.log p = (if (g.log p).length ≤ c.length then c else g.log p) ∧ VoteRel g₁ p T w := by
  split
  · rename_i hshort
    refine ⟨_, .single (.accept T src c h.term hled hne hc fun q hq hq' => ?_), by simp,
      { h with }⟩
    exact List.prefix_of_prefix_length_le hq' hc (hq.length_le.trans hshort)
  · exact ⟨g, .refl, rfl, h⟩

theorem Setting.Up.installLocked (hi : K.cfg.Inv g) (h : K.Up g floor p n d ms)
    (hlo : lo ≤ n.log.firstIndex) (hr : n.role = .follower) {req : InstallSnapshotRequest}
    (hled : g.leader req.term = some src) (hne : src ≠ p) (hsnap : K.SnapOK g req.term req.snap)
    (ht : n.currentTerm = req.term)
    (hfresh : K.fresh → n.commitIndex < req.lastIncludedIndex → n.Agrees req) :
    K.Lands g floor p lo d ms (n.installLocked noFail req).1 fun g' =>
      req.lastIncludedIndex ≤ (n.installLocked noFail req).1.node.log.firstIndex ∨
        req.lastIncludedIndex ≤ g'.ack req.term p := by
  have hlast := h.core.log.lastIndex
  have hcommit := h.first_le.trans h.applied_le
  unfold Node.installLocked
  split
  · rename_i hle
    rw [← ht]
    exact h.installKnown hi hlo (by rw [ht, hled]; simp) hle
  · rename_i hgt
    simp only [noFail, Bool.false_eq_true, if_false]
    obtain ⟨c, hcm, hclen, hcterm, hcst⟩ := hsnap
    have hclen' : c.length = req.lastIncludedIndex := hclen
    have hcterm' : req.lastIncludedTerm = logTerm c := hcterm
    have hcpre := hi.committed_tlog hcm (by rw [hled]; simp)
    replace hfresh : K.fresh → n.Agrees req := fun hfr => hfresh hfr (by omega)
    rw [Node.Agrees, ← hclen', hcterm'] at hfresh
    rw [← hclen', hcterm']
    have hf : n.log.firstIndex < c.length := by omega
    obtain ⟨g₁, hst, hlog₁, hoth⟩ :=
      follow_snapshot (K := K) h.core.vote (ht ▸ hled) hne (ht.symm ▸ hcpre)
    obtain ⟨hi₁, hgr⟩ := hi.steps hst
    obtain ⟨hrel, hbase⟩ := h.core.log.install (K := K) (T := n.currentTerm)
      (hi.good_log p).1 (hi.committed_good hcm) (ht ▸ hcm) hf hfresh hlog₁
    have hfirst : (n.log.compactTo c.length (logTerm c)).firstIndex = c.length := by
      rw [h.core.log.wf.compactTo hf]; rfl
    have hsn : K.SnapOK g₁ n.currentTerm ⟨c.length, logTerm c, req.data⟩ :=
      ⟨c, hcm.mono hi hgr (ht ▸ le_rfl), rfl, rfl, hcst⟩
    have hcore : ∀ {d' : Disk}, K.OnDisk g₁ n.currentTerm n.votedFor
        (n.log.compactTo c.length (logTerm c)) c.length d' →
        K.Core g₁ p n.currentTerm n.votedFor (n.log.compactTo c.length (logTerm c)) c.length d' :=
      fun hd => ⟨hoth, hrel, ⟨c, hbase.mono hi hgr le_rfl, rfl⟩, hd⟩
    have hdone : K.OnDisk g₁ n.currentTerm n.votedFor (n.log.compactTo c.length (logTerm c))
        c.length (d.run (.saveSnapshot ⟨c.length, logTerm c, req.data⟩ n.currentTerm n.votedFor
          (n.log.compactTo c.length (logTerm c)).allEntries)) :=
      .snapshot hfirst.le le_rfl hsn d
    obtain ⟨i, hdel, -⟩ := h.delivered
    refine ⟨⟨g₁, hst, ⟨h.mem, h.id, h.peers, hcore hdone, hfirst.le, le_rfl, Or.inr hsn,
      ⟨i, hdel.mono hi hgr le_rfl, by simp⟩, ?_, fun hr' => ?_, fun hr' => ?_, h.running⟩,
      by simp, Or.inl hfirst.ge⟩, ?_, ?_⟩
    · intro snap hsnap'
      rw [← Option.some.inj hsnap']
      exact ⟨hsn, rfl⟩
    · exact absurd (hr.symm.trans hr') (by simp)
    · exact absurd (hr.symm.trans hr') (by simp)
    · change lo ≤ (n.log.compactTo c.length (logTerm c)).firstIndex
      omega
    · refine crashSafe_cons (fun r => ?_) ⟨g₁, hst, crashSafe_nil ((hcore hdone).down hi₁) ?_⟩
      · rcases d.write_snapshot r ⟨c.length, logTerm c, req.data⟩ n.currentTerm n.votedFor
          (n.log.compactTo c.length (logTerm c)).allEntries with hw | hw | hw <;> rw [hw]
        · exact ⟨g, .refl, h.down hi, hlo.trans h.core.disk.first_le⟩
        · refine ⟨g₁, hst, (hcore ?_).down hi₁, ?_⟩
          · exact (h.core.disk.mono hi hgr le_rfl).setSnap h.core.log.wf
              (show _ < (⟨c.length, logTerm c, req.data⟩ : Snapshot).index from hf) hsn
          · change lo ≤ c.length
            omega
        · refine ⟨g₁, hst, (hcore hdone).down hi₁, ?_⟩
          change lo ≤ c.length
          omega
      · change lo ≤ c.length
        omega

@[simp] theorem Node.adoptTerm_commitIndex (n : Node) (t : ℕ) :
    (n.adoptTerm t).node.commitIndex = n.commitIndex := by
  unfold Node.adoptTerm
  split <;> rfl

theorem Setting.Up.handleInstallSnapshot (hi : K.cfg.Inv g) (h : K.Up g floor p n d ms)
    (hlo : lo ≤ n.log.firstIndex) {req : InstallSnapshotRequest}
    (hb : K.BodyOK g src (.snapshot req)) (hne : src ≠ p)
    (hfresh : K.fresh → n.stopped = false → n.currentTerm ≤ req.term →
      n.commitIndex < req.lastIncludedIndex → n.Agrees req) :
    K.Lands g floor p lo d ms (n.handleInstallSnapshot noFail req).1 fun g' =>
      K.noStop → (n.handleInstallSnapshot noFail req).2.term ≤ req.term →
        req.lastIncludedIndex ≤ (n.handleInstallSnapshot noFail req).1.node.log.firstIndex ∨
        req.lastIncludedIndex ≤ g'.ack req.term p := by
  unfold Node.handleInstallSnapshot
  split
  · rename_i hstop
    refine .quiet (h.down hi) .refl h hlo (by simp) fun hn => ?_
    rw [h.running hn] at hstop
    cases hstop
  rename_i hstop
  simp only
  have ha := h.adoptTerm hi hlo req.term
  have hterm := n.adoptTerm_term req.term
  split
  · rename_i hlt
    refine ha.imp fun _ _ _ hle => ?_
    exact absurd hlt (not_lt.mpr hle)
  · refine .bind hi ha fun g₁ hi₁ hgr₁ _ hu hlo => ?_
    have hu' := hu.settled hi₁ ((n.adoptTerm req.term).node.followLeader req.leaderId) rfl rfl rfl
      (Or.inl rfl)
    have hb' := Setting.BodyOK.mono hi hgr₁ hb
    refine (hu'.installLocked hi₁ hlo rfl hb'.1 hne hb'.2 ?_ fun hfr hci => ?_).imp
      fun _ hφ _ _ => hφ
    · change (n.adoptTerm req.term).node.currentTerm = _
      omega
    · have := hfresh hfr (by simpa using hstop) (by omega) (by simpa [Node.followLeader] using hci)
      simpa [Node.Agrees, Node.followLeader] using this

/-! ## Local snapshots -/

/-- Compaction within the committed prefix. -/
theorem LogRel.compact (hlog : LogRel l v) (hb : K.Base g T l v c) {t : ℕ} (hf : l.firstIndex < i)
    (hi : i ≤ c.length) (ht : l.term i = some t) :
    LogRel (l.compactTo i t) v ∧ K.Base g T (l.compactTo i t) v c := by
  have hcv := hb.le_length hlog
  have hwf := hlog.wf.compactTo_wf i t
  rw [hlog.wf.compactTo hf] at hwf ⊢
  have hreals : l.reals.drop (i - l.firstIndex) = v.drop i := by
    rw [hlog.reals, List.drop_drop]; congr 1; omega
  rw [hlog.term hf] at ht
  obtain ⟨e, he, hte⟩ := Option.map_eq_some_iff.mp ht
  have hce := (hb.getElem hlog (show l.firstIndex ≤ i - 1 by omega) (by omega)).symm.trans he
  refine ⟨⟨hwf, by simp only [RaftLog.firstIndex]; omega, hreals, fun heq => ?_⟩, hb.committed,
    by simp only [RaftLog.firstIndex]; omega, ?_, ?_, hb.fresh⟩
  · have heq' : i = v.length := heq
    have := logTerm_take (by omega) he
    rw [heq', List.take_length] at this
    simp only [this, hte]
  · change t = logTerm (c.take i)
    rw [logTerm_take (by omega) hce, hte]
  · change (l.reals.drop (i - l.firstIndex)).take (c.length - i) = c.drop i
    have := congrArg (List.drop (i - l.firstIndex)) hb.held
    rw [List.drop_take, List.drop_drop, show l.firstIndex + (i - l.firstIndex) = i by omega,
      show c.length - l.firstIndex - (i - l.firstIndex) = c.length - i by omega] at this
    exact this

theorem Setting.Up.compactBehind (h : K.Up g floor p n d ms) (index : ℕ)
    (hidx : index ≤ n.lastApplied) : LogRel (n.compactBehind index) (g.log p) ∧
      (∃ c, K.Base g n.currentTerm (n.compactBehind index) (g.log p) c ∧
        c.length = n.commitIndex) ∧
      n.log.firstIndex ≤ (n.compactBehind index).firstIndex ∧
      (n.compactBehind index).firstIndex ≤ max index n.log.firstIndex := by
  obtain ⟨c, hc, hlen⟩ := h.core.base
  have hcut := n.snapshotCut_le index
  have hap := h.applied_le
  unfold Node.compactBehind
  split
  · rename_i hf
    split
    · rename_i t ht
      obtain ⟨h1, h2⟩ := h.core.log.compact hc hf (by omega) ht
      refine ⟨h1, ⟨c, h2, hlen⟩, ?_⟩
      rw [h.core.log.wf.compactTo hf]
      simp only [RaftLog.firstIndex] at hf ⊢
      omega
    · exact ⟨h.core.log, ⟨c, hc, hlen⟩, le_rfl, le_max_right _ _⟩
  · exact ⟨h.core.log, ⟨c, hc, hlen⟩, le_rfl, le_max_right _ _⟩

/-- `hdata` is what an honest call promises of the image. -/
theorem Setting.Up.snapshot (hi : K.cfg.Inv g) (h : K.Up g floor p n d ms)
    (hlo : lo ≤ n.log.firstIndex) {index : ℕ} {data : Bytes}
    (hdata : K.honest → ∃ c, Committed g n.currentTerm c ∧ c.length = index ∧
      K.stands data = c.map LogEntry.data) :
    K.Lands g floor p lo d ms (n.snapshot noFail index data).1 fun _ => True := by
  unfold Node.snapshot
  split
  · exact .quiet (h.down hi) .refl h hlo (by simp) trivial
  rename_i hf
  split
  · exact .quiet (h.down hi) .refl h hlo (by simp) trivial
  rename_i hap
  split
  · exact .quiet (h.down hi) .refl h hlo (by simp) trivial
  rename_i t ht
  simp only [noFail, Bool.false_eq_true, if_false]
  have happ := h.applied_le
  obtain ⟨c, hc, hlen⟩ := h.core.base
  have hsn : K.SnapOK g n.currentTerm ⟨index, t, data⟩ := by
    have hlen₁ : (c.take index).length = index := by rw [List.length_take]; omega
    have hcom := hc.committed.shorter (List.take_prefix index c)
    refine ⟨c.take index, hcom, hlen₁, ?_, fun hh => ?_⟩
    · rw [h.core.log.term (by omega)] at ht
      obtain ⟨e, he, hte⟩ := Option.map_eq_some_iff.mp ht
      rw [hc.getElem h.core.log (by omega) (by omega)] at he
      exact ((logTerm_take (by omega) he).trans hte).symm
    · obtain ⟨c₀, hc₀, hlen₀, hst⟩ := hdata hh
      have heq : c₀ = c.take index := by
        rcases hi.committed_comparable hc₀ hcom with h1 | h1
        · exact h1.eq_of_length (hlen₀.trans hlen₁.symm)
        · exact (h1.eq_of_length (hlen₁.trans hlen₀.symm)).symm
      rw [← heq]
      exact hst
  obtain ⟨hrel, hbase, hmono, hle⟩ := h.compactBehind index (by omega)
  have hcore : K.Core g p n.currentTerm n.votedFor (n.compactBehind index) n.commitIndex
      (d.run (.saveSnapshot ⟨index, t, data⟩ n.currentTerm n.votedFor
        (n.compactBehind index).allEntries)) :=
    ⟨h.core.vote, hrel, hbase, .snapshot (by simp only; omega) (by simp only; omega) hsn d⟩
  refine ⟨⟨g, .refl, ⟨h.mem, h.id, h.peers, hcore, ?_, happ, Or.inr hsn, h.delivered, h.pending,
    h.cand, fun hr => ?_, h.running⟩, by simp, trivial⟩, hlo.trans hmono, ?_⟩
  · change (n.compactBehind index).firstIndex ≤ n.lastApplied
    have := h.first_le
    omega
  · have hlead := h.lead hr
    refine { hlead with next := fun q hq => ?_ }
    change _ ≤ (n.compactBehind index).lastIndex + 1
    rw [hrel.lastIndex, ← h.core.log.lastIndex]
    exact hlead.next q hq
  · have hloi : lo ≤ index := by omega
    refine crashSafe_cons (fun r => ?_) ⟨g, .refl, crashSafe_nil (hcore.down hi) hloi⟩
    rcases d.write_snapshot r ⟨index, t, data⟩ n.currentTerm n.votedFor
      (n.compactBehind index).allEntries with hw | hw | hw <;> rw [hw]
    · exact ⟨g, .refl, h.down hi, hlo.trans h.core.disk.first_le⟩
    · refine ⟨g, .refl, Setting.Core.down hi (l := n.log) ⟨h.core.vote, h.core.log, h.core.base,
        h.core.disk.replaceSnap ?_ ?_ hsn⟩, hloi⟩
      · simp only; omega
      · simp only; omega
    · exact ⟨g, .refl, hcore.down hi, hloi⟩

/-! ## The applier -/

/-- The messages leave the state machine with the committed commands. -/
theorem Setting.Delivered.replay (hi : K.cfg.Inv g) (hh : K.honest) (h : K.Delivered g T ms i) :
    ∃ c, Committed g T c ∧ c.length = i ∧
      replayMsgs K.stands ms = (i, c.map LogEntry.data) := by
  induction h with
  | nil => exact ⟨[], committed_nil g T, rfl, rfl⟩
  | @command ms i c e _ hc hlen hidx ih =>
    obtain ⟨c', hc', hlen', hrep⟩ := ih
    obtain rfl : c' = c := by
      rcases hi.committed_comparable hc' (hc.shorter (List.prefix_append c [e])) with h1 | h1
      · exact h1.eq_of_length (by omega)
      · exact (h1.eq_of_length (by omega)).symm
    refine ⟨c' ++ [e], hc, by simp [hlen], ?_⟩
    unfold replayMsgs at hrep ⊢
    rw [List.foldl_append, hrep]
    simp [hidx]
  | @snapshot ms i snap _ hs ih =>
    obtain ⟨c, hc, hlen, -, hst⟩ := hs
    refine ⟨c, hc, hlen, ?_⟩
    unfold replayMsgs
    rw [List.foldl_append]
    simp [hst hh]

theorem Setting.Delivered.take (h : K.Delivered g T ms i) (k : ℕ) :
    ∃ j, K.Delivered g T (ms.take k) j := by
  induction h with
  | nil => exact ⟨0, by simpa using .nil⟩
  | @command ms i c e h₀ hc hlen hidx ih =>
    by_cases hk : k ≤ ms.length
    · rwa [List.take_append_of_le_length hk]
    · rw [List.take_of_length_le (by simp; omega)]
      exact ⟨_, .command h₀ hc hlen hidx⟩
  | @snapshot ms i snap h₀ hs ih =>
    by_cases hk : k ≤ ms.length
    · rwa [List.take_append_of_le_length hk]
    · rw [List.take_of_length_le (by simp; omega)]
      exact ⟨_, .snapshot h₀ hs⟩

theorem Setting.Up.honest (hi : K.cfg.Inv g) (hon : K.honest) {sent batch : List ApplyMsg}
    (h : K.Up g floor p n d (sent ++ batch)) {k index : ℕ} {data : Bytes}
    (hh : replayMsgs K.stands (sent.take k) = (index, K.stands data)) :
    ∃ c, Committed g n.currentTerm c ∧ c.length = index ∧ K.stands data = c.map LogEntry.data := by
  obtain ⟨i, hd, -⟩ := h.delivered
  obtain ⟨j, hj⟩ := hd.take (min k sent.length)
  rw [List.take_append_of_le_length (min_le_right _ _), ← List.take_eq_take_min] at hj
  obtain ⟨c, hc, hlen, hrep⟩ := hj.replay hi hon
  rw [hh] at hrep
  obtain ⟨rfl, hst⟩ := Prod.mk.inj hrep
  exact ⟨c, hc, hlen, hst⟩

theorem Setting.Delivered.collectBatch (hl : LogRel l v) (hb : K.Base g T l v c) :
    ∀ (k i : ℕ) (ms batch : List ApplyMsg), K.Delivered g T ms i → l.firstIndex ≤ i →
      i + k ≤ c.length → Node.collectBatch l i k = some batch →
      K.Delivered g T (ms ++ batch) (i + k) := by
  intro k
  induction k with
  | zero =>
    intro i ms batch hd _ _ hcb
    simp only [Node.collectBatch, Option.some.injEq] at hcb
    subst hcb
    simpa using hd
  | succ k ih =>
    intro i ms batch hd hf hle hcb
    simp only [Node.collectBatch, Option.bind_eq_bind, Option.bind_eq_some_iff, Option.pure_def,
      Option.some.injEq] at hcb
    obtain ⟨e, he, rest, hrest, rfl⟩ := hcb
    rw [hl.entry (by omega), Nat.add_sub_cancel] at he
    have hce := (hb.getElem hl hf (by omega)).symm.trans he
    have hstep : K.Delivered g T (ms ++ [.command e]) (i + 1) := by
      refine .command (c := c.take i) hd ?_ (by rw [List.length_take]; omega) (hl.index hf he)
      refine hb.committed.shorter ?_
      have htake : c.take (i + 1) = c.take i ++ [e] := by
        rw [List.take_add_one, hce]; rfl
      exact htake ▸ List.take_prefix _ _
    have := ih (i + 1) _ rest hstep (by omega) (by omega) hrest
    rwa [List.append_assoc, List.singleton_append, show i + 1 + k = i + (k + 1) by omega] at this

theorem Setting.Up.applierTake (h : K.Up g floor p n d ms) {n' : Node} {batch : List ApplyMsg}
    (hn : n.applierTake = some (n', batch)) :
    K.Up g floor p n' d (ms ++ batch) ∧ n'.log = n.log := by
  obtain ⟨i, hd, hpn⟩ := h.delivered
  have hap := h.applied_le
  unfold Node.applierTake at hn
  split at hn
  · cases hn
  split at hn
  · rename_i snap hsnap
    obtain ⟨rfl, rfl⟩ := Prod.mk.inj (Option.some.inj hn)
    obtain ⟨hs, hidx⟩ := h.pending snap hsnap
    exact ⟨{ h with
      delivered := ⟨_, .snapshot hd hs, fun _ => hidx⟩
      pending := by simp
      lead := fun hr => { h.lead hr with } }, rfl⟩
  · rename_i hnone
    split at hn
    · cases hn
    obtain ⟨b, hb, heq⟩ := Option.map_eq_some_iff.mp hn
    obtain ⟨rfl, rfl⟩ := Prod.mk.inj heq
    obtain ⟨c, hc, hlen⟩ := h.core.base
    obtain rfl := hpn hnone
    have hd' := Setting.Delivered.collectBatch h.core.log hc _ _ ms _ hd h.first_le (by omega) hb
    rw [show n.lastApplied + (n.commitIndex - n.lastApplied) = n.commitIndex by omega] at hd'
    exact ⟨{ h with
      first_le := h.first_le.trans hap
      applied_le := le_rfl
      delivered := ⟨_, hd', fun _ => rfl⟩
      pending := fun snap hs => by rw [hnone] at hs; cases hs
      lead := fun hr => { h.lead hr with } }, rfl⟩

end KMC
