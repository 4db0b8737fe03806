import KillMyCluster.Durable.Shadow
import KillMyCluster.Raft.Moves

/-! Every critical section calls the persister as its log changes, provided the entries of a
request follow `PrevLogIndex` one by one. Errors of the persister do not matter for that, except
in two places: `commitPropBatch` takes its entries back from memory, and `HandleInstallSnapshot`
leaves a log that is compacted further than it is committed. -/

namespace KMC

/-- An unbroken log, compacted no further than it is committed. -/
structure Node.Sane (n : Node) : Prop where
  wf : n.log.WF
  first_le : n.log.firstIndex ≤ n.commitIndex
  applied_le : n.lastApplied ≤ n.commitIndex

structure Effect.Logged (n : Node) (e : Effect) : Prop where
  shadow : Shadow n.log e.calls e.node.log
  first_le : e.node.log.firstIndex ≤ e.node.commitIndex
  applied_le : e.node.lastApplied ≤ e.node.commitIndex
  sends : ∀ q body, (q, body) ∈ e.sends → body.Consecutive

def Writes (fail : Call → Bool) : Prop := ∀ c, (∀ t v, c ≠ .saveHardState t v) → fail c = false

theorem Io.LogWrites.writes {io : Io} (h : io.LogWrites) : Writes io.fail := fun _ hc => h.fail hc

variable {n m : Node} {fail : Call → Bool} {e : Effect} {hs : List Call}

theorem Node.Sane.same (hn : n.Sane) (h : n.Same m) : m.Sane :=
  ⟨h.log ▸ hn.wf, by rw [h.log, h.commitIndex]; exact hn.first_le,
    by rw [h.lastApplied, h.commitIndex]; exact hn.applied_le⟩

theorem Effect.Logged.sane (h : e.Logged n) (hn : n.Sane) : e.node.Sane :=
  ⟨h.shadow.wf hn.wf, h.first_le, h.applied_le⟩

theorem Saves.shadow (h : Saves hs) (l : RaftLog) : Shadow l hs l := by
  induction hs with
  | nil => exact .nil l
  | cons c cs ih =>
    obtain ⟨t, v, rfl⟩ := h c List.mem_cons_self
    exact .cons rfl (ih fun c hm => h c (List.mem_cons_of_mem _ hm))

theorem Effect.Logged.after (he : e.Logged m) (h : n.Same m) (hc : Saves hs) :
    (e.after hs).Logged n :=
  ⟨(hc.shadow n.log).append (h.log ▸ he.shadow), he.first_le, he.applied_le, he.sends⟩

theorem Effect.Logged.trans {a e : Effect} (ha : a.Logged n) (he : e.Logged a.node) :
    (e.after a.calls).Logged n :=
  ⟨ha.shadow.append he.shadow, he.first_le, he.applied_le, he.sends⟩

theorem Effect.Stays.logged (h : e.Stays n) (hn : n.Sane) : e.Logged n := by
  have hm := hn.same h.same
  refine ⟨?_, hm.first_le, hm.applied_le, fun q body hb => (h.sends q body hb).consecutive hn.wf⟩
  rw [h.same.log]
  exact h.saves.shadow n.log

/-! ## AppendEntries -/

theorem Node.advanceCommit_le (n : Node) (req : AppendEntriesRequest) :
    n.commitIndex ≤ (n.advanceCommit req).commitIndex ∧
      (n.advanceCommit req).lastApplied = n.lastApplied := by
  unfold Node.advanceCommit
  split
  · exact ⟨by simp only; omega, rfl⟩
  · exact ⟨le_rfl, rfl⟩

theorem Node.appendNew_logged (hn : n.Sane) (req : AppendEntriesRequest)
    {new : List LogEntry} (hnew : new ≠ [] → Consecutive n.log.lastIndex new) :
    (n.appendNew fail req new).1.Logged n := by
  have hadv : ∀ m : Node, m.Sane → m.log.firstIndex ≤ (m.advanceCommit req).commitIndex ∧
      (m.advanceCommit req).lastApplied ≤ (m.advanceCommit req).commitIndex := by
    intro m hm
    obtain ⟨h1, h2⟩ := m.advanceCommit_le req
    exact ⟨hm.first_le.trans h1, h2 ▸ hm.applied_le.trans h1⟩
  unfold Node.appendNew
  split
  · obtain ⟨h1, h2⟩ := hadv n hn
    exact ⟨by simpa using Shadow.nil n.log, by simpa using h1, h2, by simp⟩
  rename_i hne
  have happ : Shadow n.log [.appendEntries new] (n.log.append new) := .single ⟨hnew hne, rfl⟩
  simp only
  split
  · exact ⟨happ, hn.first_le, hn.applied_le, by simp⟩
  · obtain ⟨h1, h2⟩ := hadv { n with log := n.log.append new }
      ⟨happ.wf hn.wf, hn.first_le, hn.applied_le⟩
    exact ⟨by simpa using happ, by simpa using h1, h2, by simp⟩

theorem Node.mergeEntries_logged (hn : n.Sane) {req : AppendEntriesRequest}
    (hreq : req.Consecutive) (hle : req.prevLogIndex ≤ n.log.lastIndex) :
    (n.mergeEntries fail req).1.Logged n := by
  obtain ⟨k, hk, hnew, -, hstop⟩ := mergeLoop_walk hn.wf req.entries req.prevLogIndex hreq hle
  unfold Node.mergeEntries
  generalize mergeLoop n.log req.entries = res at hnew hstop ⊢
  obtain ⟨cut, new⟩ := res
  simp only at hnew hstop
  subst hnew
  cases hstop with
  | done h _ =>
    exact appendNew_logged hn req fun hne => absurd (List.drop_of_length_le h.ge) hne
  | past _ hlast => exact appendNew_logged hn req fun _ => hlast ▸ hreq.drop k
  | conflict _ hfirst hlast _ =>
    set i := req.prevLogIndex + 1 + k with hi
    have hcut : Effect.Logged n
        { node := { n with log := n.log.truncateFrom i }, calls := [.truncateFrom i] } :=
      ⟨.single ⟨by omega, rfl⟩, hn.first_le, hn.applied_le, by simp⟩
    simp only
    split
    · exact hcut
    refine hcut.trans (appendNew_logged (n := { n with log := n.log.truncateFrom i })
      (hcut.sane hn) req fun _ => ?_)
    -- the cut leaves the log up to the entry before the conflict
    have hlen : (n.log.truncateFrom i).lastIndex = req.prevLogIndex + k := by
      rw [hn.wf.truncate_last (by omega) (by omega)]
      omega
    exact hlen ▸ hreq.drop k

/-! ## Snapshots -/

theorem Node.installLocked_logged (hn : n.Sane) (req : InstallSnapshotRequest)
    (hf : ∀ snap t v keep, fail (.saveSnapshot snap t v keep) = false) :
    (n.installLocked fail req).1.Logged n := by
  unfold Node.installLocked
  split
  · exact (Effect.Stays.refl n).logged hn
  rename_i hci
  have hfirst : n.log.firstIndex < req.lastIncludedIndex := by
    have := hn.first_le
    omega
  simp only [hf, Bool.false_eq_true, if_false]
  rw [hn.wf.compactTo hfirst]
  refine ⟨.single ⟨rfl, ?_, hfirst.le, le_rfl, ?_⟩, le_rfl, le_rfl, by simp⟩
  · have := hn.wf.compactTo_wf req.lastIncludedIndex req.lastIncludedTerm
    rwa [hn.wf.compactTo hfirst] at this
  · rfl

theorem Node.compactBehind_above (hwf : n.log.WF) {index : ℕ} (hi : n.log.firstIndex < index) :
    (n.compactBehind index).WF ∧ n.log.firstIndex ≤ (n.compactBehind index).firstIndex ∧
      (n.compactBehind index).firstIndex ≤ index ∧
      (n.compactBehind index).reals = n.log.above (n.compactBehind index).firstIndex := by
  have hcut := n.snapshotCut_le index
  have hsame : n.log.reals = n.log.above n.log.firstIndex := by simp [RaftLog.above]
  unfold Node.compactBehind
  split
  · rename_i hlt
    split
    · rename_i t _
      refine ⟨hwf.compactTo_wf _ t, ?_⟩
      rw [hwf.compactTo hlt]
      exact ⟨hlt.le, hcut, rfl⟩
    · exact ⟨hwf, le_rfl, hi.le, hsame⟩
  · exact ⟨hwf, le_rfl, hi.le, hsame⟩

theorem Node.snapshot_logged (hn : n.Sane) (index : ℕ) (data : Bytes) :
    (n.snapshot fail index data).1.Logged n := by
  unfold Node.snapshot
  split
  · exact (Effect.Stays.refl n).logged hn
  split
  · exact (Effect.Stays.refl n).logged hn
  rename_i hfirst happlied
  split
  · exact (Effect.Stays.refl n).logged hn
  obtain ⟨h1, h2, h3, h4⟩ := compactBehind_above hn.wf (not_le.mp hfirst)
  have hcut := h3.trans ((not_lt.mp happlied).trans hn.applied_le)
  simp only
  split <;> exact ⟨.single ⟨rfl, h1, h2, h3, h4⟩, hcut, hn.applied_le, by simp⟩

/-! ## Leaders -/

theorem Node.commitPropBatch_logged (hn : n.Sane) (batch : List Bytes)
    (hf : ∀ es, fail (.appendEntries es) = false) :
    (n.commitPropBatch fail batch).1.Logged n := by
  unfold Node.commitPropBatch
  split
  · exact (Effect.Stays.refl n).logged hn
  simp only [hf, Bool.false_eq_true, if_false]
  refine ⟨.single ⟨fun k e he => ?_, rfl⟩, hn.first_le, hn.applied_le, by simp⟩
  exact (newEntries_spec _ batch _ k e he).1

/-! ## All sections -/

def Action.Sure : Action → Prop
  | .deliver _ _ io => ∀ snap t v keep, io.fail (.saveSnapshot snap t v keep) = false
  | .propose _ _ io => ∀ es, io.fail (.appendEntries es) = false
  | _ => True

theorem Action.sure_of_writes {a : Action} (h : Writes a.io.fail) : a.Sure := by
  cases a with
  | deliver k recent io => exact fun _ _ _ _ => h _ (by simp)
  | propose p batch io => exact fun _ => h _ (by simp)
  | _ => trivial

theorem Moves.logged {s : State} {file : Option Snapshot} {a : Action} {io : Io}
    (h : Moves s file n a io e) (hn : n.Sane) (ha : a.Sure)
    (hrpc : ∀ (k : ℕ) (r : Rpc), s.rpcs[k]? = some r → r.body.Consecutive) : e.Logged n := by
  cases h with
  | stays hq => exact hq.logged hn
  | ship _ => exact ⟨.nil _, hn.first_le, hn.applied_le, by simp [Body.Consecutive]⟩
  | @commit _ _ m idx hm hscan =>
    have hlt := (m.commitScan_spec hscan).1
    have hsane := hn.same hm
    have hlog := hm.log
    exact ⟨by rw [hlog]; exact .nil _, hsane.first_le.trans hlt.le, hsane.applied_le.trans hlt.le,
      by simp⟩
  | @merge k recent io r req m hs hr hb _ _ hm hc hle =>
    have hreq : req.Consecutive := by
      have := hrpc k r hr
      rcases hb with hb | hb <;> rw [hb] at this <;> exact this
    exact (Node.mergeEntries_logged (hn.same hm) hreq (by rw [hm.log]; exact hle)).after hm hc
  | install _ _ _ hm hc _ => exact (Node.installLocked_logged (hn.same hm) _ ha).after hm hc
  | propose _ => exact Node.commitPropBatch_logged hn _ ha
  | snapshot => exact Node.snapshot_logged hn _ _

theorem Node.applierTake_sane {n' : Node} {batch : List ApplyMsg}
    (h : n.applierTake = some (n', batch)) (hn : n.Sane) : n'.Sane ∧ n'.log = n.log := by
  obtain ⟨_, -, rfl, -⟩ | ⟨-, rfl, -⟩ := applierTake_cases h
  · exact ⟨⟨hn.wf, hn.first_le, hn.applied_le⟩, rfl⟩
  · exact ⟨⟨hn.wf, hn.first_le, le_rfl⟩, rfl⟩

end KMC
