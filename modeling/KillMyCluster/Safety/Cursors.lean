import KillMyCluster.Durable.Tracks
import KillMyCluster.Raft.Moves
import KillMyCluster.Sim.Run

/-! The cursors of a log: compacted, applied, committed, held, in this order. Errors of the
persister in `HandleAppendEntries`, `Snapshot` and `commitPropBatch` keep them in order. An error
in `HandleInstallSnapshot` does not: the log is compacted before the call and the two other cursors
are moved after it. Without errors every run keeps them in order. -/

namespace KMC

open Trace

structure Node.Aligned (n : Node) : Prop where
  wf : n.log.WF
  first_le : n.log.firstIndex ≤ n.lastApplied
  applied_le : n.lastApplied ≤ n.commitIndex
  commit_le : n.commitIndex ≤ n.log.lastIndex

variable {n m : Node} {fail : Call → Bool} {e : Effect} {req : AppendEntriesRequest}

theorem Node.Aligned.same (hn : n.Aligned) (h : n.Same m) : m.Aligned :=
  ⟨h.log ▸ hn.wf, by rw [h.log, h.lastApplied]; exact hn.first_le,
    by rw [h.lastApplied, h.commitIndex]; exact hn.applied_le,
    by rw [h.log, h.commitIndex]; exact hn.commit_le⟩

/-- The applier finds every index it asks for. -/
theorem Node.Aligned.held (hn : n.Aligned) {i : ℕ} (hl : n.lastApplied < i)
    (hi : i ≤ n.commitIndex) : n.log.firstIndex < i ∧ i ≤ n.log.lastIndex ∧
      ∃ e, n.log.entry i = some e ∧ e.index = i := by
  have h1 := hn.first_le
  have h2 := hn.commit_le
  have hlen := hn.wf.lastIndex
  have hget := List.getElem?_eq_getElem
    (show i - n.log.firstIndex - 1 < n.log.reals.length by omega)
  have hidx := hn.wf _ _ hget
  refine ⟨by omega, by omega, _, ?_, hidx.trans (by omega)⟩
  rw [RaftLog.WF.entry_real (by omega)]
  exact hget

/-! ## AppendEntries -/

def Node.Confirms (n : Node) (req : AppendEntriesRequest) : Prop :=
  ∀ e ∈ req.entries, n.log.firstIndex < e.index → e.index ≤ n.commitIndex →
    n.log.term e.index = some e.term

theorem Node.advanceCommit_aligned (hn : n.Aligned)
    (hlast : req.prevLogIndex + req.entries.length ≤ n.log.lastIndex) :
    (n.advanceCommit req).Aligned := by
  have h1 := hn.applied_le
  have h2 := hn.commit_le
  unfold Node.advanceCommit
  split
  · exact ⟨hn.wf, hn.first_le, by simp only; omega, by simp only; omega⟩
  · exact hn

theorem Node.appendNew_aligned (hn : n.Aligned) {new : List LogEntry}
    (hnew : new ≠ [] → Consecutive n.log.lastIndex new)
    (hlast : req.prevLogIndex + req.entries.length ≤ n.log.lastIndex + new.length) :
    (n.appendNew fail req new).1.node.Aligned := by
  unfold Node.appendNew
  split
  · rename_i hnil
    exact advanceCommit_aligned hn (by simpa [hnil] using hlast)
  rename_i hne
  have hwf := hn.wf.append (hnew hne)
  have hlen : (n.log.append new).lastIndex = n.log.lastIndex + new.length := by
    rw [hwf.lastIndex, hn.wf.lastIndex, RaftLog.append_reals, List.length_append,
      RaftLog.append_firstIndex]
    omega
  have hm : ({ n with log := n.log.append new } : Node).Aligned :=
    ⟨hwf, hn.first_le, hn.applied_le, by have := hn.commit_le; simp only [hlen]; omega⟩
  simp only
  split
  · exact hm
  · exact advanceCommit_aligned hm (by simpa only [hlen] using hlast)

theorem Node.mergeEntries_aligned (hn : n.Aligned) (hreq : req.Consecutive)
    (hle : req.prevLogIndex ≤ n.log.lastIndex) (hc : n.Confirms req) :
    (n.mergeEntries fail req).1.node.Aligned := by
  obtain ⟨k, hk, hnew, -, hstop⟩ := mergeLoop_walk hn.wf req.entries req.prevLogIndex hreq hle
  unfold Node.mergeEntries
  generalize mergeLoop n.log req.entries = res at hnew hstop ⊢
  obtain ⟨cut, new⟩ := res
  simp only at hnew hstop
  subst hnew
  cases hstop with
  | done h hlast =>
    refine appendNew_aligned hn (fun hne => absurd (List.drop_of_length_le h.ge) hne) ?_
    rw [List.length_drop]
    omega
  | past h hlast =>
    refine appendNew_aligned hn (fun _ => hlast ▸ hreq.drop k) ?_
    rw [List.length_drop]
    omega
  | @conflict e he hfirst hlast hne =>
    set i := req.prevLogIndex + 1 + k with hi
    have hidx : e.index = i := hreq k e he
    -- what is cut off lies above the commit index
    have hcommit : n.commitIndex < i := by
      by_contra hle
      have := hc e (List.mem_of_getElem? he) (by omega) (by omega)
      exact hne (hidx ▸ this)
    have hlen : (n.log.truncateFrom i).lastIndex = req.prevLogIndex + k := by
      rw [hn.wf.truncate_last (by omega) (by omega)]
      omega
    have hm : ({ n with log := n.log.truncateFrom i } : Node).Aligned :=
      ⟨hn.wf.truncateFrom i, hn.first_le, hn.applied_le, by simp only [hlen]; omega⟩
    simp only
    split
    · exact hm
    · refine appendNew_aligned hm (fun _ => hlen ▸ hreq.drop k) ?_
      rw [List.length_drop]
      simp only [hlen]
      have := (List.getElem?_eq_some_iff.mp he).1
      omega

/-! ## Snapshots and proposals -/

theorem RaftLog.WF.compactTo_last {l : RaftLog} (hwf : l.WF) (i t : ℕ) :
    l.lastIndex ≤ (l.compactTo i t).lastIndex ∧ i ≤ (l.compactTo i t).lastIndex := by
  have hlen := hwf.lastIndex
  by_cases hi : l.firstIndex < i
  · rw [(hwf.compactTo_wf i t).lastIndex, hwf.compactTo hi]
    simp only [RaftLog.firstIndex, List.length_drop] at hlen hi ⊢
    omega
  · rw [RaftLog.compactTo, if_pos (by omega)]
    omega

theorem Node.installLocked_aligned (hn : n.Aligned) {req : InstallSnapshotRequest}
    (hci : n.commitIndex < req.lastIncludedIndex)
    (hf : ∀ snap t v keep, fail (.saveSnapshot snap t v keep) = false) :
    (n.installLocked fail req).1.node.Aligned := by
  have h1 := hn.first_le
  have h2 := hn.applied_le
  unfold Node.installLocked
  rw [if_neg (by omega)]
  simp only [hf, Bool.false_eq_true, if_false]
  refine ⟨hn.wf.compactTo_wf _ _, ?_, le_rfl, (hn.wf.compactTo_last _ _).2⟩
  simp only [RaftLog.compactTo_first]
  omega

theorem Node.compactBehind_last (hwf : n.log.WF) (index : ℕ) :
    (n.compactBehind index).WF ∧ n.log.lastIndex ≤ (n.compactBehind index).lastIndex := by
  unfold Node.compactBehind
  split
  · split
    · exact ⟨hwf.compactTo_wf _ _, (hwf.compactTo_last _ _).1⟩
    · exact ⟨hwf, le_rfl⟩
  · exact ⟨hwf, le_rfl⟩

theorem Node.snapshot_aligned (hn : n.Aligned) (index : ℕ) (data : Bytes) :
    (n.snapshot fail index data).1.node.Aligned := by
  unfold Node.snapshot
  split
  · exact hn
  rename_i hfirst
  split
  · exact hn
  rename_i happ
  split
  · exact hn
  have h1 : (n.compactBehind index).firstIndex ≤ index := by
    have hcut := n.snapshotCut_le index
    have hmax := n.compactBehind_first index
    omega
  obtain ⟨h2, h3⟩ := compactBehind_last hn.wf index
  have hm : ({ n with log := n.compactBehind index } : Node).Aligned :=
    ⟨h2, h1.trans (not_lt.mp happ), hn.applied_le, hn.commit_le.trans h3⟩
  simp only
  split <;> exact ⟨hm.wf, hm.first_le, hm.applied_le, hm.commit_le⟩

theorem Node.commitPropBatch_aligned (hn : n.Aligned) (batch : List Bytes) :
    (n.commitPropBatch fail batch).1.node.Aligned := by
  unfold Node.commitPropBatch
  split
  · exact hn
  set entries := newEntries n.currentTerm n.log.lastIndex batch with hes
  have hwf : (n.log.append entries).WF := by
    refine hn.wf.append fun k e he => ?_
    exact (newEntries_spec _ batch _ k e he).1
  have hcl := hn.commit_le
  have hlen : n.log.lastIndex ≤ (n.log.append entries).lastIndex := by
    rw [hwf.lastIndex, hn.wf.lastIndex, RaftLog.append_reals, List.length_append,
      RaftLog.append_firstIndex]
    omega
  simp only
  split
  · refine ⟨hwf.truncateFrom _, hn.first_le, hn.applied_le, ?_⟩
    have hfirst := hn.wf.lastIndex
    simp only [hwf.truncate_last (show (n.log.append entries).firstIndex < n.log.lastIndex + 1 by
      rw [RaftLog.append_firstIndex]; omega) (by omega)]
    omega
  · exact ⟨hwf, hn.first_le, hn.applied_le, hcl.trans hlen⟩

/-! ## Steps -/

/-- An InstallSnapshot is saved without an error, and an AppendEntries that is not stale has what
its receiver has committed. -/
def Body.SavedOrConfirmed (io : Io) (n : Node) : Body → Prop
  | .replicate req | .heartbeat req => n.currentTerm ≤ req.term → n.Confirms req
  | .snapshot _ => ∀ snap t v keep, io.fail (.saveSnapshot snap t v keep) = false
  | .preVote .. | .vote _ => True

/-- Deliveries are saved or confirmed, and a node restarts with an unbroken log. -/
def Action.LogsUnbroken (s : State) : Action → Prop
  | .deliver k _ io => ∀ r ∈ s.rpcs[k]?, ∀ n ∈ s.node r.dst, r.body.SavedOrConfirmed io n
  | .restart p => (s.servers p).disk.recovered.WF
  | _ => True

theorem Moves.aligned {s : State} {file : Option Snapshot} {a : Action} {io : Io}
    (h : Moves s file n a io e) (hn : n.Aligned) (ha : a.LogsUnbroken s)
    (hrpc : ∀ (k : ℕ) (r : Rpc), s.rpcs[k]? = some r → r.body.Consecutive)
    (hp : ∀ k recent io r, a = .deliver k recent io → s.rpcs[k]? = some r → s.node r.dst = some n) :
    e.node.Aligned := by
  cases h with
  | stays hq => exact hn.same hq.same
  | ship _ => exact ⟨hn.wf, hn.first_le, hn.applied_le, hn.commit_le⟩
  | @commit _ _ m idx hm hscan =>
    obtain ⟨h1, h2, -⟩ := m.commitScan_spec hscan
    have hm' := hn.same hm
    exact ⟨hm'.wf, hm'.first_le, hm'.applied_le.trans h1.le, h2⟩
  | @merge k recent io r req m hs hr hb _ hterm hm _ hle =>
    have hreq : req.Consecutive := by
      have := hrpc k r hr
      rcases hb with hb | hb <;> rw [hb] at this <;> exact this
    have hconf : n.Confirms req := by
      have := ha r hr n (hp k recent io r rfl hr)
      rcases hb with hb | hb <;> rw [hb] at this <;> exact this hterm
    refine Node.mergeEntries_aligned (hn.same hm) hreq (by rw [hm.log]; exact hle) ?_
    intro e he
    rw [hm.log, hm.commitIndex]
    exact hconf e he
  | @install k recent io r req m hs hr hb _ hm _ hci =>
    have hf := ha r hr n (hp k recent io r rfl hr)
    rw [hb] at hf
    exact Node.installLocked_aligned (hn.same hm) (by rw [hm.commitIndex]; exact hci) hf
  | propose _ => exact Node.commitPropBatch_aligned hn _
  | snapshot => exact Node.snapshot_aligned hn _ _

theorem Node.applierTake_aligned {n' : Node} {batch : List ApplyMsg} (hn : n.Aligned)
    (h : n.applierTake = some (n', batch)) : n'.Aligned := by
  obtain ⟨_, -, rfl, -⟩ | ⟨-, rfl, -⟩ := applierTake_cases h
  · exact ⟨hn.wf, hn.first_le, hn.applied_le, hn.commit_le⟩
  · exact ⟨hn.wf, hn.first_le.trans hn.applied_le, le_rfl, hn.commit_le⟩

theorem newNode_aligned {d : Disk} (h : d.recovered.WF) (id : ℕ) (peers : List ℕ) (retain : ℤ) :
    (newNode id peers retain (openPersister d)).Aligned := by
  refine ⟨h, le_rfl, le_rfl, ?_⟩
  change d.recovered.firstIndex ≤ d.recovered.lastIndex
  rw [h.lastIndex]
  omega

structure AlignedAll (s : State) : Prop where
  up : ∀ p n, s.node p = some n → n.Aligned
  rpc : ∀ (k : ℕ) (r : Rpc), s.rpcs[k]? = some r → r.body.Consecutive

variable {cfg : Config} {s t : State} {a : Action} {p : ℕ} {io : Io}

theorem AlignedAll.section (h : AlignedAll s) (ha : a.LogsUnbroken s) (hn : s.node p = some n)
    (hs : Section cfg s n a p io e t) : e.node.Aligned := by
  refine hs.moves.aligned (h.up p n hn) ha h.rpc fun k recent io r hk hr => ?_
  subst hk
  cases hs with
  | deliver hr' =>
    obtain rfl := Option.mem_unique hr hr'
    exact hn

theorem AlignedAll.step (h : AlignedAll s) (ha : a.LogsUnbroken s) (hs : step cfg s a = some t) :
    AlignedAll t where
  up := step_servers (I := fun _ srv => ∀ m, srv.proc = some m → m.Aligned) hs h.up
    (fun p io n e hn hsec _ m hm => by
      obtain rfl := Option.some.inj hm
      exact h.section ha hn hsec)
    (fun _ _ _ _ _ _ _ _ _ m hm => by cases hm)
    (fun p srv hch m hm => by
      cases hch with
      | applierTake hn htake _ =>
        obtain rfl := Option.some.inj hm
        exact Node.applierTake_aligned (h.up p _ hn) htake
      | applierSend hn _ =>
        obtain rfl := Option.some.inj hm
        exact h.up p _ hn
      | crash _ => cases hm
      | restart _ _ =>
        obtain rfl := Option.some.inj hm
        exact newNode_aligned ha ..
      | stop hn =>
        obtain rfl := Option.some.inj hm
        have := h.up p _ hn
        exact ⟨this.wf, this.first_le, this.applied_le, this.commit_le⟩)
  rpc := step_bodies hs h.rpc fun p io n e hn hsec q body hb => by
    rcases hsec.moves.sends q body hb with hf | ⟨-, rfl⟩
    · exact hf.consecutive (h.up p n hn).wf
    · trivial

/-- The cursors of every running node are in order, and the applier stays within the log. -/
theorem cursors_ordered (h : Reaches (step cfg) (fun s a => a.LogsUnbroken s) cfg.init s)
    (hn : s.node p = some n) :
    n.log.firstIndex ≤ n.lastApplied ∧ n.lastApplied ≤ n.commitIndex ∧
      n.commitIndex ≤ n.log.lastIndex ∧ ∀ i, n.lastApplied < i → i ≤ n.commitIndex →
        n.log.firstIndex < i ∧ i ≤ n.log.lastIndex ∧ ∃ e, n.log.entry i = some e ∧ e.index = i := by
  have hall : AlignedAll s := by
    refine h.invariant (fun _ _ _ h ha hs => h.step ha hs) ⟨fun p n hn => ?_, fun k r hr => ?_⟩
    · simp [Config.init, State.node] at hn
    · simp [Config.init] at hr
  have hal := hall.up p n hn
  exact ⟨hal.first_le, hal.applied_le, hal.commit_le, fun i => hal.held⟩

/-! ### Without errors -/

section Reliable

variable {K : Setting} {g : Ghost} {floor : ℕ → ℕ} {d : Disk} {ms : List ApplyMsg}

theorem Setting.Down.recovered_wf (h : K.Down g p d) : d.recovered.WF := by
  obtain ⟨c, hc⟩ := h
  intro k e he
  rw [Disk.recovered, RaftLog.append_reals, RaftLog.newRaftLog_reals, List.nil_append,
    hc.entries_eq, List.getElem?_drop] at he
  have hidx := hc.index _ e (by omega) he
  have hlen : (openPersister d).snap.index = c.length := by
    rw [openPersister_snap, hc.file.length]
  change e.index = (openPersister d).snap.index + 1 + k
  omega

/-- A leader of the node's term, or of a later one, has what the node has committed. -/
theorem Setting.Up.confirms (hi : K.cfg.Inv g) (h : K.Up g floor p n d ms) {src : ℕ}
    (hreq : AppendOK g src req) (hterm : n.currentTerm ≤ req.term) : n.Confirms req := by
  intro e he hfirst hcommit
  obtain ⟨c, hc, hlen⟩ := h.core.base
  have hpre : c <+: g.tlog req.term := hi.committed_tlog
    (hc.committed.mono hi (LeaderLog.Grows.refl g) hterm) (by simp [hreq.leader])
  obtain ⟨k, hk⟩ := List.getElem?_of_mem he
  have hidx := hreq.index k e hk
  have hat : (g.tlog req.term)[req.prevLogIndex + k]? = some e := by
    have hlt := (List.getElem?_eq_some_iff.mp hk).1
    rwa [hreq.entries, List.getElem?_take_of_lt hlt, List.getElem?_drop] at hk
  have hheld : (g.log p)[req.prevLogIndex + k]? = some e := by
    obtain ⟨more, hmore⟩ := hpre
    rw [hc.getElem h.core.log (by omega) (by omega), ← hat, ← hmore,
      List.getElem?_append_left (by omega)]
  rw [h.core.log.term hfirst, show e.index - 1 = req.prevLogIndex + k by omega, hheld,
    Option.map_some]

theorem Setting.Rel.logsUnbroken (h : K.Rel g s) (ha : a.Reliable) : a.LogsUnbroken s := by
  cases a with
  | deliver k recent io =>
    intro r hr n hn
    have hbody := (h.rpc k r hr).body
    have hconf : ∀ req, AppendOK g r.src req → n.currentTerm ≤ req.term → n.Confirms req :=
      fun req hreq => (h.up r.dst n hn).confirms h.inv hreq
    cases hb : r.body with
    | replicate req | heartbeat req =>
      rw [hb] at hbody
      exact hconf req hbody
    | snapshot req =>
      have hio : io.fault = fun _ => none := ha
      exact fun _ _ _ _ => by rw [Io.fail_reliable hio, noFail]
    | preVote | vote => trivial
  | restart p =>
    cases hn : s.node p with
    | none => exact (h.down p hn).recovered_wf
    | some n => exact ((h.up p n hn).down h.inv).recovered_wf
  | _ => trivial

/-- No run without errors of the persister breaks a log. -/
theorem reaches_logsUnbroken (h : Reaches (step cfg) (fun _ a => a.Reliable) cfg.init s) :
    Reaches (step cfg) (fun s a => a.LogsUnbroken s) cfg.init s := by
  let K : Setting := ⟨cfg, fun _ => [], False, False, False⟩
  obtain ⟨acts, h⟩ := h
  refine ⟨acts, ?_⟩
  induction h with
  | nil => exact .nil
  | snoc hrun ha hs ih =>
    obtain ⟨g, -, hsim⟩ := K.sim_init.run
      (hrun.imp fun _ _ ha => ⟨ha, False.elim, False.elim, False.elim⟩)
    exact ih.snoc (hsim.rel.logsUnbroken ha) hs

end Reliable

instance (n : Node) (req : AppendEntriesRequest) : Decidable (n.Confirms req) :=
  inferInstanceAs (Decidable (∀ e ∈ req.entries, _))

noncomputable instance (io : Io) (n : Node) : (body : Body) → Decidable (body.SavedOrConfirmed io n)
  | .replicate req | .heartbeat req =>
    inferInstanceAs (Decidable (n.currentTerm ≤ req.term → n.Confirms req))
  | .snapshot _ => Classical.propDecidable _
  | .preVote .. | .vote _ => isTrue trivial

noncomputable instance (s : State) : (a : Action) → Decidable (a.LogsUnbroken s)
  | .deliver k _ io =>
    inferInstanceAs (Decidable (∀ r ∈ s.rpcs[k]?, ∀ n ∈ s.node r.dst, r.body.SavedOrConfirmed io n))
  | .restart p => inferInstanceAs (Decidable (s.servers p).disk.recovered.WF)
  | .tick .. | .stepDown .. | .respond .. | .propose .. | .replicate .. | .heartbeat ..
  | .lease .. | .applierTake .. | .applierSend .. | .snapshot .. | .crash .. | .stop .. =>
    isTrue trivial

/-- Node 2 of a pair cannot write the entry that node 1 sends, and a second time node 1 cannot
write its own. -/
def failedWrites : List Action :=
  electFirst ++ [.propose 1 [[7]] {}, .replicate 1 2, .deliver 2 false { fault := fun _ => some 0 },
    .propose 1 [[8]] { fault := fun _ => some 1 }]

theorem cursors_ordered_pair : ∃ s n,
    Reaches (step .pair) (fun s a => a.LogsUnbroken s) Config.pair.init s ∧ s.node 2 = some n ∧
    n.log.firstIndex ≤ n.lastApplied ∧ n.lastApplied ≤ n.commitIndex ∧
    n.commitIndex ≤ n.log.lastIndex := by
  have hs := Reaches.of_exec (step .pair) (fun s a => a.LogsUnbroken s) Config.pair.init
    failedWrites (by decide) rfl
  obtain ⟨h1, h2, h3, -⟩ := cursors_ordered (p := 2) hs rfl
  exact ⟨_, _, hs, rfl, h1, h2, h3⟩

/-- Node 3 cannot save the snapshot it gets from node 1: its log is compacted beyond what is
applied. -/
theorem cursors_out_of_order : ∃ s n,
    Reaches (step .trio) (fun _ _ => True) Config.trio.init s ∧ s.node 3 = some n ∧
    ¬ n.log.firstIndex ≤ n.lastApplied := by
  have hs := Reaches.of_exec (step .trio) (fun _ _ => True) Config.trio.init
    (trioCommit ++ [.snapshot 1 1 [9] {}, .replicate 1 3,
      .deliver 5 false { fault := fun _ => some 0 }])
    (.of_forall (fun _ _ _ => trivial) _) rfl
  exact ⟨_, _, hs, rfl, by decide⟩

end KMC
