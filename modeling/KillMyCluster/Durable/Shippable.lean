import KillMyCluster.Durable.Tracks
import KillMyCluster.Raft.Moves

/-! What a leader can send to a follower that needs compacted entries: the snapshot in memory or
else the one in the file. It reaches as far as the log was compacted, unless a failed
`saveSnapshot` comes after the compaction. -/

namespace KMC

open Trace

variable {n m : Node} {file : Option Snapshot} {fail : Call → Bool} {e : Effect} {io : Io}
  {d : Disk}

structure Node.Shippable (n : Node) (file : Option Snapshot) : Prop where
  first_le : n.log.firstIndex ≤ n.lastApplied
  applied_le : n.lastApplied ≤ n.commitIndex
  covers : n.log.firstIndex ≤ (n.shipped file).index

theorem Node.shipped_cache (h : n.snapCache.index ≠ 0) : n.shipped file = n.snapCache := if_neg h

theorem Node.shipped_file (h : n.snapCache.index = 0) :
    n.shipped file = file.getD ⟨0, 0, []⟩ := if_pos h

theorem Node.Shippable.same (hn : n.Shippable file) (h : n.Same m) : m.Shippable file :=
  ⟨by rw [h.log, h.lastApplied]; exact hn.first_le,
    by rw [h.lastApplied, h.commitIndex]; exact hn.applied_le,
    by rw [h.log, Node.shipped, h.snapCache]; exact hn.covers⟩

/-! ## Sections that leave snapshots alone -/

theorem Io.apply_snap {c : Call} (h : c.SparesImage) : (io.apply d c).snap = d.snap := by
  unfold Io.apply
  cases c with
  | saveSnapshot => cases h
  | saveHardState | appendEntries | truncateFrom => split <;> rfl

theorem Io.apply_snaps {calls : List Call} (h : ∀ c ∈ calls, c.SparesImage) (d : Disk) :
    (calls.foldl io.apply d).snap = d.snap := by
  induction calls generalizing d with
  | nil => rfl
  | cons c cs ih =>
    rw [List.foldl_cons, ih (fun c hc => h c (List.mem_cons_of_mem _ hc)),
      Io.apply_snap (h c List.mem_cons_self)]

theorem Effect.Grows.shippable (h : e.Grows n) (hn : n.Shippable d.snap) :
    e.node.Shippable (e.calls.foldl io.apply d).snap := by
  refine ⟨by rw [h.first, h.applied]; exact hn.first_le,
    by rw [h.applied]; exact hn.applied_le.trans h.commit, ?_⟩
  rw [h.first, Io.apply_snaps h.calls, Node.shipped, h.snapCache]
  exact hn.covers

/-! ## Compaction -/

/-- `HandleInstallSnapshot` saves its snapshot without an error. If `Snapshot` cannot, what is
there to ship covers the cut all the same, or it is the file, and the file has been renamed. -/
def Action.Shipping (s : State) : Action → Prop
  | .deliver _ _ io => ∀ snap t v keep, io.fail (.saveSnapshot snap t v keep) = false
  | .snapshot p index _ io => ∀ n ∈ s.node p,
      n.snapshotCut index ≤ (n.shipped (s.servers p).disk.snap).index ∨
      ∀ snap t v keep, ∀ k ∈ io.fault (.saveSnapshot snap t v keep), n.snapCache.index = 0 ∧ 1 ≤ k
  | _ => True

theorem Node.installLocked_shippable (hn : n.Shippable file) {req : InstallSnapshotRequest}
    (hci : n.commitIndex < req.lastIncludedIndex)
    (hf : ∀ snap t v keep, io.fail (.saveSnapshot snap t v keep) = false) {hs : List Call} :
    ((n.installLocked io.fail req).1.after hs).node.Shippable d.snap := by
  have h1 := hn.first_le
  have h2 := hn.applied_le
  have hfirst := n.log.compactTo_first req.lastIncludedIndex req.lastIncludedTerm
  unfold Node.installLocked
  rw [if_neg (by omega)]
  simp only [hf, Bool.false_eq_true, if_false]
  refine ⟨by simp only [Effect.after_node, hfirst]; omega, le_rfl, ?_⟩
  rw [Node.shipped_cache (by simp only [Effect.after_node]; omega)]
  simp only [Effect.after_node, hfirst]
  omega

/-- A failed save leaves the file as it was or renamed. -/
theorem Io.fault_snap {k : ℕ} {snap : Snapshot} {t v : ℕ} {keep : List LogEntry}
    (h : io.fault (.saveSnapshot snap t v keep) = some k) :
    (io.apply d (.saveSnapshot snap t v keep)).snap = if 1 ≤ k then some snap else d.snap := by
  simp only [Io.apply, h]
  cases k with
  | zero => rfl
  | succ k => rcases d.write_renamed k snap t v keep with hw | hw <;> rw [hw] <;> rfl

theorem Node.snapshot_shippable (hn : n.Shippable d.snap) {index : ℕ} {data : Bytes}
    (hio : n.snapshotCut index ≤ (n.shipped d.snap).index ∨
      ∀ snap t v keep, ∀ k ∈ io.fault (.saveSnapshot snap t v keep),
        n.snapCache.index = 0 ∧ 1 ≤ k) : (n.snapshot io.fail index data).1.node.Shippable
      ((n.snapshot io.fail index data).1.calls.foldl io.apply d).snap := by
  unfold Node.snapshot
  split
  · exact hn
  rename_i hfirst
  split
  · exact hn
  rename_i happ
  split
  · exact hn
  rename_i snapTerm _
  have hcut := n.snapshotCut_le index
  have hlog := n.compactBehind_first index
  have h1 := hn.applied_le
  have h2 := hn.covers
  simp only
  split
  swap
  · refine ⟨by simp only; omega, h1, ?_⟩
    rw [Node.shipped_cache (by simp only; omega)]
    simp only
    omega
  rename_i hfail
  obtain ⟨k, hk⟩ := Option.isSome_iff_exists.mp hfail
  refine ⟨by simp only; omega, h1, ?_⟩
  simp only [List.foldl_cons, List.foldl_nil, Io.fault_snap hk]
  by_cases hzero : n.snapCache.index = 0
  · rw [Node.shipped_file hzero] at hio h2
    rw [Node.shipped_file (by exact hzero)]
    split
    · simp only [Option.getD_some]
      omega
    · -- the file is the old one, and covered the cut before
      rename_i hlt
      rcases hio with hc | hio
      · omega
      · exact absurd (hio _ _ _ _ k hk).2 hlt
  · rw [Node.shipped_cache hzero] at hio h2
    rw [Node.shipped_cache (by exact hzero)]
    rcases hio with hc | hio
    · simp only
      omega
    · exact absurd (hio _ _ _ _ k hk).1 hzero

theorem Moves.shippable {s : State} {p : ℕ} {a : Action} (h : Moves s d.snap n a io e)
    (hn : n.Shippable d.snap) (hp : s.node p = some n) (hd : (s.servers p).disk = d)
    (hsnap : ∀ q index data io, a = .snapshot q index data io → q = p) (ha : a.Shipping s) :
    e.node.Shippable (e.calls.foldl io.apply d).snap := by
  cases h with
  | stays hq => exact hq.grows.shippable hn
  | ship h0 =>
    refine ⟨hn.first_le, hn.applied_le, ?_⟩
    rw [Node.shipped_cache (n := { n with snapCache := n.shipped d.snap }) h0]
    exact hn.covers
  | commit hm hscan =>
    have hlt := (Node.commitScan_spec _ hscan).1
    refine Effect.Grows.shippable ⟨by rw [hm.log], hm.lastApplied, ?_, hm.pendingSnapshot,
      hm.snapCache, by simp⟩ hn
    rw [← hm.commitIndex]
    exact hlt.le
  | merge _ _ _ _ hm hs _ => exact ((Node.mergeEntries_grows _ _).after hm hs).shippable hn
  | install _ _ _ hm hs hci =>
    refine Node.installLocked_shippable (hn.same hm) ?_ ha
    rwa [hm.commitIndex]
  | propose _ => exact (n.commitPropBatch_grows _).shippable hn
  | snapshot =>
    obtain rfl := hsnap _ _ _ _ rfl
    exact Node.snapshot_shippable hn (hd ▸ ha n hp)

/-! ## Runs -/

theorem newNode_shippable (id : ℕ) (peers : List ℕ) (retain : ℤ) (d : Disk) :
    (newNode id peers retain (openPersister d)).Shippable d.snap := by
  refine ⟨le_rfl, le_rfl, ?_⟩
  rw [Node.shipped_file rfl]
  change (openPersister d).snap.index ≤ d.image.index
  rw [openPersister_snap]

variable {cfg : Config} {s t : State} {a : Action} {p : ℕ}

theorem Section.snapshot_at (h : Section cfg s n a p io e t) :
    ∀ q index data io, a = .snapshot q index data io → q = p := by
  rintro q index data io' rfl
  cases h
  rfl

theorem step_shippable (hs : step cfg s a = some t) (ha : a.Shipping s)
    (h : ∀ p n, s.node p = some n → n.Shippable (s.servers p).disk.snap) :
    ∀ p n, t.node p = some n → n.Shippable (t.servers p).disk.snap := by
  refine step_servers (I := fun _ srv => ∀ m, srv.proc = some m → m.Shippable srv.disk.snap) hs h
    (fun p io n e hn hsec _ m hm => ?_) (fun _ _ _ _ _ _ _ _ _ m hm => by cases hm)
    (fun p srv hch m hm => ?_)
  · obtain rfl := Option.some.inj hm
    exact hsec.moves.shippable (h p n hn) hn rfl hsec.snapshot_at ha
  · cases hch with
    | applierTake hn htake _ =>
      obtain rfl := Option.some.inj hm
      have hs := h p _ hn
      obtain ⟨_, -, rfl, -⟩ | ⟨-, rfl, -⟩ := Node.applierTake_cases htake
      · exact ⟨hs.first_le, hs.applied_le, hs.covers⟩
      · exact ⟨hs.first_le.trans hs.applied_le, le_rfl, hs.covers⟩
    | applierSend hn _ =>
      obtain rfl := Option.some.inj hm
      exact h p _ hn
    | crash _ => cases hm
    | restart _ _ =>
      obtain rfl := Option.some.inj hm
      exact newNode_shippable ..
    | stop hn =>
      obtain rfl := Option.some.inj hm
      have hs := h p _ hn
      exact ⟨hs.first_le, hs.applied_le, hs.covers⟩

theorem Node.sendSnapshot_ships (h : (n.shipped file).index ≠ 0) (peer : ℕ) :
    (n.sendSnapshotLocked file peer).sends = [(peer, .snapshot ⟨n.currentTerm, n.id,
      (n.shipped file).index, (n.shipped file).term, (n.shipped file).data⟩)] := by
  change Effect.sends (if (n.shipped file).index = 0 then _ else _) = _
  rw [if_neg h]
  rfl

/-- Once a snapshot of the whole compacted part has arrived, the log goes on from there. -/
theorem Node.onSnapshotResponse_resumes {peer : ℕ} {req : InstallSnapshotRequest}
    {resp : InstallSnapshotResponse} (hm : m.leads req.term) (hr : resp.term ≤ m.currentTerm)
    (hreq : m.log.firstIndex ≤ req.lastIncludedIndex) :
    (m.onSnapshotResponse peer req resp).node.log.firstIndex <
        (m.onSnapshotResponse peer req resp).node.nextIndex peer ∧
      ∃ next entries, (m.onSnapshotResponse peer req resp).node.replicateOnce file peer =
        some { node := (m.onSnapshotResponse peer req resp).node
               sends := [(peer, .replicate (m.appendRequest next entries))] } := by
  obtain ⟨hst, hrole, hterm⟩ := Node.leads_iff.mp hm
  have hnode : (m.onSnapshotResponse peer req resp).node =
      m.raiseMatch peer req.lastIncludedIndex := by
    rw [Node.onSnapshotResponse_leads hm (hterm ▸ hr)]
  have hnext : m.log.firstIndex < (m.raiseMatch peer req.lastIncludedIndex).nextIndex peer := by
    simp only [Node.raiseMatch, Function.update_self]
    omega
  rw [hnode]
  set m' := m.raiseMatch peer req.lastIncludedIndex
  refine ⟨hnext, m'.nextIndex peer, (m'.log.suffix (m'.nextIndex peer)).take maxAppendEntries, ?_⟩
  unfold Node.replicateOnce
  rw [if_neg (by simp [m', Node.raiseMatch, hst, hrole])]
  simp only
  rw [if_neg (show ¬ m'.nextIndex peer ≤ m'.log.firstIndex from not_le.mpr hnext)]
  rfl

/-- What was compacted is shipped, and a leader that has not compacted more by the time the
answer is there goes on with its log. -/
theorem compacted_is_shipped
    (h : Reaches (step cfg) (fun s a => a.Shipping s) cfg.init s) (hn : s.node p = some n)
    (hfirst : 0 < n.log.firstIndex) (peer : ℕ) :
    ∃ req, (n.sendSnapshotLocked (s.servers p).disk.snap peer).sends = [(peer, .snapshot req)] ∧
      n.log.firstIndex ≤ req.lastIncludedIndex ∧
      ∀ (m : Node) resp file, m.leads n.currentTerm → resp.term ≤ m.currentTerm →
        m.log.firstIndex ≤ n.log.firstIndex →
        (m.onSnapshotResponse peer req resp).node.log.firstIndex <
            (m.onSnapshotResponse peer req resp).node.nextIndex peer ∧
          ∃ next entries, (m.onSnapshotResponse peer req resp).node.replicateOnce file peer =
            some { node := (m.onSnapshotResponse peer req resp).node
                   sends := [(peer, .replicate (m.appendRequest next entries))] } := by
  have hs := (h.invariant (fun _ _ _ h ha hs => step_shippable hs ha h)
    (by intro p n hn; simp [Config.init, State.node] at hn)) p n hn
  have hcov := hs.covers
  refine ⟨_, n.sendSnapshot_ships (by omega) peer, hcov, ?_⟩
  intro m resp file hm hr hle
  exact Node.onSnapshotResponse_resumes hm hr (hle.trans hcov)

/-- The directory sync after the renames fails, and the file is shipped. -/
theorem compacted_is_shipped_trio : ∃ s n req,
    Reaches (step .trio) (fun s a => a.Shipping s) Config.trio.init s ∧ s.node 1 = some n ∧
    0 < n.log.firstIndex ∧ n.snapCache.index = 0 ∧
    (n.sendSnapshotLocked (s.servers 1).disk.snap 3).sends = [(3, .snapshot req)] ∧
    n.log.firstIndex ≤ req.lastIncludedIndex := by
  have hrun := Run.get (step .trio) (fun s a => a.Shipping s) Config.trio.init trioCommit
    (.of_forall (fun _ a ha => by
      simp only [trioCommit, List.mem_cons, List.not_mem_nil, or_false] at ha
      rcases ha with rfl | rfl | rfl | rfl | rfl | rfl | rfl | rfl | rfl | rfl | rfl | rfl | rfl |
        rfl
      all_goals first | trivial | exact fun _ _ _ _ => rfl) _) rfl
  have hs := hrun.snoc (a := Action.snapshot 1 1 [9] { fault := fun _ => some 2 })
    (fun n hn => by
      obtain rfl := Option.some.inj hn
      refine .inr fun _ _ _ _ k hk => ⟨by decide, ?_⟩
      obtain rfl := Option.some.inj hk
      decide) rfl
  obtain ⟨req, h1, h2, -⟩ := compacted_is_shipped (p := 1) ⟨_, hs⟩ rfl (by decide) 3
  exact ⟨_, _, req, ⟨_, hs⟩, rfl, by decide, by decide, h1, h2⟩

/-- Node 1 of a trio compacts its log, cannot write the snapshot, and has nothing to ship. -/
theorem compacted_not_shipped : ∃ s n,
    Reaches (step .trio) (fun _ _ => True) Config.trio.init s ∧ s.node 1 = some n ∧
    n.role = .leader ∧ n.nextIndex 3 ≤ n.log.firstIndex ∧ 0 < n.log.firstIndex ∧
    (n.shipped (s.servers 1).disk.snap).index < n.log.firstIndex ∧
    (n.sendSnapshotLocked (s.servers 1).disk.snap 3).sends = [] := by
  have hs := Reaches.of_exec (step .trio) (fun _ _ => True) Config.trio.init
    (trioCommit ++ [.snapshot 1 1 [9] { fault := fun _ => some 0 }])
    (.of_forall (fun _ _ _ => trivial) _) rfl
  exact ⟨_, _, hs, rfl, by decide, by decide, by decide, by decide, by decide⟩

end KMC
