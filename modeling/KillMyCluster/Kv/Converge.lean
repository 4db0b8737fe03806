import KillMyCluster.Kv.Dedup

/-! Replicas converge. The state that goes into an image is the whole state that decides what later
commands do, up to nil and empty slices, so a replica restored from an image goes on like one that
applied everything itself. -/

namespace KMC

/-! ## Equal up to nil and empty -/

@[simp] theorem Slice.norm_bytes (s : Slice) : (Slice.norm s).bytes = s.bytes := rfl

@[simp] theorem Slice.norm_norm (s : Slice) : Slice.norm (Slice.norm s) = Slice.norm s := rfl

@[simp] theorem ApplyResult.norm_norm (res : ApplyResult) : res.norm.norm = res.norm := rfl

structure Machine.Like (m m' : Machine) : Prop where
  data : m.data.mapVals Slice.norm = m'.data.mapVals Slice.norm
  applied : m.applied.mapVals ApplyResult.norm = m'.applied.mapVals ApplyResult.norm
  maxReq : m.maxReq = m'.maxReq
  applyCount : m.applyCount = m'.applyCount

namespace Machine

variable {m m' : Machine} {cmd : Command}

theorem like_iff : m.Like m' ↔ m.norm = m'.norm := by
  constructor
  · rintro ⟨h1, h2, h3, h4⟩
    simp [norm, h1, h2, h3, h4]
  · intro h
    simp only [norm, Machine.mk.injEq] at h
    exact ⟨h.1, h.2.1, h.2.2.1, h.2.2.2⟩

theorem Like.refl (m : Machine) : m.Like m := ⟨rfl, rfl, rfl, rfl⟩

theorem Like.symm (h : m.Like m') : m'.Like m :=
  ⟨h.data.symm, h.applied.symm, h.maxReq.symm, h.applyCount.symm⟩

theorem Like.trans {m'' : Machine} (h : m.Like m') (h' : m'.Like m'') : m.Like m'' :=
  ⟨h.data.trans h'.data, h.applied.trans h'.applied, h.maxReq.trans h'.maxReq,
    h.applyCount.trans h'.applyCount⟩

theorem Like.get_applied (h : m.Like m') (k : DedupKey) :
    (m.applied.get k).map ApplyResult.norm = (m'.applied.get k).map ApplyResult.norm := by
  rw [← Table.get_mapVals, ← Table.get_mapVals, h.applied]

theorem Like.size (h : m.Like m') : m.applied.size = m'.applied.size := by
  rw [← Table.size_mapVals ApplyResult.norm m.applied, h.applied, Table.size_mapVals]

theorem Like.maxRequest (h : m.Like m') (client : Bytes) :
    m.maxRequest client = m'.maxRequest client := by
  rw [Machine.maxRequest, Machine.maxRequest, h.maxReq]

/-! ## Apply -/

/-- Operations read values only through their bytes. -/
theorem execute_like {data data' : Table Bytes Slice}
    (h : data.mapVals Slice.norm = data'.mapVals Slice.norm) (cmd : Command) :
    (execute data cmd).1.mapVals Slice.norm = (execute data' cmd).1.mapVals Slice.norm ∧
      (execute data cmd).2.norm = (execute data' cmd).2.norm := by
  have hget : ∀ k, (data.get k).map Slice.norm = (data'.get k).map Slice.norm := fun k => by
    rw [← Table.get_mapVals, ← Table.get_mapVals, h]
  have hset : ∀ k v, (data.set k v).mapVals Slice.norm = (data'.set k v).mapVals Slice.norm :=
    fun k v => by rw [Table.mapVals_set, Table.mapVals_set, h]
  have hkey := hget cmd.key
  unfold execute
  cases hd : data.get cmd.key with
  | none =>
    obtain hd' : data'.get cmd.key = none := by simpa [hd] using hkey.symm
    simp only [hd']
    split
    · exact ⟨h, rfl⟩
    split
    · exact ⟨hset _ _, rfl⟩
    split
    · split
      · exact ⟨h, rfl⟩
      · exact ⟨hset _ _, rfl⟩
    split
    · exact ⟨hset _ _, rfl⟩
    · exact ⟨h, rfl⟩
  | some v =>
    obtain ⟨v', hd', hv⟩ : ∃ v', data'.get cmd.key = some v' ∧ Slice.norm v' = Slice.norm v := by
      rw [hd] at hkey
      exact Option.map_eq_some_iff.mp hkey.symm
    have hb : Slice.bytes v = Slice.bytes v' := (Option.some.inj hv).symm
    simp only [hd']
    split
    · exact ⟨h, by simp [ApplyResult.norm, hv]⟩
    split
    · exact ⟨hset _ _, by simp [ApplyResult.norm, hv]⟩
    split
    · rw [hb]
      split
      · exact ⟨hset _ _, by simp [ApplyResult.norm, hv]⟩
      · exact ⟨h, by simp [ApplyResult.norm, hv]⟩
    split
    · exact ⟨hset _ _, rfl⟩
    · exact ⟨h, rfl⟩

theorem Like.note (h : m.Like m') {res res' : ApplyResult} (hr : res.norm = res'.norm) :
    (m.note cmd res).Like (m'.note cmd res') where
  data := h.data
  applied := by
    simp only [Machine.note, Table.mapVals_set, h.applied]
    congr 1
    simp only [ApplyResult.norm, ApplyResult.mk.injEq] at hr ⊢
    exact ⟨hr.1, hr.2.1, trivial⟩
  maxReq := by simp only [Machine.note, h.maxReq, h.maxRequest]
  applyCount := by simp only [Machine.note, h.applyCount]

theorem Like.sweep (h : m.Like m') : m.sweepDedupLocked.Like m'.sweepDedupLocked where
  data := h.data
  applied := by
    simp only [sweepDedupLocked, Table.mapVals_prune, h.applied, h.maxRequest]
  maxReq := h.maxReq
  applyCount := h.applyCount

theorem Like.remember (h : m.Like m') {res res' : ApplyResult} (hr : res.norm = res'.norm) :
    (m.remember cmd res).Like (m'.remember cmd res') := by
  have hn : (m.note cmd res).Like (m'.note cmd res') := h.note hr
  unfold Machine.remember
  simp only [hn.size, hn.applyCount]
  split
  · exact hn.sweep
  · exact hn

theorem Like.ran (h : m.Like m') : (m.ran cmd).Like (m'.ran cmd) := by
  obtain ⟨h1, h2⟩ := execute_like h.data cmd
  have hd : ({ m with data := (execute m.data cmd).1 } : Machine).Like
      { m' with data := (execute m'.data cmd).1 } := ⟨h1, h.applied, h.maxReq, h.applyCount⟩
  unfold Machine.ran
  simp only
  split
  · exact hd.remember h2
  · exact hd

theorem Like.apply (h : m.Like m') (cmd : Command) :
    (m.apply cmd).1.Like (m'.apply cmd).1 ∧ (m.apply cmd).2.norm = (m'.apply cmd).2.norm := by
  have hkey := h.get_applied cmd.dedupKey
  rcases m.apply_cases cmd with ⟨prev, ht, hp, ha⟩ | ⟨hnone, ha⟩ <;> rw [ha]
  · rw [hp] at hkey
    obtain ⟨prev', hp', hn⟩ := Option.map_eq_some_iff.mp hkey.symm
    rw [apply_hit ht hp']
    refine ⟨h, ?_⟩
    simp only [ApplyResult.norm, ApplyResult.mk.injEq] at hn ⊢
    exact ⟨hn.1.symm, hn.2.1.symm, trivial⟩
  · have hnone' : cmd.tracked = true → m'.applied.get cmd.dedupKey = none := fun ht => by
      simpa [hnone ht] using hkey.symm
    rw [apply_run hnone']
    exact ⟨h.ran, (execute_like h.data cmd).2⟩

/-! ## Images -/

/-- No result in the table is marked as a duplicate. -/
def Clean (m : Machine) : Prop := ∀ k res, m.applied.get k = some res → res.duplicate = false

theorem clean_new : newMachine.Clean := by
  intro k res h
  simp [newMachine] at h

theorem Like.clean (h : m.Like m') (hm : m.Clean) : m'.Clean := by
  intro k res hk
  have hkey := h.get_applied k
  rw [hk] at hkey
  obtain ⟨res', hr, hn⟩ := Option.map_eq_some_iff.mp hkey
  have := hm k res' hr
  simp only [ApplyResult.norm, ApplyResult.mk.injEq] at hn
  rw [← hn.2.2, this]

theorem Clean.apply (h : m.Clean) (cmd : Command) : (m.apply cmd).1.Clean := by
  rcases m.apply_cases cmd with ⟨_, -, -, ha⟩ | ⟨-, ha⟩ <;> rw [ha]
  · exact h
  by_cases ht : cmd.tracked = true
  swap
  · rw [ran_untracked (by simpa using ht)]
    exact h
  intro k res hk
  simp only [Machine.ran, ht, if_true] at hk
  rcases remember_get { m with data := (execute m.data cmd).1 } cmd (execute m.data cmd).2 k with
    hget | ⟨hget, -⟩ <;> rw [hget] at hk
  · simp only [Machine.note, Table.get_set] at hk
    split at hk
    · rw [← Option.some.inj hk]
    · exact h k res hk
  · cases hk

theorem Clean.contents (h : m.Clean) : m.snapshotData.contents = m := by
  have hcopy : m.applied.mapVals ApplyResult.copy = m.applied := by
    rw [← Table.mapVals_id m.applied, Table.mapVals_mapVals]
    refine Table.mapVals_congr fun k res hk => ?_
    have := h k res hk
    simp only [Function.comp_apply, id, ApplyResult.copy]
    split
    · rw [← this]
    · rfl
  simp [snapshotData, SnapshotData.contents, hcopy]

/-- A restored replica is like the one the image was taken of, whatever it held before. -/
theorem restore_snapshot {gob : Gob} {raw : Bytes} (h : m.Clean) (hs : m.snapshot gob = some raw)
    (onto : Machine) : ∃ m', onto.restore gob raw = some m' ∧ m.Like m' := by
  obtain ⟨snap, hd, hn⟩ := gob.roundTrip _ _ hs
  refine ⟨snap.contents, by simp [restore, hd], ?_⟩
  rw [h.contents] at hn
  exact like_iff.mpr hn.symm

end Machine

/-! ## Any number of moves -/

inductive ReplicaOp
  | apply (cmd : Command)
  | move (onto : Machine)

def ReplicaOp.commands : List ReplicaOp → List Command
  | [] => []
  | .apply cmd :: ops => cmd :: commands ops
  | .move _ :: ops => commands ops

/-- `none` if an image cannot be encoded or decoded. -/
def ReplicaOp.run (gob : Gob) (m : Machine) : List ReplicaOp → Option (Machine × List ApplyResult)
  | [] => some (m, [])
  | .apply cmd :: ops => do
    let (m', rest) ← run gob (m.apply cmd).1 ops
    return (m', (m.apply cmd).2 :: rest)
  | .move onto :: ops => do
    let raw ← m.snapshot gob
    let m' ← onto.restore gob raw
    run gob m' ops

open Machine in
theorem ReplicaOp.run_like {gob : Gob} {ops : List ReplicaOp} {m m' mf : Machine}
    {results : List ApplyResult} (hl : m.Like m') (hc : m.Clean)
    (h : run gob m ops = some (mf, results)) :
    mf.Like (m'.applyAll (commands ops)).1 ∧
      results.map ApplyResult.norm = (m'.applyAll (commands ops)).2.map ApplyResult.norm := by
  induction ops generalizing m m' results with
  | nil =>
    obtain ⟨rfl, rfl⟩ := Prod.mk.inj (Option.some.inj h)
    exact ⟨hl, rfl⟩
  | cons op ops ih =>
    cases op with
    | apply cmd =>
      obtain ⟨⟨m₁, rest⟩, hrun, hr⟩ := Option.bind_eq_some_iff.mp h
      obtain ⟨rfl, rfl⟩ := Prod.mk.inj (Option.some.inj hr)
      obtain ⟨h1, h2⟩ := hl.apply cmd
      obtain ⟨h3, h4⟩ := ih h1 (hc.apply cmd) hrun
      exact ⟨h3, by simp [commands, applyAll, h2, h4]⟩
    | move onto =>
      obtain ⟨raw, hs, h⟩ := Option.bind_eq_some_iff.mp h
      obtain ⟨m₁, hm₁, hrun⟩ := Option.bind_eq_some_iff.mp h
      obtain ⟨m₂, hm₂, hlike⟩ := restore_snapshot hc hs onto
      obtain rfl := Option.mem_unique hm₁ hm₂
      exact ih (hlike.symm.trans hl) (hlike.clean hc) hrun

/-- However a sequence of commands is cut by moves to other machines, the state at the end and
every result are those of one machine that applied all of it. -/
theorem replicas_converge {gob : Gob} {ops : List ReplicaOp} {m : Machine}
    {results : List ApplyResult} (h : ReplicaOp.run gob newMachine ops = some (m, results)) :
    m.norm = (newMachine.applyAll (ReplicaOp.commands ops)).1.norm ∧
      results.map ApplyResult.norm =
        (newMachine.applyAll (ReplicaOp.commands ops)).2.map ApplyResult.norm := by
  obtain ⟨h1, h2⟩ := ReplicaOp.run_like (.refl newMachine) Machine.clean_new h
  exact ⟨Machine.like_iff.mp h1, h2⟩

def oneImage (snap : SnapshotData) : Gob where
  encode s := if s = snap then some [1] else none
  decode _ := some snap
  roundTrip s raw h := by
    split at h
    · rename_i hs
      exact ⟨snap, rfl, by rw [hs]⟩
    · cases h

def movedPut : List ReplicaOp :=
  [.apply ⟨opPut, [1], 5, [7], some [1], none⟩,
    .move { data := (∅ : Table Bytes Slice).set [8] none },
    .apply ⟨opPut, [1], 5, [7], some [1], none⟩]

def movedRun : Option (Machine × List ApplyResult) :=
  ReplicaOp.run (oneImage (newMachine.apply ⟨opPut, [1], 5, [7], some [1], none⟩).1.snapshotData)
    newMachine movedPut

theorem movedRun_isSome : movedRun.isSome = true := by decide

theorem replicas_converge_moved : ∃ m results, movedRun = some (m, results) ∧
    results.map ApplyResult.duplicate = [false, true] ∧
    m.norm = (newMachine.applyAll (ReplicaOp.commands movedPut)).1.norm := by
  have hrun : movedRun =
      some ((movedRun.get movedRun_isSome).1, (movedRun.get movedRun_isSome).2) :=
    (Option.some_get movedRun_isSome).symm
  exact ⟨_, _, hrun, by decide, (replicas_converge hrun).1⟩

end KMC
