import KillMyCluster.Raft.Persist

/-! What each persister call, complete or cut short, does to the state a replay reads back. -/

namespace KMC

/-! ## Replay -/

theorem foldl_replay_snap (wal : List Rec) (st : PersistedState) (snap : Snapshot) :
    wal.foldl PersistedState.replay { st with snap := snap } =
      { wal.foldl PersistedState.replay st with snap := snap } := by
  induction wal generalizing st with
  | nil => rfl
  | cons r wal ih =>
    have hr : ({ st with snap := snap } : PersistedState).replay r =
        { st.replay r with snap := snap } := by cases r <;> rfl
    rw [List.foldl_cons, hr]
    exact ih (st.replay r)

theorem foldl_replay_entries (es : List LogEntry) (st : PersistedState) :
    (es.map Rec.entry).foldl PersistedState.replay st =
      { st with entries := st.entries ++ es } := by
  induction es generalizing st with
  | nil => simp
  | cons e es ih => simp [ih, PersistedState.replay]

@[simp] theorem Disk.replayed_snap (d : Disk) : d.replayed.snap = d.image := by
  rw [replayed, foldl_replay_snap d.wal {} d.image]

/-- A truncate marker takes back exactly the entries it was written for. -/
theorem dropTail_append {start : ℕ} {xs ys : List LogEntry} (hys : ∀ e ∈ ys, start ≤ e.index)
    (hxs : ∀ e, xs.getLast? = some e → e.index < start) : dropTail start (xs ++ ys) = xs := by
  unfold dropTail
  rw [List.reverse_append, List.dropWhile_append_of_pos (by simpa using hys)]
  rcases List.eq_nil_or_concat xs with rfl | ⟨zs, e, rfl⟩
  · rfl
  · have := hxs e (by simp)
    simp [this]

/-- Recovery skips the entries a snapshot covers. -/
theorem dropWhile_covered {si : ℕ} {junk xs : List LogEntry} (hj : ∀ e ∈ junk, e.index ≤ si)
    (hx : ∀ e, xs.head? = some e → si < e.index) :
    (junk ++ xs).dropWhile (fun e => decide (e.index ≤ si)) = xs := by
  rw [List.dropWhile_append_of_pos (by simpa using hj)]
  cases xs with
  | nil => rfl
  | cons e xs =>
    have := hx e rfl
    simp [this]

/-! ## Calls -/

namespace Disk

variable (d : Disk)

theorem replayed_hardState (t v : ℕ) :
    (d.run (.saveHardState t v)).replayed = { d.replayed with term := t, votedFor := v } := by
  simp [run, replayed, image, Call.records, PersistedState.replay]

theorem replayed_append (es : List LogEntry) :
    (d.run (.appendEntries es)).replayed =
      { d.replayed with entries := d.replayed.entries ++ es } := by
  simp [run, replayed, image, Call.records, foldl_replay_entries]

theorem replayed_truncate (i : ℕ) :
    (d.run (.truncateFrom i)).replayed =
      { d.replayed with entries := dropTail i d.replayed.entries } := by
  simp [run, replayed, image, Call.records, PersistedState.replay]

theorem replayed_snapshot (snap : Snapshot) (t v : ℕ) (keep : List LogEntry) :
    (d.run (.saveSnapshot snap t v keep)).replayed = ⟨t, v, keep, snap⟩ := by
  simp [run, replayed, image, Call.records, PersistedState.replay, foldl_replay_entries]

theorem replayed_setSnap (snap : Snapshot) :
    ({ d with snap := some snap } : Disk).replayed = { d.replayed with snap := snap } := by
  have h1 := foldl_replay_snap d.wal {} snap
  have h2 := foldl_replay_snap d.wal {} d.image
  simp only [replayed, image, Option.getD_some]
  rw [h1]
  simp only [image] at h2
  rw [h2]

@[simp] theorem run_snap_hardState (t v : ℕ) : (d.run (.saveHardState t v)).snap = d.snap := rfl

@[simp] theorem run_snap_append (es : List LogEntry) : (d.run (.appendEntries es)).snap = d.snap :=
  rfl

@[simp] theorem run_snap_truncate (i : ℕ) : (d.run (.truncateFrom i)).snap = d.snap := rfl

@[simp] theorem run_snap_snapshot (snap : Snapshot) (t v : ℕ) (keep : List LogEntry) :
    (d.run (.saveSnapshot snap t v keep)).snap = some snap := rfl

/-! A call cut short leaves the disk as it was, as a complete call would, or with a part of the
entries; `saveSnapshot` may also leave the new image over the old log. -/

theorem write_hardState (k t v : ℕ) : d.write k (.saveHardState t v) = d ∨
    d.write k (.saveHardState t v) = d.run (.saveHardState t v) := by
  cases k with
  | zero => exact Or.inl (by simp [write])
  | succ k => exact Or.inr (by simp [write, run, Call.records])

theorem write_truncate (k i : ℕ) : d.write k (.truncateFrom i) = d ∨
    d.write k (.truncateFrom i) = d.run (.truncateFrom i) := by
  cases k with
  | zero => exact Or.inl (by simp [write])
  | succ k => exact Or.inr (by simp [write, run, Call.records])

theorem write_append (k : ℕ) (es : List LogEntry) :
    d.write k (.appendEntries es) = d.run (.appendEntries (es.take k)) := by
  simp [write, run, Call.records]

theorem write_renamed (k : ℕ) (snap : Snapshot) (t v : ℕ) (keep : List LogEntry) :
    d.write (k + 1) (.saveSnapshot snap t v keep) = { d with snap := some snap } ∨
    d.write (k + 1) (.saveSnapshot snap t v keep) = d.run (.saveSnapshot snap t v keep) := by
  cases k with
  | zero => exact Or.inl rfl
  | succ k => exact Or.inr rfl

theorem write_snapshot (k : ℕ) (snap : Snapshot) (t v : ℕ) (keep : List LogEntry) :
    d.write k (.saveSnapshot snap t v keep) = d ∨
    d.write k (.saveSnapshot snap t v keep) = { d with snap := some snap } ∨
    d.write k (.saveSnapshot snap t v keep) = d.run (.saveSnapshot snap t v keep) := by
  cases k with
  | zero => exact Or.inl rfl
  | succ k => exact Or.inr (d.write_renamed k snap t v keep)

variable {d} {c : Call} {x : Rec}

theorem mem_run (h : x ∈ (d.run c).wal) : x ∈ d.wal ∨ x ∈ c.records := by
  cases c with
  | saveSnapshot snap t v keep => exact .inr h
  | saveHardState | appendEntries | truncateFrom => exact List.mem_append.mp h

theorem mem_write {k : ℕ} (h : x ∈ (d.write k c).wal) : x ∈ d.wal ∨ x ∈ c.records := by
  cases c with
  | saveSnapshot snap t v keep =>
    rcases d.write_snapshot k snap t v keep with hw | hw | hw <;> rw [hw] at h
    · exact .inl h
    · exact .inl h
    · exact .inr h
  | saveHardState | appendEntries | truncateFrom =>
    exact (List.mem_append.mp h).imp_right List.mem_of_mem_take

variable (d)

/-- The disk after calls that all returned nil. -/
def runs (calls : List Call) : Disk := calls.foldl run d

/-- The disk when the process dies `k` calls later, `r` writes into the next. -/
def crashed (calls : List Call) (k r : ℕ) : Disk :=
  ((calls.drop k).head?).elim (d.runs (calls.take k)) ((d.runs (calls.take k)).write r)

@[simp] theorem runs_nil : d.runs [] = d := rfl

@[simp] theorem runs_cons (c : Call) (cs : List Call) : d.runs (c :: cs) = (d.run c).runs cs := rfl

theorem runs_append (cs cs' : List Call) : d.runs (cs ++ cs') = (d.runs cs).runs cs' :=
  List.foldl_append ..

@[simp] theorem crashed_nil (k r : ℕ) : d.crashed [] k r = d := by simp [crashed, runs]

@[simp] theorem crashed_zero (c : Call) (cs : List Call) (r : ℕ) :
    d.crashed (c :: cs) 0 r = d.write r c := rfl

@[simp] theorem crashed_succ (c : Call) (cs : List Call) (k r : ℕ) :
    d.crashed (c :: cs) (k + 1) r = (d.run c).crashed cs k r := rfl

end Disk

end KMC
