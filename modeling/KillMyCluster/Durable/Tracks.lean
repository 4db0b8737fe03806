import KillMyCluster.Raft.Recover

/-! The log file against the log in memory. The file may begin with entries that the snapshot
covers; they are skipped on recovery and no truncate marker reaches them. What follows is the
log in memory, call by call. -/

namespace KMC

def RaftLog.above (l : RaftLog) (i : ℕ) : List LogEntry := l.reals.drop (i - l.firstIndex)

/-- The log that `NewNode` builds from what `openPersister` returns. -/
def Disk.recovered (d : Disk) : RaftLog :=
  (RaftLog.newRaftLog (openPersister d).snap.index (openPersister d).snap.term).append
    (openPersister d).entries

theorem newNode_log (id : ℕ) (peers : List ℕ) (retain : ℤ) (d : Disk) :
    (newNode id peers retain (openPersister d)).log = d.recovered := rfl

theorem openPersister_snap (d : Disk) : (openPersister d).snap = d.image := by
  unfold openPersister
  simp only
  split <;> exact d.replayed_snap

/-- A disk that gives back the log `l`, from its snapshot on. -/
structure Tracks (l : RaftLog) (d : Disk) : Prop where
  entries : ∃ junk, d.replayed.entries = junk ++ l.reals ∧
    ∀ e ∈ junk, 1 ≤ e.index ∧ e.index ≤ l.firstIndex
  first_le : l.firstIndex ≤ d.image.index

variable {l l' : RaftLog} {d : Disk}

theorem tracks_empty : Tracks (RaftLog.newRaftLog 0 0) {} := ⟨⟨[], rfl, by simp⟩, le_rfl⟩

/-! ## Each call -/

namespace Tracks

theorem hardState (h : Tracks l d) (t v : ℕ) : Tracks l (d.run (.saveHardState t v)) :=
  ⟨by rw [d.replayed_hardState]; exact h.entries, h.first_le⟩

theorem append (h : Tracks l d) (es : List LogEntry) :
    Tracks (l.append es) (d.run (.appendEntries es)) := by
  obtain ⟨junk, hj, hle⟩ := h.entries
  exact ⟨⟨junk, by rw [d.replayed_append, hj, RaftLog.append_reals, List.append_assoc], hle⟩,
    h.first_le⟩

theorem truncate (h : Tracks l d) (hwf : l.WF) {i : ℕ} (hi : l.firstIndex < i) :
    Tracks (l.truncateFrom i) (d.run (.truncateFrom i)) := by
  obtain ⟨junk, hj, hle⟩ := h.entries
  refine ⟨⟨junk, ?_, hle⟩, h.first_le⟩
  set n := i - l.firstIndex - 1 with hn
  have hsplit : l.reals = l.reals.take n ++ l.reals.drop n := (List.take_append_drop n _).symm
  rw [d.replayed_truncate, hj, RaftLog.truncateFrom_reals hi, ← hn, hsplit, ← List.append_assoc,
    List.take_append_drop]
  refine dropTail_append ?_ ?_
  · intro e he
    have := hwf.of_mem_drop he
    omega
  · intro e he
    -- what stays is junk below the sentinel or an entry before the cut
    rcases List.mem_append.mp (List.mem_of_getLast? he) with hm | hm
    · have := (hle e hm).2
      omega
    · have := hwf.of_mem_take hm
      omega

theorem setSnap (h : Tracks l d) {snap : Snapshot} (hs : l.firstIndex ≤ snap.index) :
    Tracks l { d with snap := some snap } :=
  ⟨by rw [d.replayed_setSnap]; exact h.entries, hs⟩

theorem snapshot (d : Disk) {snap : Snapshot} (hs : l.firstIndex ≤ snap.index) (t v : ℕ) :
    Tracks l (d.run (.saveSnapshot snap t v l.allEntries)) :=
  ⟨⟨[], by rw [d.replayed_snapshot]; rfl, by simp⟩, hs⟩

/-- Entries that the image covers may be left out of the log. -/
theorem shift (h : Tracks l d) (hwf : l.WF) (hfirst : l.firstIndex ≤ l'.firstIndex)
    (hle : l'.firstIndex ≤ d.image.index) (hreals : l'.reals = l.above l'.firstIndex) :
    Tracks l' d := by
  obtain ⟨junk, hj, hjle⟩ := h.entries
  refine ⟨⟨junk ++ l.reals.take (l'.firstIndex - l.firstIndex), ?_, fun e he => ?_⟩, hle⟩
  · rw [hj, hreals, RaftLog.above, List.append_assoc, List.take_append_drop]
  · rcases List.mem_append.mp he with hm | hm
    · have := hjle e hm
      omega
    · have := hwf.of_mem_take hm
      omega

/-! ## Recovery -/

theorem opened (h : Tracks l d) (hwf : l.WF) :
    (openPersister d).entries = l.above d.image.index := by
  obtain ⟨junk, hj, hle⟩ := h.entries
  have hfirst := h.first_le
  set n := d.image.index - l.firstIndex with hn
  have hall : ∀ e ∈ junk ++ l.reals.take n, 1 ≤ e.index ∧ e.index ≤ d.image.index := by
    intro e he
    rcases List.mem_append.mp he with hm | hm
    · have := hle e hm
      omega
    · have := hwf.of_mem_take hm
      omega
  have hsplit : d.replayed.entries = (junk ++ l.reals.take n) ++ l.above d.image.index := by
    rw [hj, RaftLog.above, List.append_assoc, List.take_append_drop]
  unfold openPersister
  simp only [Disk.replayed_snap]
  split
  · simp only [hsplit]
    refine dropWhile_covered (fun e he => (hall e he).2) fun e he => ?_
    have := hwf.of_mem_drop (List.mem_of_head? he)
    omega
  · -- without an image there is nothing in front
    rw [hsplit, List.append_left_eq_self]
    refine List.eq_nil_iff_forall_not_mem.mpr fun e he => ?_
    have := hall e he
    omega

theorem recovered (h : Tracks l d) (hwf : l.WF) :
    d.recovered = ⟨⟨d.image.index, d.image.term, []⟩, l.above d.image.index⟩ := by
  rw [Disk.recovered, openPersister_snap, h.opened hwf]
  rfl

end Tracks

theorem RaftLog.WF.above_index (hwf : l.WF) {i k : ℕ} {e : LogEntry} (hi : l.firstIndex ≤ i)
    (he : (l.above i)[k]? = some e) : e.index = i + 1 + k := by
  rw [RaftLog.above, List.getElem?_drop] at he
  have := hwf _ e he
  omega

theorem Tracks.recovered_wf (h : Tracks l d) (hwf : l.WF) : d.recovered.WF := by
  rw [h.recovered hwf]
  exact fun k e he => hwf.above_index h.first_le he

theorem Tracks.recovered_first (h : Tracks l d) (hwf : l.WF) :
    d.recovered.firstIndex = d.image.index := by
  rw [h.recovered hwf]
  rfl

theorem Tracks.recovered_last (h : Tracks l d) (hwf : l.WF) :
    l.lastIndex ≤ d.recovered.lastIndex := by
  have h1 := h.first_le
  rw [(h.recovered_wf hwf).lastIndex, h.recovered_first hwf, hwf.lastIndex, h.recovered hwf]
  simp only [RaftLog.above, List.length_drop]
  omega

/-- Above the snapshot recovery gives back what memory held. -/
theorem Tracks.recovered_entry (h : Tracks l d) (hwf : l.WF) {i : ℕ} (hi : d.image.index < i) :
    d.recovered.entry i = l.entry i := by
  have h1 := h.first_le
  have h2 := h.recovered_first hwf
  rw [RaftLog.WF.entry_real (by omega), RaftLog.WF.entry_real (by omega), h2, h.recovered hwf]
  simp only [RaftLog.above, List.getElem?_drop]
  congr 1
  omega

/-- The disk of a dead node: the log it will come back with is an unbroken one. -/
def Disk.Sound (d : Disk) : Prop := ∃ l : RaftLog, l.WF ∧ Tracks l d

/-- What was recovered is again what the disk gives back. -/
theorem Tracks.reopen (h : Tracks l d) (hwf : l.WF) : Tracks d.recovered d := by
  have hfirst := h.recovered_first hwf
  refine h.shift hwf (hfirst ▸ h.first_le) hfirst.le ?_
  rw [hfirst, h.recovered hwf]

end KMC
