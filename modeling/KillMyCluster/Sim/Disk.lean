import KillMyCluster.Durable.Tracks
import KillMyCluster.Sim.Ghost

/-! What the disk of a node says about the abstract log, while the node runs (`Core`) and after
it died (`Down`). -/

namespace KMC

open LeaderLog

variable (K : Setting) (g : Ghost) {c : List LogEntry}

structure Setting.FileOK (T : ℕ) (d : Disk) (c : List LogEntry) : Prop where
  committed : Committed g T c
  length : c.length = d.image.index
  term : d.image.term = logTerm c
  stands : K.honest → ∀ snap, d.snap = some snap → K.stands snap.data = c.map LogEntry.data

structure Setting.OnDisk (T votedFor : ℕ) (l : RaftLog) (ci : ℕ) (d : Disk) : Prop
    extends Tracks l d where
  term : d.replayed.term = T
  votedFor : d.replayed.votedFor = votedFor
  le_commit : d.image.index ≤ ci
  file : ∃ c, K.FileOK g T d c

/-- Term, vote, log and commit index of a running node, in memory and on disk. -/
structure Setting.Core (p T votedFor : ℕ) (l : RaftLog) (ci : ℕ) (d : Disk) : Prop where
  vote : VoteRel g p T votedFor
  log : LogRel l (g.log p)
  base : ∃ c, K.Base g T l (g.log p) c ∧ c.length = ci
  disk : K.OnDisk g T votedFor l ci d

structure Setting.DownAt (p : ℕ) (d : Disk) (c : List LogEntry) : Prop where
  vote : VoteRel g p d.replayed.term d.replayed.votedFor
  file : K.FileOK g d.replayed.term d c
  entries : ∃ junk, d.replayed.entries = junk ++ (g.log p).drop c.length ∧
    ∀ e ∈ junk, 1 ≤ e.index ∧ e.index ≤ c.length
  le : c.length ≤ (g.log p).length
  index : ∀ i e, c.length ≤ i → (g.log p)[i]? = some e → e.index = i + 1
  last : c.length = (g.log p).length → logTerm c = logTerm (g.log p)
  fresh : K.fresh → c <+: g.log p

def Setting.Down (p : ℕ) (d : Disk) : Prop := ∃ c, K.DownAt g p d c

/-- Wherever the calls are interrupted, the disk is one the abstract log can account for, with an
image that reaches at least to `lo`. -/
def Setting.CrashSafe (p lo : ℕ) (d : Disk) (calls : List Call) : Prop :=
  ∀ k r, ∃ g', K.cfg.Acts p g g' ∧ K.Down g' p (d.crashed calls k r) ∧
    lo ≤ (d.crashed calls k r).image.index

variable {K g} {g' : Ghost} {p lo T w ci : ℕ} {l : RaftLog} {d : Disk}

/-! ## Monotonicity -/

theorem Setting.FileOK.mono (h : K.cfg.Inv g) (hg : Grew g g') {T' : ℕ} (hT : T ≤ T')
    (hf : K.FileOK g T d c) : K.FileOK g' T' d c :=
  { hf with committed := hf.committed.mono h hg hT }

theorem Setting.OnDisk.mono (h : K.cfg.Inv g) (hg : Grew g g') {ci' : ℕ} (hci : ci ≤ ci')
    (hd : K.OnDisk g T w l ci d) : K.OnDisk g' T w l ci' d := by
  obtain ⟨c, hc⟩ := hd.file
  exact { hd with le_commit := hd.le_commit.trans hci, file := ⟨c, hc.mono h hg le_rfl⟩ }

theorem Setting.SnapOK.file {snap : Snapshot} (hs : K.SnapOK g T snap)
    (hd : d.snap = some snap) : ∃ c, K.FileOK g T d c := by
  obtain ⟨c, hc, hlen, ht, hst⟩ := hs
  have hi : d.image = snap := by simp [Disk.image, hd]
  refine ⟨c, hc, by rw [hi, hlen], by rw [hi, ht], fun hh snap' hs' => ?_⟩
  rw [hd] at hs'
  rw [← Option.some.inj hs', hst hh]

theorem Setting.FileOK.snap (h : K.FileOK g T d c) (hne : d.image.index ≠ 0) :
    d.snap = some d.image ∧ K.SnapOK g T d.image := by
  obtain ⟨snap, hs⟩ : ∃ snap, d.snap = some snap := by
    cases hd : d.snap with
    | none => simp [Disk.image, hd] at hne
    | some snap => exact ⟨snap, rfl⟩
  have himg : d.image = snap := by simp [Disk.image, hs]
  exact ⟨himg ▸ hs, c, h.committed, h.length, h.term,
    fun hh => by rw [himg]; exact h.stands hh snap hs⟩

/-! ## Each call -/

theorem Setting.OnDisk.hardState (h : K.cfg.Inv g) {T' : ℕ} (hT : T ≤ T') (w' : ℕ)
    (hd : K.OnDisk g T w l ci d) : K.OnDisk g T' w' l ci (d.run (.saveHardState T' w')) := by
  obtain ⟨c, hc⟩ := hd.file
  exact ⟨hd.toTracks.hardState T' w', by rw [d.replayed_hardState], by rw [d.replayed_hardState],
    hd.le_commit, c, { hc.mono h (Grows.refl g) hT with }⟩

theorem Setting.OnDisk.append (es : List LogEntry) (hd : K.OnDisk g T w l ci d) :
    K.OnDisk g T w (l.append es) ci (d.run (.appendEntries es)) := by
  obtain ⟨c, hc⟩ := hd.file
  exact ⟨hd.toTracks.append es, by rw [d.replayed_append]; exact hd.term,
    by rw [d.replayed_append]; exact hd.votedFor, hd.le_commit, c, { hc with }⟩

theorem Setting.OnDisk.truncate (hwf : l.WF) {i : ℕ} (hi : l.firstIndex < i)
    (hd : K.OnDisk g T w l ci d) :
    K.OnDisk g T w (l.truncateFrom i) ci (d.run (.truncateFrom i)) := by
  obtain ⟨c, hc⟩ := hd.file
  exact ⟨hd.toTracks.truncate hwf hi, by rw [d.replayed_truncate]; exact hd.term,
    by rw [d.replayed_truncate]; exact hd.votedFor, hd.le_commit, c, { hc with }⟩

/-- A new image at most as far as the log was applied, without touching the log file. -/
theorem Setting.OnDisk.replaceSnap {snap : Snapshot} (hf : l.firstIndex ≤ snap.index)
    (hci : snap.index ≤ ci) (hs : K.SnapOK g T snap) (hd : K.OnDisk g T w l ci d) :
    K.OnDisk g T w l ci { d with snap := some snap } :=
  ⟨hd.toTracks.setSnap hf, by rw [d.replayed_setSnap]; exact hd.term,
    by rw [d.replayed_setSnap]; exact hd.votedFor, hci, hs.file rfl⟩

/-- A new image over the old log file: recovery skips what the image covers. -/
theorem Setting.OnDisk.setSnap (hwf : l.WF) {snap : Snapshot} (hf : l.firstIndex < snap.index)
    (hs : K.SnapOK g T snap) {t : ℕ} (hd : K.OnDisk g T w l ci d) :
    K.OnDisk g T w (l.compactTo snap.index t) snap.index { d with snap := some snap } := by
  have htr : Tracks (l.compactTo snap.index t) { d with snap := some snap } := by
    rw [hwf.compactTo hf]
    exact (hd.toTracks.setSnap hf.le).shift hwf hf.le le_rfl rfl
  exact ⟨htr, by rw [d.replayed_setSnap]; exact hd.term,
    by rw [d.replayed_setSnap]; exact hd.votedFor, le_rfl, hs.file rfl⟩

theorem Setting.OnDisk.snapshot {snap : Snapshot} (hf : l.firstIndex ≤ snap.index)
    (hci : snap.index ≤ ci) (hs : K.SnapOK g T snap) (d : Disk) :
    K.OnDisk g T w l ci (d.run (.saveSnapshot snap T w l.allEntries)) :=
  ⟨.snapshot d hf T w, by rw [d.replayed_snapshot], by rw [d.replayed_snapshot], hci, hs.file rfl⟩

/-! ## Death -/

/-- A committed prefix as long as the log ends in the same term. -/
theorem Setting.Base.logTerm_eq {v : List LogEntry} (hb : K.Base g T l v c) (hl : LogRel l v)
    (hlen : c.length = v.length) : logTerm c = logTerm v := by
  rcases hl.first_le.eq_or_lt with heq | hlt
  · rw [← hl.sentinel heq, hb.sentinel, List.take_of_length_le (by omega)]
  · have hlast : v.getLast? = c.getLast? := by
      rw [List.getLast?_eq_getElem?, List.getLast?_eq_getElem?, hlen]
      exact hb.getElem hl (by omega) (by omega)
    simp only [logTerm, LeaderLog.lastTerm, hlast]

theorem Setting.Core.down (h : K.cfg.Inv g) (hc : K.Core g p T w l ci d) : K.Down g p d := by
  obtain ⟨cb, hb, hlen⟩ := hc.base
  obtain ⟨c, hf⟩ := hc.disk.file
  have hle : c.length ≤ cb.length := by rw [hf.length, hlen]; exact hc.disk.le_commit
  have hcb := hb.le_length hc.log
  have hpre : c <+: cb := by
    rcases h.committed_comparable hf.committed hb.committed with h1 | h1
    · exact h1
    · exact (h1.eq_of_length (le_antisymm h1.length_le hle)) ▸ List.prefix_rfl
  have hfirst : l.firstIndex ≤ c.length := by rw [hf.length]; exact hc.disk.first_le
  refine ⟨c, ?_, ?_, ?_, by omega, ?_, ?_, fun hfr => hpre.trans (hb.fresh hfr)⟩
  · rw [hc.disk.term, hc.disk.votedFor]; exact hc.vote
  · rw [hc.disk.term]; exact hf
  · obtain ⟨junk, hj, hjle⟩ := hc.disk.entries
    refine ⟨junk ++ l.reals.take (c.length - l.firstIndex), ?_, ?_⟩
    · have hd : (g.log p).drop c.length = l.reals.drop (c.length - l.firstIndex) := by
        rw [hc.log.reals, List.drop_drop]; congr 1; omega
      rw [hj, hd, List.append_assoc, List.take_append_drop]
    · intro e he
      rcases List.mem_append.mp he with hm | hm
      · have := hjle e hm
        omega
      · have := hc.log.wf.of_mem_take hm
        omega
  · exact fun i e hi he => hc.log.index (by omega) he
  · intro heq
    obtain rfl : c = cb := hpre.eq_of_length (by omega)
    exact hb.logTerm_eq hc.log heq

/-! ## Crash safety of a list of calls -/

theorem Setting.crashSafe_nil (h : K.Down g p d) (hlo : lo ≤ d.image.index) :
    K.CrashSafe g p lo d [] := fun k r => ⟨g, .refl, by simpa using h, by simpa using hlo⟩

theorem Setting.crashSafe_cons {c : Call} {cs : List Call}
    (hw : ∀ r, ∃ g', K.cfg.Acts p g g' ∧ K.Down g' p (d.write r c) ∧
      lo ≤ (d.write r c).image.index)
    (hr : ∃ g', K.cfg.Acts p g g' ∧ K.CrashSafe g' p lo (d.run c) cs) :
    K.CrashSafe g p lo d (c :: cs) := by
  intro k r
  cases k with
  | zero => exact hw r
  | succ k =>
    obtain ⟨g₁, h₁, hs⟩ := hr
    obtain ⟨g₂, h₂, hd⟩ := hs k r
    exact ⟨g₂, h₁.trans h₂, hd⟩

theorem Setting.CrashSafe.append {cs cs' : List Call} (hs : K.CrashSafe g p lo d cs)
    (hr : ∃ g', K.cfg.Acts p g g' ∧ K.CrashSafe g' p lo (d.runs cs) cs') :
    K.CrashSafe g p lo d (cs ++ cs') := by
  intro k r
  by_cases hk : k < cs.length
  · have : d.crashed (cs ++ cs') k r = d.crashed cs k r := by
      simp only [Disk.crashed, List.take_append_of_le_length hk.le,
        List.drop_append_of_le_length hk.le]
      rw [List.head?_append_of_ne_nil _ (by simpa using hk)]
    rw [this]
    exact hs k r
  · have : d.crashed (cs ++ cs') k r = (d.runs cs).crashed cs' (k - cs.length) r := by
      simp only [Disk.crashed, List.take_append, List.drop_append, Disk.runs_append,
        List.take_of_length_le (not_lt.mp hk), List.drop_of_length_le (not_lt.mp hk),
        List.nil_append]
    rw [this]
    obtain ⟨g₁, h₁, hs'⟩ := hr
    obtain ⟨g₂, h₂, hd⟩ := hs' (k - cs.length) r
    exact ⟨g₂, h₁.trans h₂, hd⟩

end KMC
