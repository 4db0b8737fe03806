import KillMyCluster.Raft.Cluster

/-! Term and vote, in memory and on disk. Whatever else fails, as long as `saveHardState`
succeeds or kills the process, the two agree between critical sections, and no section gives a
second vote in one term. -/

namespace KMC

variable {a b h h' : ℕ × ℕ} {c : Call} {cs : List Call} {d : Disk} {io : Io}

def Disk.hard (d : Disk) : ℕ × ℕ := (d.replayed.term, d.replayed.votedFor)

def Node.hard (n : Node) : ℕ × ℕ := (n.currentTerm, n.votedFor)

def State.hard (s : State) (p : ℕ) : ℕ × ℕ := (s.servers p).disk.hard

/-- A later term, or the same one with the vote kept or given for the first time. -/
def Legal (h h' : ℕ × ℕ) : Prop := h.1 < h'.1 ∨ h.1 = h'.1 ∧ (h.2 = h'.2 ∨ h.2 = noVote)

/-- The calls take the persisted term and vote from `h` to `h'`, legally all along. -/
def Ledger : ℕ × ℕ → List Call → ℕ × ℕ → Prop
  | h, [], h' => h = h'
  | h, .saveHardState t v :: cs, h' => Legal h (t, v) ∧ Ledger (t, v) cs h'
  | h, .saveSnapshot _ t v _ :: cs, h' => h = (t, v) ∧ Ledger h cs h'
  | h, .appendEntries _ :: cs, h' => Ledger h cs h'
  | h, .truncateFrom _ :: cs, h' => Ledger h cs h'

theorem Legal.refl (h : ℕ × ℕ) : Legal h h := Or.inr ⟨rfl, Or.inl rfl⟩

theorem Legal.trans {c : ℕ × ℕ} (h : Legal a b) (h' : Legal b c) : Legal a c := by
  unfold Legal at *
  omega

theorem Legal.mono (h : Legal a b) : a.1 ≤ b.1 := by
  unfold Legal at h
  omega

theorem Ledger.legal (hl : Ledger h cs h') : Legal h h' := by
  induction cs generalizing h with
  | nil => exact hl ▸ Legal.refl h
  | cons c cs ih =>
    cases c with
    | saveHardState t v => exact hl.1.trans (ih hl.2)
    | saveSnapshot snap t v keep => exact ih hl.2
    | appendEntries es => exact ih hl
    | truncateFrom i => exact ih hl

theorem Ledger.append {c : ℕ × ℕ} {cs' : List Call} (h : Ledger a cs b) (h' : Ledger b cs' c) :
    Ledger a (cs ++ cs') c := by
  induction cs generalizing a with
  | nil =>
    obtain rfl : a = b := h
    exact h'
  | cons call cs ih =>
    cases call with
    | saveHardState t v => exact ⟨h.1, ih h.2⟩
    | saveSnapshot snap t v keep => exact ⟨h.1, ih h.2⟩
    | appendEntries es => exact ih h
    | truncateFrom i => exact ih h

/-! ## On the disk -/

theorem Disk.hard_eq {d' : Disk} (h1 : d'.replayed.term = d.replayed.term)
    (h2 : d'.replayed.votedFor = d.replayed.votedFor) : d'.hard = d.hard := by
  rw [hard, hard, h1, h2]

@[simp] theorem Disk.hard_run_hardState (d : Disk) (t v : ℕ) :
    (d.run (.saveHardState t v)).hard = (t, v) := by
  rw [hard, replayed_hardState]

@[simp] theorem Disk.hard_run_append (d : Disk) (es : List LogEntry) :
    (d.run (.appendEntries es)).hard = d.hard :=
  hard_eq (by rw [replayed_append]) (by rw [replayed_append])

@[simp] theorem Disk.hard_run_truncate (d : Disk) (i : ℕ) :
    (d.run (.truncateFrom i)).hard = d.hard :=
  hard_eq (by rw [replayed_truncate]) (by rw [replayed_truncate])

@[simp] theorem Disk.hard_run_snapshot (d : Disk) (snap : Snapshot) (t v : ℕ)
    (keep : List LogEntry) : (d.run (.saveSnapshot snap t v keep)).hard = (t, v) := by
  rw [hard, replayed_snapshot]

theorem Disk.hard_setSnap (d : Disk) (snap : Snapshot) :
    ({ d with snap := some snap } : Disk).hard = d.hard :=
  hard_eq (by rw [replayed_setSnap]) (by rw [replayed_setSnap])

/-- A call cut short anywhere: only `saveHardState` writes another term or vote. -/
theorem Ledger.hard_write (hl : Ledger h (c :: cs) h') (hd : d.hard = h) (r : ℕ) :
    (d.write r c).hard = h ∨ ∃ t v, c = .saveHardState t v ∧ (d.write r c).hard = (t, v) := by
  cases c with
  | saveHardState t v =>
    rcases d.write_hardState r t v with hw | hw <;> rw [hw]
    · exact Or.inl hd
    · exact Or.inr ⟨t, v, rfl, d.hard_run_hardState t v⟩
  | appendEntries es =>
    rw [Disk.write_append, Disk.hard_run_append]
    exact Or.inl hd
  | truncateFrom i =>
    rcases d.write_truncate r i with hw | hw <;> simp [hw, hd]
  | saveSnapshot snap t v keep =>
    rcases d.write_snapshot r snap t v keep with hw | hw | hw <;> rw [hw]
    · exact Or.inl hd
    · exact Or.inl ((d.hard_setSnap snap).trans hd)
    · exact Or.inl ((d.hard_run_snapshot snap t v keep).trans hl.1.symm)

theorem Ledger.write (hl : Ledger h (c :: cs) h') (hd : d.hard = h) (r : ℕ) :
    Legal h (d.write r c).hard := by
  rcases hl.hard_write hd r with hw | ⟨t, v, rfl, hw⟩ <;> rw [hw]
  · exact Legal.refl h
  · exact hl.1

def Io.HardStates (io : Io) : Prop := ∀ t v, io.fault (.saveHardState t v) = none

theorem Io.HardStates.fail (h : io.HardStates) (t v : ℕ) :
    io.fail (.saveHardState t v) = false := by
  rw [Io.fail, h]
  rfl

theorem Disk.run_eq_write (d : Disk) (c : Call) : d.run c = d.write (c.records.length + 2) c := by
  cases c <;> simp [run, write, List.take_of_length_le]

theorem Io.apply_eq_write (io : Io) (d : Disk) (c : Call) : ∃ k, io.apply d c = d.write k c := by
  unfold Io.apply
  split
  · exact ⟨_, rfl⟩
  · exact ⟨_, d.run_eq_write c⟩

/-- One call, complete or failed, and what the rest starts from. -/
theorem Ledger.apply (hio : io.HardStates) (hl : Ledger h (c :: cs) h') (hd : d.hard = h) :
    Legal h (io.apply d c).hard ∧ Ledger (io.apply d c).hard cs h' := by
  obtain ⟨k, hk⟩ := io.apply_eq_write d c
  refine ⟨hk ▸ hl.write hd k, ?_⟩
  cases c with
  | saveHardState t v =>
    rw [Io.apply, hio, d.hard_run_hardState]
    exact hl.2
  | appendEntries es =>
    rcases hl.hard_write hd k with hw | ⟨_, _, hc, -⟩
    · rw [hk, hw]; exact hl
    · cases hc
  | truncateFrom i =>
    rcases hl.hard_write hd k with hw | ⟨_, _, hc, -⟩
    · rw [hk, hw]; exact hl
    · cases hc
  | saveSnapshot snap t v keep =>
    rcases hl.hard_write hd k with hw | ⟨_, _, hc, -⟩
    · rw [hk, hw]; exact hl.2
    · cases hc

theorem Ledger.run (hio : io.HardStates) (hl : Ledger h cs h') (hd : d.hard = h) :
    (cs.foldl io.apply d).hard = h' := by
  induction cs generalizing h d with
  | nil => exact hd.trans hl
  | cons c cs ih => exact ih (hl.apply hio hd).2 rfl

/-- Dying anywhere between or inside the calls. -/
theorem Ledger.crash (hio : io.HardStates) (hl : Ledger h cs h') (hd : d.hard = h) (k r : ℕ) :
    Legal h (((cs.drop k).head?).elim ((cs.take k).foldl io.apply d)
      (((cs.take k).foldl io.apply d).write r)).hard := by
  induction cs generalizing h d k with
  | nil => simpa [hd] using Legal.refl h
  | cons c cs ih =>
    cases k with
    | zero => exact hl.write hd r
    | succ k =>
      obtain ⟨h1, h2⟩ := hl.apply hio hd
      exact h1.trans (ih h2 rfl k)

end KMC
