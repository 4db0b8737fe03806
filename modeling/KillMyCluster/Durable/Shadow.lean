import KillMyCluster.Durable.Tracks
import KillMyCluster.Election.Ledger
import KillMyCluster.Raft.Loops

/-! The persister calls of a critical section follow the log in memory. As long as calls that
write the log succeed or kill the process, the disk gives back the log before the interrupted
call or after it, or the log with a part of the entries it was about to write. -/

namespace KMC

/-- How the log that a call is made for follows from the one before. -/
def Call.Logs (l l' : RaftLog) : Call → Prop
  | .saveHardState _ _ => l' = l
  | .appendEntries es => Consecutive l.lastIndex es ∧ l' = l.append es
  | .truncateFrom i => l.firstIndex < i ∧ l' = l.truncateFrom i
  | .saveSnapshot snap _ _ keep => keep = l'.allEntries ∧ l'.WF ∧ l.firstIndex ≤ l'.firstIndex ∧
      l'.firstIndex ≤ snap.index ∧ l'.reals = l.above l'.firstIndex

inductive Shadow : RaftLog → List Call → RaftLog → Prop
  | nil (l : RaftLog) : Shadow l [] l
  | cons {l m l' : RaftLog} {c : Call} {cs : List Call} : c.Logs l m → Shadow m cs l' →
      Shadow l (c :: cs) l'

/-- The logs that a call made between `l` and `l'` can leave behind if it is cut short. -/
def Call.Cut (l l' m : RaftLog) (c : Call) : Prop :=
  m = l ∨ m = l' ∨ ∃ es k, c = .appendEntries es ∧ m = l.append (es.take k)

variable {l l' m : RaftLog} {c : Call} {cs cs' : List Call} {d : Disk} {io : Io}

theorem Shadow.append (h : Shadow l cs m) (h' : Shadow m cs' l') : Shadow l (cs ++ cs') l' := by
  induction h with
  | nil => exact h'
  | cons hc _ ih => exact .cons hc (ih h')

theorem Shadow.single (h : c.Logs l l') : Shadow l [c] l' := .cons h (.nil l')

theorem Call.Logs.wf (h : c.Logs l l') (hwf : l.WF) : l'.WF := by
  cases c with
  | saveHardState t v => exact h ▸ hwf
  | appendEntries es =>
    obtain ⟨hes, rfl⟩ := h
    exact hwf.append hes
  | truncateFrom i =>
    obtain ⟨-, rfl⟩ := h
    exact hwf.truncateFrom i
  | saveSnapshot snap t v keep => exact h.2.1

theorem Shadow.wf (h : Shadow l cs l') (hwf : l.WF) : l'.WF := by
  induction h with
  | nil => exact hwf
  | cons hc _ ih => exact ih (hc.wf hwf)

/-! ## On the disk -/

theorem Call.Logs.run (h : c.Logs l l') (hwf : l.WF) (hd : Tracks l d) : Tracks l' (d.run c) := by
  cases c with
  | saveHardState t v =>
    obtain rfl : l' = l := h
    exact hd.hardState t v
  | appendEntries es =>
    obtain ⟨-, rfl⟩ := h
    exact hd.append es
  | truncateFrom i =>
    obtain ⟨hi, rfl⟩ := h
    exact hd.truncate hwf hi
  | saveSnapshot snap t v keep =>
    obtain ⟨rfl, -, -, hf, -⟩ := h
    exact .snapshot d hf t v

theorem Call.Logs.write (h : c.Logs l l') (hwf : l.WF) (hd : Tracks l d) (r : ℕ) :
    ∃ m, c.Cut l l' m ∧ m.WF ∧ Tracks m (d.write r c) := by
  have hrun := h.run hwf hd
  have hwf' := h.wf hwf
  cases c with
  | saveHardState t v =>
    rcases d.write_hardState r t v with hw | hw <;> rw [hw]
    · exact ⟨l, Or.inl rfl, hwf, hd⟩
    · exact ⟨l', Or.inr (Or.inl rfl), hwf', hrun⟩
  | appendEntries es =>
    rw [d.write_append]
    exact ⟨l.append (es.take r), Or.inr (Or.inr ⟨es, r, rfl, rfl⟩), hwf.append (h.1.take r),
      hd.append (es.take r)⟩
  | truncateFrom i =>
    rcases d.write_truncate r i with hw | hw <;> rw [hw]
    · exact ⟨l, Or.inl rfl, hwf, hd⟩
    · exact ⟨l', Or.inr (Or.inl rfl), hwf', hrun⟩
  | saveSnapshot snap t v keep =>
    rcases d.write_snapshot r snap t v keep with hw | hw | hw <;> rw [hw]
    · exact ⟨l, Or.inl rfl, hwf, hd⟩
    · -- the new image over the old log file
      exact ⟨l, Or.inl rfl, hwf, hd.setSnap (h.2.2.1.trans h.2.2.2.1)⟩
    · exact ⟨l', Or.inr (Or.inl rfl), hwf', hrun⟩

/-- No call that writes the log returns an error; `saveHardState` may. -/
def Io.LogWrites (io : Io) : Prop := ∀ c, io.fault c = none ∨ ∃ t v, c = .saveHardState t v

/-- The call leaves the log file as if it had returned nil, even if it returns an error. -/
def Io.Keeps (io : Io) (c : Call) : Prop :=
  ∀ k ∈ io.fault c, match c with
    | .saveHardState _ _ => True
    | .appendEntries es => es.length ≤ k
    | .truncateFrom _ | .saveSnapshot .. => 1 ≤ k

theorem Io.LogWrites.keeps (h : io.LogWrites) (c : Call) : io.Keeps c := by
  intro k hk
  rcases h c with hn | ⟨t, v, rfl⟩
  · rw [hn] at hk
    cases hk
  · trivial

theorem Io.LogWrites.fail (h : io.LogWrites) (hc : ∀ t v, c ≠ .saveHardState t v) :
    io.fail c = false := by
  rcases h c with hn | ⟨t, v, rfl⟩
  · rw [Io.fail, hn]
    rfl
  · exact absurd rfl (hc t v)

theorem Call.Logs.apply (h : c.Logs l l') (hwf : l.WF) (hd : Tracks l d) (hio : io.Keeps c) :
    Tracks l' (io.apply d c) := by
  have hrun := h.run hwf hd
  unfold Io.apply
  split
  swap
  · exact hrun
  rename_i k hk
  have hkeep := hio k hk
  cases c with
  | saveHardState t v =>
    -- a failed `saveHardState` leaves at most its record
    obtain rfl : l' = l := h
    rcases d.write_hardState k t v with hw | hw <;> rw [hw]
    · exact hd
    · exact hrun
  | appendEntries es => rwa [d.write_append, List.take_of_length_le hkeep]
  | truncateFrom i =>
    obtain ⟨j, rfl⟩ : ∃ j, k = j + 1 := ⟨k - 1, (Nat.sub_add_cancel hkeep).symm⟩
    simpa [Disk.write, Disk.run, Call.records] using hrun
  | saveSnapshot snap t v keep =>
    obtain ⟨j, rfl⟩ : ∃ j, k = j + 1 := ⟨k - 1, (Nat.sub_add_cancel hkeep).symm⟩
    rcases d.write_renamed j snap t v keep with hw | hw <;> rw [hw]
    · -- the new image over the old log file
      obtain ⟨-, -, h1, h2, h3⟩ := h
      exact (hd.setSnap (h1.trans h2)).shift hwf h1 h2 h3
    · exact hrun

theorem Shadow.run (h : Shadow l cs l') (hwf : l.WF) (hd : Tracks l d)
    (hio : ∀ c ∈ cs, io.Keeps c) : Tracks l' (cs.foldl io.apply d) := by
  induction h generalizing d with
  | nil => exact hd
  | cons hc _ ih =>
    exact ih (hc.wf hwf) (hc.apply hwf hd (hio _ List.mem_cons_self))
      fun c hm => hio c (List.mem_cons_of_mem _ hm)

theorem Shadow.crash (h : Shadow l cs l') (hwf : l.WF) (hd : Tracks l d)
    (hio : ∀ c ∈ cs, io.Keeps c) (k r : ℕ) :
    (((cs.drop k).head?).elim ((cs.take k).foldl io.apply d)
      (((cs.take k).foldl io.apply d).write r)).Sound := by
  induction h generalizing d k with
  | nil => exact ⟨_, hwf, by simpa using hd⟩
  | cons hc _ ih =>
    cases k with
    | zero =>
      obtain ⟨m, -, hm, ht⟩ := hc.write hwf hd r
      exact ⟨m, hm, ht⟩
    | succ k =>
      exact ih (hc.wf hwf) (hc.apply hwf hd (hio _ List.mem_cons_self))
        (fun c hm => hio c (List.mem_cons_of_mem _ hm)) k

end KMC
