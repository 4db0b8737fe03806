import KillMyCluster.Durable.Entries
import KillMyCluster.Election.Tally

/-! The part of a node's memory that its disk stands for: term, vote, entries. Each persister call
is made for a change of it, and the calls of a section lead from the memory before to the memory
after. A call that is cut short leaves a disk that gives back the memory before it or after it, or
with a part of its entries. -/

namespace KMC

open Trace

structure Memory where
  term : ℕ
  votedFor : ℕ
  entries : List LogEntry
deriving DecidableEq

def Node.memory (n : Node) : Memory := ⟨n.currentTerm, n.votedFor, n.log.allEntries⟩

namespace Memory

def after (m : Memory) : Call → Memory
  | .saveHardState t v => { m with term := t, votedFor := v }
  | .appendEntries es => { m with entries := m.entries ++ es }
  | .truncateFrom i => { m with entries := m.entries.filter fun e => e.index < i }
  | .saveSnapshot _ t v keep => ⟨t, v, keep⟩

def above (m : Memory) (i : ℕ) : List LogEntry := m.entries.filter fun e => i < e.index

end Memory

def Call.upTo (j : ℕ) : Call → Call
  | .appendEntries es => .appendEntries (es.take j)
  | c => c

/-- The memory before the call, or after it with some of its new entries. -/
def Call.Leaves (m : Memory) (c : Call) (m' : Memory) : Prop :=
  m' = m ∨ ∃ j, m' = m.after (c.upTo j)

structure Disk.Gives (d : Disk) (m : Memory) : Prop where
  term : (openPersister d).term = m.term
  votedFor : (openPersister d).votedFor = m.votedFor
  entries : (openPersister d).entries = m.above d.image.index
  consecutive : Consecutive d.image.index (openPersister d).entries

/-! ## Logs as lists of entries -/

section Lists

variable {l : RaftLog}

theorem RaftLog.WF.take_eq_filter (h : l.WF) (n : ℕ) :
    l.reals.take n = l.reals.filter fun e => e.index < l.firstIndex + 1 + n := by
  conv_rhs => rw [← List.take_append_drop n l.reals, List.filter_append]
  rw [List.filter_eq_self.mpr, List.filter_eq_nil_iff.mpr, List.append_nil]
  · intro e he
    have := h.of_mem_drop he
    simp only [decide_eq_true_eq]
    omega
  · intro e he
    have := h.of_mem_take he
    simp only [decide_eq_true_eq]
    omega

theorem RaftLog.WF.drop_eq_filter (h : l.WF) (n : ℕ) :
    l.reals.drop n = l.reals.filter fun e => l.firstIndex + n < e.index := by
  conv_rhs => rw [← List.take_append_drop n l.reals, List.filter_append]
  rw [List.filter_eq_nil_iff.mpr, List.nil_append, List.filter_eq_self.mpr]
  · intro e he
    simpa using h.of_mem_drop he
  · intro e he
    have := h.of_mem_take he
    simp only [decide_eq_true_eq]
    omega

end Lists

/-! ## Calls -/

variable {l l' : RaftLog} {d : Disk} {h h' : ℕ × ℕ} {c : Call} {cs : List Call}

def memoryOf (h : ℕ × ℕ) (l : RaftLog) : Memory := ⟨h.1, h.2, l.reals⟩

theorem openPersister_hard (d : Disk) :
    ((openPersister d).term, (openPersister d).votedFor) = d.hard := by
  unfold openPersister
  simp only
  split <;> rfl

theorem Tracks.gives (ht : Tracks l d) (hwf : l.WF) (hd : d.hard = h) :
    d.Gives (memoryOf h l) := by
  have hhard := (openPersister_hard d).trans hd
  refine ⟨congrArg Prod.fst hhard, congrArg Prod.snd hhard, ?_, ht.consecutive hwf⟩
  have hle := ht.first_le
  rw [ht.opened hwf, RaftLog.above, hwf.drop_eq_filter, Nat.add_sub_cancel' hle]
  rfl

def Call.hard (h : ℕ × ℕ) : Call → ℕ × ℕ
  | .saveHardState t v => (t, v)
  | _ => h

theorem Ledger.tail (hl : Ledger h (c :: cs) h') : Ledger (c.hard h) cs h' := by
  cases c with
  | saveHardState t v => exact hl.2
  | appendEntries es => exact hl
  | truncateFrom i => exact hl
  | saveSnapshot snap t v keep => exact hl.2

theorem Ledger.hard_run (hl : Ledger h (c :: cs) h') (hd : d.hard = h) :
    (d.run c).hard = c.hard h := by
  cases c with
  | saveHardState t v => exact d.hard_run_hardState t v
  | appendEntries es => exact (d.hard_run_append es).trans hd
  | truncateFrom i => exact (d.hard_run_truncate i).trans hd
  | saveSnapshot snap t v keep => exact (d.hard_run_snapshot snap t v keep).trans hl.1.symm

theorem Call.Logs.after (hc : c.Logs l l') (hwf : l.WF) (hl : Ledger h (c :: cs) h') :
    (memoryOf h l).after c = memoryOf (c.hard h) l' := by
  cases c with
  | saveHardState t v =>
    obtain rfl : l' = l := hc
    rfl
  | appendEntries es =>
    obtain ⟨-, rfl⟩ := hc
    rfl
  | truncateFrom i =>
    obtain ⟨hi, rfl⟩ := hc
    have hi' : l.firstIndex + 1 + (i - l.firstIndex - 1) = i := by omega
    simp only [Memory.after, memoryOf, RaftLog.truncateFrom_reals hi, hwf.take_eq_filter, hi',
      Call.hard]
  | saveSnapshot snap t v keep =>
    obtain ⟨rfl, -⟩ := hc
    obtain rfl : h = (t, v) := hl.1
    rfl

/-- The calls of a section lead from the memory before it to the memory after it. -/
theorem Shadow.after (hs : Shadow l cs l') (hwf : l.WF) (hl : Ledger h cs h') :
    cs.foldl Memory.after (memoryOf h l) = memoryOf h' l' := by
  induction hs generalizing h with
  | nil =>
    obtain rfl : h = h' := hl
    rfl
  | cons hc _ ih => rw [List.foldl_cons, hc.after hwf hl, ih (hc.wf hwf) hl.tail]

/-- A call that is cut short. -/
theorem Call.Logs.leaves (hc : c.Logs l l') (hwf : l.WF) (ht : Tracks l d) (hd : d.hard = h)
    (hl : Ledger h (c :: cs) h') (r : ℕ) :
    ∃ m, c.Leaves (memoryOf h l) m ∧ (d.write r c).Gives m := by
  have hbefore : d.Gives (memoryOf h l) := ht.gives hwf hd
  have hafter : (d.run c).Gives ((memoryOf h l).after c) := by
    rw [hc.after hwf hl]
    exact (hc.run hwf ht).gives (hc.wf hwf) (hl.hard_run hd)
  cases c with
  | saveHardState t v =>
    rcases d.write_hardState r t v with hw | hw <;> rw [hw]
    · exact ⟨_, .inl rfl, hbefore⟩
    · exact ⟨_, .inr ⟨0, rfl⟩, hafter⟩
  | appendEntries es =>
    rw [d.write_append]
    refine ⟨_, .inr ⟨r, rfl⟩, ?_⟩
    exact (ht.append (es.take r)).gives (hwf.append (hc.1.take r)) ((d.hard_run_append _).trans hd)
  | truncateFrom i =>
    rcases d.write_truncate r i with hw | hw <;> rw [hw]
    · exact ⟨_, .inl rfl, hbefore⟩
    · exact ⟨_, .inr ⟨0, rfl⟩, hafter⟩
  | saveSnapshot snap t v keep =>
    rcases d.write_snapshot r snap t v keep with hw | hw | hw <;> rw [hw]
    · exact ⟨_, .inl rfl, hbefore⟩
    · -- the new image over the old log file
      refine ⟨_, .inl rfl, ?_⟩
      exact (ht.setSnap (hc.2.2.1.trans hc.2.2.2.1)).gives hwf ((d.hard_setSnap snap).trans hd)
    · exact ⟨_, .inr ⟨0, rfl⟩, hafter⟩

/-- Dying in the `k`th call of a section. -/
theorem Shadow.leaves (hs : Shadow l cs l') (hwf : l.WF) (ht : Tracks l d) (hd : d.hard = h)
    (hl : Ledger h cs h') {k : ℕ} (hk : cs[k]? = some c) (r : ℕ) :
    ∃ m, c.Leaves ((cs.take k).foldl Memory.after (memoryOf h l)) m ∧
      ((d.runs (cs.take k)).write r c).Gives m := by
  induction hs generalizing h d k with
  | nil => cases hk
  | cons hc _ ih =>
    cases k with
    | zero =>
      obtain rfl := Option.some.inj hk
      exact hc.leaves hwf ht hd hl r
    | succ k =>
      rw [List.take_succ_cons, List.foldl_cons, hc.after hwf hl, Disk.runs_cons]
      exact ih (hc.wf hwf) (hc.run hwf ht) (hl.hard_run hd) hl.tail hk

/-! ## Sections -/

variable {cfg : Config} {s t : State} {a : Action} {p : ℕ} {io : Io} {n : Node} {e : Effect}

theorem receive_kept (hio : io.HardStates) {q : ℕ} {body : Body} {resp : Response}
    (he : receive io n q body resp = some e) : e.Kept n := by
  rcases receive_votes hio he with hq | hq | ⟨-, -, -, -, hq, -⟩ <;> exact hq.toKept

theorem Section.kept (h : Section cfg s n a p io e t) (hio : io.HardStates) : e.Kept n := by
  cases h with
  | tick he =>
    obtain ⟨-, rfl⟩ := Node.timeout_some he
    rcases n.startPreVote_votes hio.fail with hq | hq <;> exact hq.toKept
  | stepDown he => exact (Node.resign_quiet he).toKept
  | deliver _ => exact (handle_quiet hio _ n _).toKept
  | respond _ _ _ _ he => exact receive_kept hio he
  | propose => exact (n.commitPropBatch_quiet _).toKept
  | replicate _ he => exact (Node.replicateOnce_quiet he).toKept
  | heartbeat _ he => exact (Node.heartbeatAck_quiet he).toKept
  | lease => exact ⟨rfl, rfl, rfl⟩
  | snapshot => exact (n.snapshot_quiet _ _).toKept

structure Remembered (s : State) : Prop extends Recorded s where
  hard : ∀ p n, s.node p = some n → (s.servers p).disk.hard = n.hard

theorem remembered_init (cfg : Config) : Remembered cfg.init :=
  ⟨recorded_init cfg, by simp [Config.init, State.node]⟩

theorem Action.Reliable.logWrites (h : a.Reliable) : a.io.LogWrites := fun c => .inl (by rw [h])

theorem Action.Reliable.hardStates (h : a.Reliable) : a.io.HardStates := fun t v => by rw [h]

theorem Action.Reliable.sure (h : a.Reliable) : a.Sure :=
  Action.sure_of_writes h.logWrites.writes

theorem Remembered.step (h : Remembered s) (ha : a.Reliable) (hs : step cfg s a = some t) :
    Remembered t where
  toRecorded := h.toRecorded.step ha.logWrites.tidy hs
  hard := step_servers (I := fun _ srv => ∀ m, srv.proc = some m → srv.disk.hard = m.hard) hs h.hard
    (fun p io n e hn hsec _ m hm => by
      obtain rfl := Option.some.inj hm
      have hio : io.HardStates := hsec.io_eq ▸ ha.hardStates
      exact (hsec.kept hio).ledger.run hio (h.hard p n hn))
    (fun _ _ _ _ _ _ _ _ _ m hm => by cases hm)
    fun p srv hch m hm => by
      cases hch with
      | applierTake hn htake _ =>
        obtain rfl := Option.some.inj hm
        exact (h.hard p _ hn).trans (Node.applierTake_fixed htake).2.2.1.symm
      | applierSend hn _ =>
        obtain rfl := Option.some.inj hm
        exact h.hard p _ hn
      | crash _ => cases hm
      | restart _ _ =>
        obtain rfl := Option.some.inj hm
        exact (openPersister_hard _).symm
      | @stop _ n hn =>
        obtain rfl := Option.some.inj hm
        exact h.hard p n hn

/-- A running server's disk gives back its memory. -/
theorem Remembered.gives (h : Remembered s) (hn : s.node p = some n) :
    (s.servers p).disk.Gives n.memory :=
  (h.up p n hn).2.gives (h.up p n hn).1.wf (h.hard p n hn)

theorem Remembered.section (h : Remembered s) (hn : s.node p = some n)
    (hs : Section cfg s n a p io e t) (ha : a.Reliable) :
    e.calls.foldl Memory.after n.memory = e.node.memory ∧
    ∀ k c, e.calls[k]? = some c → ∀ r, ∃ m,
      c.Leaves ((e.calls.take k).foldl Memory.after n.memory) m ∧
        (((s.servers p).disk.runs (e.calls.take k)).write r c).Gives m := by
  obtain ⟨hsane, htr⟩ := h.up p n hn
  have hshadow := (hs.moves.logged hsane ha.sure h.rpc).shadow
  have hledger := (hs.kept (hs.io_eq ▸ ha.hardStates)).ledger
  exact ⟨hshadow.after hsane.wf hledger,
    fun k c hc r => hshadow.leaves hsane.wf htr (h.hard p n hn) hledger hc r⟩

end KMC
