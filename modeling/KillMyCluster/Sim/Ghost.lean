import KillMyCluster.Raft.Cluster
import KillMyCluster.Lib.LeaderLogSafe

/-! What a node's memory says about the abstract log. The abstract state keeps for every
node the log it would hold without compaction. The real one is its tail, below a sentinel
that speaks for a committed prefix: after InstallSnapshot the two may disagree below the
sentinel, because `compactTo` keeps the entries above it unseen. -/

namespace KMC

open LeaderLog

abbrev Ghost := LeaderLog.State ℕ LogEntry

def Config.quorums (cfg : Config) : QuorumSystem ℕ := majorities cfg.ids.toFinset

abbrev Config.Inv (cfg : Config) (g : Ghost) : Prop := LeaderLog.Inv LogEntry.term cfg.quorums g

abbrev Config.Acts (cfg : Config) (p : ℕ) : Ghost → Ghost → Prop :=
  Steps LogEntry.term cfg.quorums p

abbrev Grew (g g' : Ghost) : Prop := Grows LogEntry.term g g'

abbrev logTerm (l : List LogEntry) : ℕ := lastTerm LogEntry.term l

/-- A cluster, the reading of snapshot images, and which further promises the run keeps: that
images stand for what was applied, that no node is stopped, and that snapshots are installed
only where they agree with the log. -/
structure Setting where
  cfg : Config
  stands : Bytes → List Bytes
  honest : Prop
  noStop : Prop
  fresh : Prop

variable (K : Setting) (g : Ghost) {T T' i : ℕ}

/-- The image stands for the committed commands up to its index. -/
def Setting.SnapOK (T : ℕ) (snap : Snapshot) : Prop :=
  ∃ c, Committed g T c ∧ c.length = snap.index ∧ snap.term = logTerm c ∧
    (K.honest → K.stands snap.data = c.map LogEntry.data)

/-- Node `q` acknowledged the log of term `T` up to `i`, as far as committing entries of that
term depends on it. A snapshot is acknowledged without a look at the log, but then the leader
had committed what it covers. -/
structure Setting.MatchOK (floor : ℕ → ℕ) (T q i : ℕ) : Prop where
  le : i ≤ (g.tlog T).length
  own : ∀ j ≤ i, OwnAt LogEntry.term g T j → j ≤ g.commit T ∨ j ≤ g.ack T q
  held : K.noStop → i ≤ floor q ∨ i ≤ g.ack T q

inductive Setting.Delivered (T : ℕ) : List ApplyMsg → ℕ → Prop
  | nil : Delivered T [] 0
  | command {ms : List ApplyMsg} {i : ℕ} {c : List LogEntry} {e : LogEntry} :
    Delivered T ms i → Committed g T (c ++ [e]) → c.length = i → e.index = i + 1 →
    Delivered T (ms ++ [.command e]) (i + 1)
  | snapshot {ms : List ApplyMsg} {i : ℕ} {snap : Snapshot} :
    Delivered T ms i → K.SnapOK g T snap → Delivered T (ms ++ [.snapshot snap]) snap.index

structure LogRel (l : RaftLog) (v : List LogEntry) : Prop where
  wf : l.WF
  first_le : l.firstIndex ≤ v.length
  reals : l.reals = v.drop l.firstIndex
  sentinel : l.firstIndex = v.length → l.sentinel.term = logTerm v

/-- The committed prefix `c` is what the sentinel speaks for and the log goes on with. -/
structure Setting.Base (T : ℕ) (l : RaftLog) (v c : List LogEntry) : Prop where
  committed : Committed g T c
  first_le : l.firstIndex ≤ c.length
  sentinel : l.sentinel.term = logTerm (c.take l.firstIndex)
  held : l.reals.take (c.length - l.firstIndex) = c.drop l.firstIndex
  fresh : K.fresh → c <+: v

structure VoteRel (p T votedFor : ℕ) : Prop where
  term : g.term p = T
  none : votedFor = noVote → g.ballot T p = none
  some : votedFor ≠ noVote → ∃ l, g.ballot T p = some (votedFor, l)

variable {K g} {g' : Ghost}

/-! ## Monotonicity -/

theorem Setting.SnapOK.mono (h : K.cfg.Inv g) (hg : Grew g g') (hT : T ≤ T') {snap : Snapshot}
    (hs : K.SnapOK g T snap) : K.SnapOK g' T' snap := by
  obtain ⟨c, hc, hrest⟩ := hs
  exact ⟨c, hc.mono h hg hT, hrest⟩

theorem Setting.MatchOK.mono (h : K.cfg.Inv g) (hg : Grew g g') {floor floor' : ℕ → ℕ} {q : ℕ}
    (hf : floor q ≤ floor' q) (hm : K.MatchOK g floor T q i) : K.MatchOK g' floor' T q i where
  le := hm.le.trans (h.tlog_prefix hg T).length_le
  own j hj ho := by
    rcases hm.own j hj (h.own_back hg (hj.trans hm.le) ho) with h1 | h1
    · exact Or.inl (h1.trans (hg.commit T))
    · exact Or.inr (h1.trans (hg.ack T q))
  held hn := (hm.held hn).imp (·.trans hf) (·.trans (hg.ack T q))

theorem Setting.Delivered.mono (h : K.cfg.Inv g) (hg : Grew g g') (hT : T ≤ T') {ms : List ApplyMsg}
    (hd : K.Delivered g T ms i) : K.Delivered g' T' ms i := by
  induction hd with
  | nil => exact .nil
  | command _ hc hl he ih => exact .command ih (hc.mono h hg hT) hl he
  | snapshot _ hs ih => exact .snapshot ih (hs.mono h hg hT)

theorem Setting.Base.mono (h : K.cfg.Inv g) (hg : Grew g g') (hT : T ≤ T') {l : RaftLog}
    {v c : List LogEntry} (hb : K.Base g T l v c) : K.Base g' T' l v c :=
  { hb with committed := hb.committed.mono h hg hT }

/-! ## The real log read through the abstract one -/

theorem logTerm_of_last {v : List LogEntry} {e : LogEntry} (h : v.getLast? = some e) :
    logTerm v = e.term := lastTerm_eq_of_getLast h

section LogRel

variable {l : RaftLog} {v c : List LogEntry}

theorem LogRel.lastIndex (h : LogRel l v) : l.lastIndex = v.length := by
  have := h.first_le
  rw [h.wf.lastIndex, h.reals, List.length_drop]
  omega

theorem LogRel.lastTerm (h : LogRel l v) : l.lastTerm = logTerm v := by
  rcases h.first_le.eq_or_lt with heq | hlt
  · have hn : l.reals = [] := by rw [h.reals, heq, List.drop_length]
    rw [RaftLog.lastTerm_of_nil hn, h.sentinel heq]
  · have hlast : l.reals.getLast? = v.getLast? := by
      rw [h.reals, List.getLast?_drop, if_neg (by omega)]
    obtain ⟨e, he⟩ : ∃ e, v.getLast? = some e :=
      Option.isSome_iff_exists.mp (by rw [← hlast, h.reals]; simpa using hlt)
    rw [logTerm_of_last he, RaftLog.lastTerm, List.getLastD_eq_getLast?, hlast, he]
    rfl

theorem LogRel.real (h : LogRel l v) (hi : l.firstIndex < i) :
    l.reals[i - l.firstIndex - 1]? = v[i - 1]? := by
  rw [h.reals, List.getElem?_drop]
  congr 1
  omega

theorem LogRel.term (h : LogRel l v) (hi : l.firstIndex < i) :
    l.term i = (v[i - 1]?).map LogEntry.term := by
  rw [h.wf.term_real hi, h.real hi]

theorem LogRel.entry (h : LogRel l v) (hi : l.firstIndex < i) : l.entry i = v[i - 1]? := by
  rw [RaftLog.WF.entry_real hi, h.real hi]

theorem LogRel.index (h : LogRel l v) {e : LogEntry} (hi : l.firstIndex ≤ i) (he : v[i]? = some e) :
    e.index = i + 1 := by
  have := h.wf (i - l.firstIndex) e (by
    rw [h.reals, List.getElem?_drop, show l.firstIndex + (i - l.firstIndex) = i by omega, he])
  omega

theorem Setting.Base.le_length (hb : K.Base g T l v c) (h : LogRel l v) : c.length ≤ v.length := by
  have h1 := hb.first_le
  have h2 := h.first_le
  have h3 := congrArg List.length hb.held
  rw [h.reals, List.length_take, List.length_drop, List.length_drop] at h3
  omega

/-- Above the sentinel the committed prefix is in the log. -/
theorem Setting.Base.getElem {b : List LogEntry} (hb : K.Base g T l v b) (h : LogRel l v)
    (h1 : l.firstIndex ≤ i) (h2 : i < b.length) : v[i]? = b[i]? := by
  have hc : (b.drop l.firstIndex)[i - l.firstIndex]? = b[i]? := by
    rw [List.getElem?_drop]; congr 1; omega
  rw [← hc, ← hb.held, h.reals, List.getElem?_take_of_lt (by omega), List.getElem?_drop]
  congr 1
  omega

end LogRel

end KMC
