import KillMyCluster.Raft.Replicate

/-! The loops of the handlers, one lemma each, and what a leader sends. -/

namespace KMC

/-- Entries whose indexes follow `i` one by one. -/
def Consecutive (i : ℕ) (es : List LogEntry) : Prop :=
  ∀ k e, es[k]? = some e → e.index = i + 1 + k

theorem Consecutive.drop {i : ℕ} {es : List LogEntry} (h : Consecutive i es) (n : ℕ) :
    Consecutive (i + n) (es.drop n) := by
  intro k e he
  rw [List.getElem?_drop] at he
  have := h _ e he
  omega

theorem Consecutive.take {i : ℕ} {es : List LogEntry} (h : Consecutive i es) (n : ℕ) :
    Consecutive i (es.take n) := by
  intro k e he
  obtain ⟨hk, -⟩ := List.getElem?_eq_some_iff.mp he
  rw [List.length_take] at hk
  rw [List.getElem?_take_of_lt (by omega)] at he
  exact h k e he

def AppendEntriesRequest.Consecutive (req : AppendEntriesRequest) : Prop :=
  KMC.Consecutive req.prevLogIndex req.entries

def Body.Consecutive : Body → Prop
  | .replicate req | .heartbeat req => req.Consecutive
  | _ => True

/-! ## HandleAppendEntries -/

/-- Where the walk over the entries stops after `k` of them, and why. -/
inductive MergeStop (l : RaftLog) (prev : ℕ) (es : List LogEntry) (k : ℕ) : Option ℕ → Prop
  | done (h : k = es.length) (hlast : prev + k ≤ l.lastIndex) : MergeStop l prev es k none
  | past (h : k < es.length) (hlast : l.lastIndex = prev + k) : MergeStop l prev es k none
  | conflict {e : LogEntry} (he : es[k]? = some e) (hf : l.firstIndex ≤ prev + k)
      (hlast : prev + k < l.lastIndex) (hne : l.term (prev + 1 + k) ≠ some e.term) :
      MergeStop l prev es k (some (prev + 1 + k))

theorem Node.mergeLoop_walk {l : RaftLog} (hwf : l.WF) : ∀ (es : List LogEntry) (prev : ℕ),
    Consecutive prev es → prev ≤ l.lastIndex →
    ∃ k ≤ es.length, (Node.mergeLoop l es).2 = es.drop k ∧
      (∀ i e, i < k → es[i]? = some e → e.index ≤ l.firstIndex ∨ l.term e.index = some e.term) ∧
      MergeStop l prev es k (Node.mergeLoop l es).1 := by
  intro es
  induction es with
  | nil =>
    intro prev _ hlast
    exact ⟨0, le_rfl, rfl, by simp, .done rfl hlast⟩
  | cons e es ih =>
    intro prev hes hlast
    have hindex : e.index = prev + 1 := by simpa using hes 0 e rfl
    have hnext : prev + 1 ≤ l.lastIndex → (e.index ≤ l.firstIndex ∨ l.term e.index = some e.term) →
        ∃ k ≤ (e :: es).length, (Node.mergeLoop l es).2 = (e :: es).drop k ∧
          (∀ i e', i < k → (e :: es)[i]? = some e' →
            e'.index ≤ l.firstIndex ∨ l.term e'.index = some e'.term) ∧
          MergeStop l prev (e :: es) k (Node.mergeLoop l es).1 := by
      intro h1 h2
      obtain ⟨k, hk, hnew, hold, hstop⟩ := ih (prev + 1) (hes.drop 1) h1
      refine ⟨k + 1, by simpa using hk, by simpa using hnew, fun i e' hi he' => ?_, ?_⟩
      · cases i with
        | zero =>
          obtain rfl : e = e' := by simpa using he'
          exact h2
        | succ i => exact hold i e' (by omega) (by simpa using he')
      generalize (Node.mergeLoop l es).1 = res at hstop ⊢
      cases hstop with
      | done h h' => exact .done (by simp [h]) (by omega)
      | past h h' => exact .past (by simpa using h) (by omega)
      | conflict he hf h' hne =>
        rw [show prev + 1 + 1 + k = prev + 1 + (k + 1) by omega] at hne ⊢
        exact .conflict (by simpa using he) (by omega) (by omega) hne
    have hlen := hwf.lastIndex
    by_cases h1 : e.index ≤ l.firstIndex
    · rw [Node.mergeLoop, if_pos h1]
      exact hnext (by omega) (Or.inl h1)
    by_cases h2 : l.lastIndex < e.index
    · rw [Node.mergeLoop, if_neg h1, if_pos h2]
      exact ⟨0, by simp, rfl, by simp, .past (by simp) (by omega)⟩
    -- the entry is held: compare the terms
    obtain ⟨t, ht⟩ : ∃ t, l.term e.index = some t := by
      rw [hwf.term_real (by omega), List.getElem?_eq_getElem (by omega)]
      exact ⟨_, rfl⟩
    by_cases h3 : t = e.term
    · rw [Node.mergeLoop, if_neg h1, if_neg h2, if_neg (by simpa [ht] using h3)]
      exact hnext (by omega) (Or.inr (h3 ▸ ht))
    · rw [Node.mergeLoop, if_neg h1, if_neg h2, if_pos (by simpa [ht] using h3), hindex]
      rw [hindex] at ht
      exact ⟨0, by simp, rfl, by simp,
        .conflict (e := e) rfl (by omega) (by omega) (by simpa [ht] using h3)⟩

@[simp] theorem Node.advanceCommit_log (n : Node) (req : AppendEntriesRequest) :
    (n.advanceCommit req).log = n.log := by
  unfold Node.advanceCommit
  split <;> rfl

/-! ## maybeAdvanceCommitLocked -/

theorem Node.commitScan_spec (n : Node) {bound idx : ℕ} (h : n.commitScan bound = some idx) :
    n.commitIndex < idx ∧ idx ≤ bound ∧ n.log.term idx = some n.currentTerm ∧
      n.majority ≤ n.replicas idx := by
  induction bound with
  | zero => cases h
  | succ b ih =>
    unfold Node.commitScan at h
    split at h
    · cases h
    split at h
    · cases h
    split at h
    · rename_i h1 h2 h3
      obtain rfl := Option.some.inj h
      exact ⟨by omega, le_rfl, by simpa using h2, h3⟩
    · obtain ⟨h1, h2, h3⟩ := ih h
      exact ⟨h1, by omega, h3⟩

/-! ## commitPropBatch -/

theorem Node.newEntries_spec (T : ℕ) : ∀ (batch : List Bytes) (last k : ℕ) (e : LogEntry),
    (Node.newEntries T last batch)[k]? = some e → e.index = last + 1 + k ∧ e.term = T := by
  intro batch
  induction batch with
  | nil => intro last k e he; simp [Node.newEntries] at he
  | cons data rest ih =>
    intro last k e he
    cases k with
    | zero =>
      simp only [Node.newEntries, List.getElem?_cons_zero, Option.some.injEq] at he
      subst he
      exact ⟨rfl, rfl⟩
    | succ k =>
      simp only [Node.newEntries, List.getElem?_cons_succ] at he
      have := ih (last + 1) k e he
      exact ⟨by omega, this.2⟩

/-! ## replicateOnce, heartbeatAck -/

theorem Node.appendRequest_consecutive {n : Node} (hwf : n.log.WF) {next : ℕ}
    (h : n.log.firstIndex < next) (k : ℕ) :
    (n.appendRequest next ((n.log.suffix next).take k)).Consecutive := by
  refine Consecutive.take (fun j e he => ?_) k
  rw [hwf.suffix h, List.getElem?_drop] at he
  have := hwf _ e he
  simp only [appendRequest]
  omega

theorem Node.replicateOnce_cases {n : Node} {file : Option Snapshot} {q : ℕ} {e : Effect}
    (h : n.replicateOnce file q = some e) : n.stopped = false ∧ n.role = .leader ∧
      (e = { node := n } ∨
      (∃ snap : Snapshot, snap.index ≠ 0 ∧
        snap = (if n.snapCache.index = 0 then file.getD ⟨0, 0, []⟩ else n.snapCache) ∧
        e = { node := { n with snapCache := snap }
              sends := [(q, .snapshot ⟨n.currentTerm, n.id, snap.index, snap.term, snap.data⟩)] }) ∨
      n.log.firstIndex < n.nextIndex q ∧
        e = { node := n
              sends := [(q, .replicate (n.appendRequest (n.nextIndex q)
                ((n.log.suffix (n.nextIndex q)).take maxAppendEntries)))] }) := by
  unfold Node.replicateOnce at h
  split at h
  · cases h
  rename_i hg
  simp only [not_or, Bool.not_eq_true, ne_eq, not_not] at hg
  refine ⟨hg.1, hg.2, ?_⟩
  simp only at h
  split at h
  · obtain rfl := Option.some.inj h
    unfold Node.sendSnapshotLocked
    generalize (if n.snapCache.index = 0 then file.getD ⟨0, 0, []⟩ else n.snapCache) = snap
    simp only
    split
    · exact Or.inl rfl
    · rename_i hne
      exact Or.inr (Or.inl ⟨snap, hne, rfl, rfl⟩)
  · rename_i hnext
    exact Or.inr (Or.inr ⟨not_le.mp hnext, (Option.some.inj h).symm⟩)

theorem Node.heartbeatAck_cases {n : Node} {q : ℕ} {e : Effect} (h : n.heartbeatAck q = some e) :
    n.stopped = false ∧ n.role = .leader ∧ n.log.firstIndex < n.nextIndex q ∧
      e = { node := n, sends := [(q, .heartbeat (n.appendRequest (n.nextIndex q) []))] } := by
  unfold Node.heartbeatAck at h
  split at h
  · cases h
  rename_i hg
  simp only [not_or, Bool.not_eq_true, ne_eq, not_not] at hg
  split at h
  · cases h
  · rename_i hnext
    exact ⟨hg.1, hg.2, not_le.mp hnext, (Option.some.inj h).symm⟩

/-! ## runApplier -/

theorem Node.applierTake_cases {n n' : Node} {batch : List ApplyMsg}
    (h : n.applierTake = some (n', batch)) :
    (∃ snap, n.pendingSnapshot = some snap ∧ n' = { n with pendingSnapshot := none } ∧
      batch = [.snapshot snap]) ∨
    n.pendingSnapshot = none ∧ n' = { n with lastApplied := n.commitIndex } ∧
      collectBatch n.log n.lastApplied (n.commitIndex - n.lastApplied) = some batch := by
  unfold Node.applierTake at h
  split at h
  · cases h
  split at h
  · rename_i snap hs
    obtain ⟨rfl, rfl⟩ := Prod.mk.inj (Option.some.inj h)
    exact Or.inl ⟨snap, hs, rfl, rfl⟩
  rename_i hs
  split at h
  · cases h
  obtain ⟨b, hb, heq⟩ := Option.map_eq_some_iff.mp h
  obtain ⟨rfl, rfl⟩ := Prod.mk.inj heq
  exact Or.inr ⟨hs, rfl, hb⟩

/-! ## Snapshot -/

theorem Node.snapshotCut_le (n : Node) (index : ℕ) : n.snapshotCut index ≤ index := by
  unfold Node.snapshotCut
  split
  · split <;> omega
  · omega

/-- `Snapshot` compacts up to its cut, if at all. -/
theorem Node.compactBehind_first (n : Node) (index : ℕ) :
    (n.compactBehind index).firstIndex ≤ max n.log.firstIndex (n.snapshotCut index) := by
  unfold Node.compactBehind
  split
  · split
    · rw [RaftLog.compactTo_first]
    · exact le_max_left _ _
  · exact le_max_left _ _

end KMC
