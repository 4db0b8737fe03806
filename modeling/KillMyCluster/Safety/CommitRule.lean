import KillMyCluster.Raft.Loops
import KillMyCluster.Raft.Recover
import Mathlib.Order.Bounds.Basic

/-! The commit rule. `maybeAdvanceCommitLocked` walks down from the end of the log and gives up at
the first index that is not of the current term. Where terms do not decrease, nothing that may be
committed lies below that point, so the walk finds the greatest index there is. -/

namespace KMC

/-- The index is above the commit index, of the current term, and held by more than half of the
nodes as far as the leader knows. -/
structure Node.Committable (n : Node) (i : ℕ) : Prop where
  above : n.commitIndex < i
  term : n.log.term i = some n.currentTerm
  held : n.peers.length + 1 < 2 * (1 + n.peers.countP fun q => i ≤ n.matchIndex q)

/-- Above index `lo` the slice holds what the log spans, terms do not decrease and none
exceeds `T`. -/
structure RaftLog.Rising (l : RaftLog) (lo T : ℕ) : Prop where
  held : ∀ i, lo < i → l.firstIndex ≤ i → i ≤ l.lastIndex → ∃ t, l.term i = some t
  mono : ∀ i j t u, lo < i → i ≤ j → l.term i = some t → l.term j = some u → t ≤ u
  le : ∀ i t, lo < i → l.term i = some t → t ≤ T

theorem RaftLog.term_range {l : RaftLog} {i t : ℕ} (h : l.term i = some t) :
    l.firstIndex ≤ i ∧ i ≤ l.lastIndex := by
  unfold RaftLog.term at h
  split at h
  · cases h
  · omega

theorem RaftLog.WF.rising {l : RaftLog} (hwf : l.WF) {lo T : ℕ} (hlo : l.firstIndex ≤ lo)
    (hs : l.reals.Pairwise fun e e' => e.term ≤ e'.term) (hle : ∀ e ∈ l.reals, e.term ≤ T) :
    l.Rising lo T := by
  have hreal : ∀ i t, lo < i → l.term i = some t →
      ∃ e, l.reals[i - l.firstIndex - 1]? = some e ∧ e.term = t := by
    intro i t hi ht
    rw [hwf.term_real (by omega)] at ht
    exact Option.map_eq_some_iff.mp ht
  refine ⟨fun i _ => hwf.term_held, fun i j t u hi hij ht hu => ?_, fun i t hi ht => ?_⟩
  · obtain ⟨e, he, rfl⟩ := hreal i t hi ht
    obtain ⟨e', he', rfl⟩ := hreal j u (by omega) hu
    obtain ⟨hk, rfl⟩ := List.getElem?_eq_some_iff.mp he
    obtain ⟨hk', rfl⟩ := List.getElem?_eq_some_iff.mp he'
    rcases hij.eq_or_lt with rfl | hlt
    · exact le_rfl
    · exact List.pairwise_iff_getElem.mp hs _ _ hk hk' (by omega)
  · obtain ⟨e, he, rfl⟩ := hreal i t hi ht
    exact hle e (List.mem_of_getElem? he)

variable {n : Node}

theorem Node.majority_le_iff {c : ℕ} : n.majority ≤ c ↔ n.peers.length + 1 < 2 * c := by
  unfold Node.majority
  omega

/-- Nothing that may be committed is left behind. -/
theorem Node.commitScan_complete (h : n.log.Rising n.commitIndex n.currentTerm) {i : ℕ}
    (hi : n.Committable i) : ∀ {bound : ℕ}, bound ≤ n.log.lastIndex → i ≤ bound →
      ∃ idx, n.commitScan bound = some idx ∧ i ≤ idx := by
  intro bound
  have habove := hi.above
  induction bound with
  | zero => intro _ hle; omega
  | succ b ih =>
    intro hb hle
    unfold Node.commitScan
    rw [if_neg (by omega)]
    -- the term at `b + 1` lies between the one at `i` and the current one
    have hterm : n.log.term (b + 1) = some n.currentTerm := by
      have hfirst := RaftLog.term_range hi.term
      obtain ⟨t, ht⟩ := h.held (b + 1) (by omega) (by omega) hb
      have h1 := h.mono i (b + 1) _ t habove hle hi.term ht
      have h2 := h.le (b + 1) t (by omega) ht
      rw [ht, show t = n.currentTerm by omega]
    rw [if_neg (by simp [hterm])]
    split
    · exact ⟨b + 1, rfl, hle⟩
    · rename_i hmaj
      refine ih (by omega) ?_
      by_contra hgt
      obtain rfl : i = b + 1 := by omega
      exact hmaj (majority_le_iff.mpr hi.held)

theorem Node.maybeAdvanceCommit_cases (h : n.log.Rising n.commitIndex n.currentTerm) :
    (∃ idx, n.maybeAdvanceCommitLocked = { n with commitIndex := idx } ∧
      IsGreatest {i | n.Committable i} idx) ∨
    n.maybeAdvanceCommitLocked = n ∧ ∀ i, ¬ n.Committable i := by
  have hgreat : ∀ i, n.Committable i →
      ∃ idx, n.commitScan n.log.lastIndex = some idx ∧ i ≤ idx := fun i hi =>
    commitScan_complete h hi le_rfl (RaftLog.term_range hi.term).2
  unfold Node.maybeAdvanceCommitLocked
  split
  · rename_i idx hscan
    obtain ⟨h1, -, h3, h4⟩ := n.commitScan_spec hscan
    refine .inl ⟨idx, rfl, ⟨h1, h3, majority_le_iff.mp h4⟩, fun i hi => ?_⟩
    obtain ⟨idx', hidx, hle⟩ := hgreat i hi
    obtain rfl := Option.mem_unique hscan hidx
    exact hle
  · rename_i hscan
    refine .inr ⟨rfl, fun i hi => ?_⟩
    obtain ⟨idx, hidx, -⟩ := hgreat i hi
    rw [hscan] at hidx
    cases hidx

/-- `maybeAdvanceCommitLocked` commits the greatest index that may be committed, if there is one,
and changes nothing else. -/
theorem commit_rule (n : Node) (h : n.log.Rising n.commitIndex n.currentTerm) :
    ((∃ i, n.Committable i) →
      IsGreatest {i | n.Committable i} n.maybeAdvanceCommitLocked.commitIndex) ∧
    ((¬ ∃ i, n.Committable i) → n.maybeAdvanceCommitLocked = n) ∧
    n.maybeAdvanceCommitLocked =
      { n with commitIndex := n.maybeAdvanceCommitLocked.commitIndex } ∧
    n.commitIndex ≤ n.maybeAdvanceCommitLocked.commitIndex ∧
    (n.commitIndex ≤ n.log.lastIndex →
      n.maybeAdvanceCommitLocked.commitIndex ≤ n.log.lastIndex) ∧
    (n.maybeAdvanceCommitLocked.commitIndex ≠ n.commitIndex →
      n.log.term n.maybeAdvanceCommitLocked.commitIndex = some n.currentTerm) := by
  rcases Node.maybeAdvanceCommit_cases h with ⟨idx, heq, hg⟩ | ⟨heq, hno⟩
  · rw [heq]
    exact ⟨fun _ => hg, fun hnone => absurd ⟨idx, hg.1⟩ hnone, rfl, hg.1.above.le,
      fun _ => (RaftLog.term_range hg.1.term).2, fun _ => hg.1.term⟩
  · rw [heq]
    exact ⟨fun ⟨i, hi⟩ => absurd hi (hno i), fun _ => rfl, rfl, le_rfl, id,
      fun hne => absurd rfl hne⟩

/-- A leader in term 2 with two peers; peer 2 holds index 2, the last one of term 2 is 3. -/
def leaderOfThree : Node :=
  { newNode 1 [2, 3] 0 (openPersister {}) with
    role := .leader
    currentTerm := 2
    log := ⟨⟨0, 0, []⟩, [⟨1, 1, []⟩, ⟨2, 2, []⟩, ⟨3, 2, []⟩]⟩
    matchIndex := fun q => if q = 2 then 2 else 1 }

theorem commit_rule_three : IsGreatest {i | leaderOfThree.Committable i} 2 ∧
    leaderOfThree.maybeAdvanceCommitLocked.commitIndex = 2 := by
  have hwf : leaderOfThree.log.WF := by decide
  have h := commit_rule leaderOfThree (hwf.rising le_rfl (by decide) (by decide))
  exact ⟨h.1 ⟨2, by decide, by decide, by decide⟩, by decide⟩

end KMC
