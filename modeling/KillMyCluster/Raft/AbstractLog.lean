import KillMyCluster.Lib.Table
import KillMyCluster.Raft.Log
import Mathlib.Data.Finset.Lattice.Fold
import Mathlib.Order.Lattice.Nat

/-! What the log is for: a compaction point, and the entries above it by their index. The list
model of `raftLog` stands for such a pair under every operation and answers every lookup from it. -/

namespace KMC

structure AbstractLog where
  first : ℕ
  firstTerm : ℕ
  entries : Table ℕ LogEntry

namespace AbstractLog

def new (i t : ℕ) : AbstractLog := ⟨i, t, ∅⟩

def append (a : AbstractLog) (es : List LogEntry) : AbstractLog :=
  { a with entries := es.foldl (fun m e => m.set e.index e) a.entries }

def truncateFrom (a : AbstractLog) (i : ℕ) : AbstractLog :=
  { a with entries := a.entries.prune fun k => decide (max i (a.first + 1) ≤ k) }

def compactTo (a : AbstractLog) (index term : ℕ) : AbstractLog :=
  if a.first < index then ⟨index, term, a.entries.prune fun k => decide (k ≤ index)⟩ else a

def lastIndex (a : AbstractLog) : ℕ := max a.first (a.entries.keys.sup id)

def entry (a : AbstractLog) (i : ℕ) : Option LogEntry := a.entries.get i

def term (a : AbstractLog) (i : ℕ) : Option ℕ :=
  if i = a.first then some a.firstTerm else (a.entry i).map LogEntry.term

def lastTerm (a : AbstractLog) : ℕ := (a.term a.lastIndex).getD a.firstTerm

def held (a : AbstractLog) (start : ℕ) : List LogEntry :=
  (List.range' start (a.lastIndex + 1 - start)).filterMap a.entry

/-- Of a compacted index there is no suffix. -/
def suffix (a : AbstractLog) (start : ℕ) : List LogEntry :=
  if start ≤ a.first then [] else a.held start

def allEntries (a : AbstractLog) : List LogEntry := a.held (a.first + 1)

end AbstractLog

namespace RaftLog

variable {l : RaftLog} {a : AbstractLog} {i : ℕ}

structure Stands (l : RaftLog) (a : AbstractLog) : Prop where
  wf : l.WF
  first : a.first = l.firstIndex
  firstTerm : a.firstTerm = l.sentinel.term
  above : ∀ k, a.entry (l.firstIndex + 1 + k) = l.reals[k]?
  below : ∀ i ≤ l.firstIndex, a.entry i = none

/-! ## Lookups -/

theorem Stands.entry (h : l.Stands a) (hi : l.firstIndex < i) : a.entry i = l.entry i := by
  rw [WF.entry_real hi, ← h.above]
  congr 1
  omega

theorem Stands.lastIndex (h : l.Stands a) : a.lastIndex = l.lastIndex := by
  have hlast := h.wf.lastIndex
  rw [AbstractLog.lastIndex, h.first]
  refine le_antisymm (max_le (by omega) (Finset.sup_le fun i hi => ?_)) ?_
  · obtain ⟨e, he⟩ := Table.mem_keys.mp hi
    have hlow : l.firstIndex < i := by
      by_contra hc
      exact absurd ((h.below i (by omega)).symm.trans he) (by simp)
    have hget : l.reals[i - l.firstIndex - 1]? = some e := by
      rw [← h.above, show l.firstIndex + 1 + (i - l.firstIndex - 1) = i by omega]
      exact he
    have := (List.getElem?_eq_some_iff.mp hget).1
    simp only [id]
    omega
  · rcases Nat.eq_zero_or_pos l.reals.length with hz | hpos
    · omega
    · have hget := (h.above (l.reals.length - 1)).trans (List.getElem?_eq_getElem (by omega))
      rw [show l.firstIndex + 1 + (l.reals.length - 1) = l.lastIndex by omega] at hget
      have hmem : l.lastIndex ∈ a.entries.keys := Table.mem_keys.mpr ⟨_, hget⟩
      exact le_max_of_le_right (Finset.le_sup (f := id) hmem)

theorem Stands.term (h : l.Stands a) : a.term i = l.term i := by
  rw [AbstractLog.term, h.first, h.firstTerm]
  split
  · rename_i hi
    rw [hi, h.wf.term_first]
  · rename_i hne
    rcases Nat.lt_or_ge l.firstIndex i with hi | hi
    · rw [h.wf.term_entry hi, h.entry hi]
    · rw [h.below i hi, RaftLog.term, if_pos (Or.inl (by omega))]
      rfl

theorem WF.term_last (h : l.WF) : l.term l.lastIndex = some l.lastTerm := by
  have hlast := h.lastIndex
  rcases List.eq_nil_or_concat l.reals with hn | ⟨es, e, hc⟩
  · rw [hlast, hn, List.length_nil, Nat.add_zero, h.term_first, lastTerm_of_nil hn]
  · rw [List.concat_eq_append] at hc
    have hlen : l.reals.length = es.length + 1 := by simp [hc]
    rw [h.term_real (by omega), hlast, hlen,
      show l.firstIndex + (es.length + 1) - l.firstIndex - 1 = es.length by omega]
    simp [lastTerm, hc]

theorem Stands.lastTerm (h : l.Stands a) : a.lastTerm = l.lastTerm := by
  rw [AbstractLog.lastTerm, h.lastIndex, h.term, h.wf.term_last, Option.getD_some]

theorem filterMap_range' {α : Type*} {f : ℕ → Option α} {as : List α} {s : ℕ}
    (h : ∀ k < as.length, f (s + k) = as[k]?) :
    (List.range' s as.length).filterMap f = as := by
  induction as generalizing s with
  | nil => rfl
  | cons x as ih =>
    have hx : f s = some x := h 0 (by simp)
    rw [List.length_cons, List.range'_succ, List.filterMap_cons_some hx]
    refine congrArg _ (ih fun k hk => ?_)
    rw [Nat.add_assoc, Nat.add_comm 1, h (k + 1) (by simpa using hk), List.getElem?_cons_succ]

theorem Stands.held (h : l.Stands a) (n : ℕ) :
    a.held (l.firstIndex + 1 + n) = l.reals.drop n := by
  have hlen : a.lastIndex + 1 - (l.firstIndex + 1 + n) = (l.reals.drop n).length := by
    rw [h.lastIndex, h.wf.lastIndex, List.length_drop]
    omega
  rw [AbstractLog.held, hlen]
  refine filterMap_range' fun k _ => ?_
  rw [Nat.add_assoc, h.above, List.getElem?_drop]

theorem Stands.suffix (h : l.Stands a) : a.suffix i = l.suffix i := by
  rw [AbstractLog.suffix, h.first]
  split
  · rename_i hi
    rw [RaftLog.suffix, if_pos (Or.inl hi)]
  · rename_i hi
    have heq : i = l.firstIndex + 1 + (i - l.firstIndex - 1) := by omega
    rw [h.wf.suffix (by omega), ← h.held, ← heq]

theorem Stands.allEntries (h : l.Stands a) : a.allEntries = l.allEntries := by
  rw [AbstractLog.allEntries, h.first]
  exact h.held 0

/-! ## Operations -/

theorem newRaftLog_stands (i t : ℕ) : (newRaftLog i t).Stands (.new i t) :=
  ⟨newRaftLog_wf i t, rfl, rfl, fun _ => Table.get_empty _, fun _ _ => Table.get_empty _⟩

theorem Stands.push (h : l.Stands a) {e : LogEntry} (he : e.index = l.lastIndex + 1) :
    (l.append [e]).Stands (a.append [e]) := by
  have hlast := h.wf.lastIndex
  have hget : ∀ i, (a.append [e]).entry i = if i = e.index then some e else a.entry i :=
    fun i => Table.get_set _ _ _ _
  refine ⟨h.wf.append fun k e' hk => ?_, h.first, h.firstTerm, fun k => ?_, fun i hi => ?_⟩
  · rw [List.getElem?_singleton] at hk
    split at hk
    · rename_i hz
      rw [← Option.some.inj hk, he, hz, Nat.add_zero]
    · cases hk
  · rw [hget, append_firstIndex, append_reals, h.above]
    rcases Nat.lt_trichotomy k l.reals.length with hk | rfl | hk
    · rw [if_neg (by omega), List.getElem?_append_left hk]
    · rw [if_pos (by omega), List.getElem?_concat_length]
    · rw [if_neg (by omega), List.getElem?_eq_none hk.le,
        List.getElem?_eq_none (by simpa using Nat.succ_le_of_lt hk)]
  · rw [append_firstIndex] at hi
    rw [hget, if_neg (by omega), h.below i hi]

theorem Stands.append (h : l.Stands a) {es : List LogEntry}
    (hes : ∀ k e, es[k]? = some e → e.index = l.lastIndex + 1 + k) :
    (l.append es).Stands (a.append es) := by
  induction es generalizing l a with
  | nil => simpa [RaftLog.append, AbstractLog.append] using h
  | cons e es ih =>
    have he : e.index = l.lastIndex + 1 := hes 0 e rfl
    have hpush := h.push he
    have hlast : (l.append [e]).lastIndex = l.lastIndex + 1 := by simp [RaftLog.lastIndex, he]
    have hrest := ih hpush fun k e' hk => by
      rw [hlast, hes (k + 1) e' hk]
      omega
    simpa [RaftLog.append, AbstractLog.append] using hrest

theorem Stands.truncateFrom (h : l.Stands a) (i : ℕ) :
    (l.truncateFrom i).Stands (a.truncateFrom i) := by
  have hget : ∀ j, (a.truncateFrom i).entry j =
      if max i (l.firstIndex + 1) ≤ j then none else a.entry j := by
    intro j
    refine (Table.get_prune _ _ _).trans ?_
    simp only [decide_eq_true_eq, h.first]
    rfl
  refine ⟨h.wf.truncateFrom i, h.first, h.firstTerm, fun k => ?_, fun j hj => ?_⟩
  · rw [hget, truncateFrom_firstIndex, h.above, RaftLog.truncateFrom, List.getElem?_take]
    by_cases hk : max i (l.firstIndex + 1) ≤ l.firstIndex + 1 + k
    · rw [if_pos hk, if_neg]
      split <;> omega
    · rw [if_neg hk, if_pos]
      split <;> omega
  · rw [truncateFrom_firstIndex] at hj
    rw [hget, if_neg (by omega), h.below j hj]

theorem Stands.compactTo (h : l.Stands a) (i t : ℕ) :
    (l.compactTo i t).Stands (a.compactTo i t) := by
  by_cases hi : l.firstIndex < i
  · have hget : ∀ j, (a.compactTo i t).entry j = if j ≤ i then none else a.entry j := by
      intro j
      rw [AbstractLog.compactTo, if_pos (h.first ▸ hi)]
      refine (Table.get_prune _ _ _).trans ?_
      simp only [decide_eq_true_eq]
      rfl
    have hwf := h.wf.compactTo_wf i t
    rw [h.wf.compactTo hi] at hwf ⊢
    refine ⟨hwf, ?_, ?_, fun k => ?_, fun j hj => ?_⟩
    · rw [AbstractLog.compactTo, if_pos (h.first ▸ hi)]
      rfl
    · rw [AbstractLog.compactTo, if_pos (h.first ▸ hi)]
    · change (a.compactTo i t).entry (i + 1 + k) = _
      rw [hget, if_neg (by omega), List.getElem?_drop, ← h.above]
      congr 1
      omega
    · exact (hget j).trans (if_pos hj)
  · rw [RaftLog.compactTo, if_pos (by omega), AbstractLog.compactTo, if_neg (h.first ▸ hi)]
    exact h

end RaftLog

end KMC
