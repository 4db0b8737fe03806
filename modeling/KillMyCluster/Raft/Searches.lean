import KillMyCluster.Raft.Log
import Mathlib.Order.Bounds.Basic

/-! The binary searches of the log by term, against the set of indexes they look for. Where terms do
not decrease, the entries of a term are a run, and the two searches stop at its ends. -/

namespace KMC.RaftLog

variable {l : RaftLog} {i k t : ℕ} {e : LogEntry}

/-- The entries above the sentinel are in the order of their terms. -/
def Sorted (l : RaftLog) : Prop :=
  ∀ (a b : ℕ) (e e' : LogEntry), a ≤ b → l.reals[a]? = some e → l.reals[b]? = some e' →
    e.term ≤ e'.term

instance (l : RaftLog) : Decidable l.Sorted :=
  decidable_of_iff (∀ a b : Fin l.reals.length, a ≤ b →
      (l.reals.get a).term ≤ (l.reals.get b).term) <| by
    constructor
    · intro h a b e e' hab ha hb
      obtain ⟨ha', rfl⟩ := List.getElem?_eq_some_iff.mp ha
      obtain ⟨hb', rfl⟩ := List.getElem?_eq_some_iff.mp hb
      exact h ⟨a, ha'⟩ ⟨b, hb'⟩ hab
    · intro h a b hab
      exact h a b _ _ hab (List.getElem?_eq_getElem a.isLt) (List.getElem?_eq_getElem b.isLt)

def indexesOf (l : RaftLog) (t : ℕ) : Set ℕ := {i | ∃ e ∈ l.reals, e.term = t ∧ e.index = i}

theorem WF.mem_indexesOf (h : l.WF) : i ∈ l.indexesOf t ↔
    ∃ k e, l.reals[k]? = some e ∧ e.term = t ∧ i = l.firstIndex + 1 + k := by
  constructor
  · rintro ⟨e, he, ht, rfl⟩
    obtain ⟨k, hk⟩ := List.mem_iff_getElem?.mp he
    exact ⟨k, e, hk, ht, h k e hk⟩
  · rintro ⟨k, e, hk, ht, rfl⟩
    exact ⟨e, List.mem_of_getElem? hk, ht, h k e hk⟩

theorem WF.term_of_mem (h : l.WF) (hi : i ∈ l.indexesOf t) :
    l.firstIndex < i ∧ l.term i = some t := by
  obtain ⟨k, e, hk, ht, rfl⟩ := h.mem_indexesOf.mp hi
  have hf : l.firstIndex < l.firstIndex + 1 + k := by omega
  refine ⟨hf, ?_⟩
  rw [h.term_real hf, show l.firstIndex + 1 + k - l.firstIndex - 1 = k by omega, hk]
  exact congrArg some ht

theorem WF.mem_of_term (h : l.WF) (hf : l.firstIndex < i) (ht : l.term i = some t) :
    i ∈ l.indexesOf t := by
  rw [h.term_real hf] at ht
  obtain ⟨e, he, hte⟩ := Option.map_eq_some_iff.mp ht
  exact h.mem_indexesOf.mpr ⟨_, e, he, hte, by omega⟩

/-! ## What is found -/

theorem firstIndexOfTerm_mem (h : l.firstIndexOfTerm t ≠ 0) :
    l.firstIndexOfTerm t ∈ l.indexesOf t := by
  unfold firstIndexOfTerm at h ⊢
  simp only at h ⊢
  generalize Search.search l.reals.length _ = n at h ⊢
  cases he : l.reals[n]? with
  | none => simp [he] at h
  | some e =>
    simp only [he] at h ⊢
    split at h
    · rename_i ht
      rw [if_pos ht]
      exact ⟨e, List.mem_of_getElem? he, ht, rfl⟩
    · exact absurd rfl h

theorem lastIndexOfTerm_mem (h : l.lastIndexOfTerm t ≠ 0) :
    l.lastIndexOfTerm t ∈ l.indexesOf t := by
  unfold lastIndexOfTerm at h ⊢
  simp only at h ⊢
  generalize Search.search l.reals.length _ = n at h ⊢
  split at h
  · exact absurd rfl h
  rename_i hn
  rw [if_neg hn]
  cases he : l.reals[n - 1]? with
  | none => simp [he] at h
  | some e =>
    simp only [he] at h ⊢
    split at h
    · rename_i ht
      rw [if_pos ht]
      exact ⟨e, List.mem_of_getElem? he, ht, rfl⟩
    · exact absurd rfl h

/-! ## The ends of a run -/

/-- A search for a bound on terms stops at or below an entry exactly if the entry meets it. -/
theorem Sorted.search_le_iff (hs : l.Sorted) {P : ℕ → Prop} [DecidablePred P]
    (hP : ∀ a b, a ≤ b → P a → P b) (hk : l.reals[k]? = some e) :
    Search.search l.reals.length (fun j => decide (P (l.reals.getD j l.sentinel).term)) ≤ k ↔
      P e.term := by
  have hget : ∀ {j : ℕ} {e : LogEntry}, l.reals[j]? = some e → l.reals.getD j l.sentinel = e := by
    intro j e hj
    rw [List.getD_eq_getElem?_getD, hj, Option.getD_some]
  rw [Search.search_le_iff (fun a b hab hb ha => ?_) (List.getElem?_eq_some_iff.mp hk).1, hget hk,
    decide_eq_true_eq]
  have hea := List.getElem?_eq_getElem (show a < l.reals.length by omega)
  have heb := List.getElem?_eq_getElem hb
  rw [hget hea, decide_eq_true_eq] at ha
  rw [hget heb, decide_eq_true_eq]
  exact hP _ _ (hs a b _ _ hab hea heb) ha

section Ends

variable (h : l.WF) (hs : l.Sorted)
include h hs

theorem WF.firstIndexOfTerm_isLeast (hne : (l.indexesOf t).Nonempty) :
    IsLeast (l.indexesOf t) (l.firstIndexOfTerm t) := by
  obtain ⟨_, hi⟩ := hne
  obtain ⟨k, e, hk, ht, -⟩ := h.mem_indexesOf.mp hi
  have hiff := fun {j : ℕ} {e : LogEntry} (hj : l.reals[j]? = some e) =>
    hs.search_le_iff (P := (t ≤ ·)) (fun a b hab ha => ha.trans hab) hj
  unfold firstIndexOfTerm
  simp only
  generalize Search.search l.reals.length _ = n at hiff ⊢
  have hnk : n ≤ k := (hiff hk).mpr ht.ge
  have hlen := (List.getElem?_eq_some_iff.mp hk).1
  obtain ⟨e', hn⟩ : ∃ e', l.reals[n]? = some e' :=
    ⟨_, List.getElem?_eq_getElem (show n < l.reals.length by omega)⟩
  -- the entry at the stop is of term `t`: at least, by the search, at most, by the order
  have ht' : e'.term = t :=
    le_antisymm ((hs n k e' e hnk hn hk).trans ht.le) ((hiff hn).mp le_rfl)
  simp only [hn, if_pos ht']
  refine ⟨⟨e', List.mem_of_getElem? hn, ht', rfl⟩, fun i hi => ?_⟩
  obtain ⟨j, e'', hj, htj, rfl⟩ := h.mem_indexesOf.mp hi
  have hnj : n ≤ j := (hiff hj).mpr htj.ge
  rw [h n e' hn]
  omega

theorem WF.firstIndexOfTerm_le (hi : i ∈ l.indexesOf t) : l.firstIndexOfTerm t ≤ i :=
  (h.firstIndexOfTerm_isLeast hs ⟨i, hi⟩).2 hi

theorem WF.lastIndexOfTerm_isGreatest (hne : (l.indexesOf t).Nonempty) :
    IsGreatest (l.indexesOf t) (l.lastIndexOfTerm t) := by
  obtain ⟨_, hi⟩ := hne
  obtain ⟨k, e, hk, ht, -⟩ := h.mem_indexesOf.mp hi
  have hiff := fun {j : ℕ} {e : LogEntry} (hj : l.reals[j]? = some e) =>
    hs.search_le_iff (P := (t < ·)) (fun a b hab ha => ha.trans_le hab) hj
  have hle : Search.search l.reals.length
      (fun j => decide (t < (l.reals.getD j l.sentinel).term)) ≤ l.reals.length :=
    (Search.search_spec _ _).1
  unfold lastIndexOfTerm
  simp only
  generalize Search.search l.reals.length _ = n at hiff hle ⊢
  have hkn : ∀ {j : ℕ} {e : LogEntry}, l.reals[j]? = some e → e.term = t → j < n := by
    intro j e hj htj
    by_contra hc
    exact absurd ((hiff hj).mp (by omega)) (by omega)
  have hpos : k < n := hkn hk ht
  obtain ⟨e', hn⟩ : ∃ e', l.reals[n - 1]? = some e' :=
    ⟨_, List.getElem?_eq_getElem (show n - 1 < l.reals.length by omega)⟩
  -- the entry before the stop is of term `t`: at most, by the search, at least, by the order
  have ht' : e'.term = t := by
    refine le_antisymm (not_lt.mp fun hlt => ?_) (ht ▸ hs k (n - 1) e e' (by omega) hk hn)
    have := (hiff hn).mpr hlt
    omega
  rw [if_neg (by omega)]
  simp only [hn, if_pos ht']
  refine ⟨⟨e', List.mem_of_getElem? hn, ht', rfl⟩, fun i hi => ?_⟩
  obtain ⟨j, e'', hj, htj, rfl⟩ := h.mem_indexesOf.mp hi
  have hjn : j < n := hkn hj htj
  rw [h (n - 1) e' hn]
  omega

end Ends

theorem WF.pos_of_mem (h : l.WF) (hi : i ∈ l.indexesOf t) : i ≠ 0 := by
  obtain ⟨k, e, -, -, rfl⟩ := h.mem_indexesOf.mp hi
  omega

/-- The searches are the scans they replaced: the ends of the run of `t`, and 0 where there is
none. -/
theorem term_searches_eq_scans {l : RaftLog} (h : l.WF) (hs : l.Sorted) (t : ℕ) :
    ((l.indexesOf t).Nonempty → IsLeast (l.indexesOf t) (l.firstIndexOfTerm t) ∧
      IsGreatest (l.indexesOf t) (l.lastIndexOfTerm t)) ∧
    (l.firstIndexOfTerm t = 0 ↔ l.indexesOf t = ∅) ∧
    (l.lastIndexOfTerm t = 0 ↔ l.indexesOf t = ∅) := by
  refine ⟨fun hne => ⟨h.firstIndexOfTerm_isLeast hs hne, h.lastIndexOfTerm_isGreatest hs hne⟩,
    ⟨fun h0 => ?_, fun hempty => ?_⟩, ⟨fun h0 => ?_, fun hempty => ?_⟩⟩
  · by_contra hne
    have hleast := h.firstIndexOfTerm_isLeast hs (Set.nonempty_iff_ne_empty.mpr hne)
    exact h.pos_of_mem hleast.1 h0
  · by_contra h0
    exact (hempty ▸ firstIndexOfTerm_mem h0 :)
  · by_contra hne
    have hgreatest := h.lastIndexOfTerm_isGreatest hs (Set.nonempty_iff_ne_empty.mpr hne)
    exact h.pos_of_mem hgreatest.1 h0
  · by_contra h0
    exact (hempty ▸ lastIndexOfTerm_mem h0 :)

def compactedLog : RaftLog :=
  ⟨⟨6, 2, []⟩, [⟨7, 2, []⟩, ⟨8, 2, []⟩, ⟨9, 5, []⟩, ⟨10, 5, []⟩, ⟨11, 7, []⟩]⟩

theorem term_searches_compactedLog : compactedLog.WF ∧ compactedLog.Sorted ∧
    (compactedLog.firstIndexOfTerm 2 = 7 ∧ compactedLog.lastIndexOfTerm 2 = 8) ∧
    compactedLog.indexesOf 3 = ∅ :=
  have hwf : compactedLog.WF := by decide
  have hs : compactedLog.Sorted := by decide
  ⟨hwf, hs, by decide, (term_searches_eq_scans hwf hs 3).2.1.mp (by decide)⟩

end KMC.RaftLog
