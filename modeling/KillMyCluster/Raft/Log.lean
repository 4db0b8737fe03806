import Mathlib.Data.List.Basic
import Mathlib.Data.UInt
import KillMyCluster.Lib.Search

/-! The in-memory log of `internal/raft/log.go`: a sentinel that stands for the
compacted prefix, followed by the entries still held. Terms and indexes are `ℕ`. -/

namespace KMC

variable {i : ℕ}

abbrev Bytes := List UInt8

structure LogEntry where
  index : ℕ
  term : ℕ
  data : Bytes
deriving DecidableEq, Repr

/-- The slice `entries` of the source, whose position 0 is always the sentinel. -/
structure RaftLog where
  sentinel : LogEntry
  reals : List LogEntry
deriving DecidableEq, Repr

namespace RaftLog

def entries (l : RaftLog) : List LogEntry := l.sentinel :: l.reals

def newRaftLog (lastIncludedIndex lastIncludedTerm : ℕ) : RaftLog :=
  ⟨⟨lastIncludedIndex, lastIncludedTerm, []⟩, []⟩

def firstIndex (l : RaftLog) : ℕ := l.sentinel.index

def lastIndex (l : RaftLog) : ℕ := (l.reals.getLastD l.sentinel).index

def lastTerm (l : RaftLog) : ℕ := (l.reals.getLastD l.sentinel).term

/-- `none` is the source's `(0, false)`. -/
def term (l : RaftLog) (i : ℕ) : Option ℕ :=
  if i < l.firstIndex ∨ l.lastIndex < i then none
  else (l.entries[i - l.firstIndex]?).map LogEntry.term

/-- `none` where the source would index past the slice. -/
def entry (l : RaftLog) (i : ℕ) : Option LogEntry := l.entries[i - l.firstIndex]?

def suffix (l : RaftLog) (start : ℕ) : List LogEntry :=
  if start ≤ l.firstIndex ∨ l.lastIndex < start then []
  else l.entries.drop (start - l.firstIndex)

def append (l : RaftLog) (es : List LogEntry) : RaftLog := { l with reals := l.reals ++ es }

/-- Beyond the end nothing is cut off; `SliceLog` has what the slice does there. -/
def truncateFrom (l : RaftLog) (i : ℕ) : RaftLog :=
  let i := if i ≤ l.firstIndex then l.firstIndex + 1 else i
  { l with reals := l.reals.take (i - l.firstIndex - 1) }

def firstIndexOfTerm (l : RaftLog) (t : ℕ) : ℕ :=
  let i := Search.search l.reals.length fun j => decide (t ≤ (l.reals.getD j l.sentinel).term)
  match l.reals[i]? with
  | some e => if e.term = t then e.index else 0
  | none => 0

def lastIndexOfTerm (l : RaftLog) (t : ℕ) : ℕ :=
  let i := Search.search l.reals.length fun j => decide (t < (l.reals.getD j l.sentinel).term)
  if i = 0 then 0
  else match l.reals[i - 1]? with
    | some e => if e.term = t then e.index else 0
    | none => 0

def compactTo (l : RaftLog) (index term : ℕ) : RaftLog :=
  if index ≤ l.firstIndex then l
  else if index < l.lastIndex then
    ⟨⟨index, term, []⟩, l.entries.drop (index - l.firstIndex + 1)⟩
  else newRaftLog index term

def allEntries (l : RaftLog) : List LogEntry := l.reals

/-- The indexes of the held entries follow the compaction point one by one. -/
def WF (l : RaftLog) : Prop :=
  ∀ k e, l.reals[k]? = some e → e.index = l.firstIndex + 1 + k

instance (l : RaftLog) : Decidable l.WF :=
  decidable_of_iff (∀ k : Fin l.reals.length, (l.reals.get k).index = l.firstIndex + 1 + k) <| by
    constructor
    · intro h k e he
      obtain ⟨hk, rfl⟩ := List.getElem?_eq_some_iff.mp he
      exact h ⟨k, hk⟩
    · intro h k
      exact h k _ (List.getElem?_eq_getElem k.isLt)

section Lemmas

variable {l : RaftLog}

@[simp] theorem newRaftLog_firstIndex (i t : ℕ) : (newRaftLog i t).firstIndex = i := rfl

@[simp] theorem newRaftLog_reals (i t : ℕ) : (newRaftLog i t).reals = [] := rfl

@[simp] theorem append_firstIndex (es : List LogEntry) : (l.append es).firstIndex = l.firstIndex :=
  rfl

@[simp] theorem append_sentinel (es : List LogEntry) : (l.append es).sentinel = l.sentinel := rfl

@[simp] theorem append_reals (es : List LogEntry) : (l.append es).reals = l.reals ++ es := rfl

@[simp] theorem truncateFrom_sentinel (i : ℕ) : (l.truncateFrom i).sentinel = l.sentinel := rfl

@[simp] theorem truncateFrom_firstIndex (i : ℕ) : (l.truncateFrom i).firstIndex = l.firstIndex :=
  rfl

theorem truncateFrom_reals (hi : l.firstIndex < i) :
    (l.truncateFrom i).reals = l.reals.take (i - l.firstIndex - 1) := by
  simp [truncateFrom, Nat.not_le.mpr hi]

theorem newRaftLog_wf (i t : ℕ) : (newRaftLog i t).WF := by
  intro k e he
  simp at he

theorem WF.lastIndex (h : l.WF) : l.lastIndex = l.firstIndex + l.reals.length := by
  unfold RaftLog.lastIndex
  rcases List.eq_nil_or_concat l.reals with hn | ⟨es, e, hc⟩
  · simp [hn, firstIndex]
  · have := h es.length e (by simp [hc])
    simp only [hc, List.concat_eq_append, List.getLastD_concat, this, List.length_append,
      List.length_singleton]
    omega

theorem WF.of_mem_take (h : l.WF) {n : ℕ} {e : LogEntry} (he : e ∈ l.reals.take n) :
    l.firstIndex < e.index ∧ e.index ≤ l.firstIndex + n := by
  obtain ⟨k, hk⟩ := List.mem_iff_getElem?.mp he
  obtain ⟨hlt, -⟩ := List.getElem?_eq_some_iff.mp hk
  rw [List.length_take] at hlt
  rw [List.getElem?_take_of_lt (by omega)] at hk
  have := h k e hk
  omega

theorem WF.of_mem_drop (h : l.WF) {n : ℕ} {e : LogEntry} (he : e ∈ l.reals.drop n) :
    l.firstIndex + n < e.index := by
  obtain ⟨k, hk⟩ := List.mem_iff_getElem?.mp he
  rw [List.getElem?_drop] at hk
  have := h _ e hk
  omega

theorem lastTerm_of_nil (h : l.reals = []) : l.lastTerm = l.sentinel.term := by
  simp [lastTerm, h]

theorem WF.append (h : l.WF) {es : List LogEntry}
    (hes : ∀ k e, es[k]? = some e → e.index = l.lastIndex + 1 + k) : (l.append es).WF := by
  intro k e he
  rw [append_reals] at he
  by_cases hk : k < l.reals.length
  · rw [List.getElem?_append_left hk] at he
    exact h k e he
  · rw [List.getElem?_append_right (by omega)] at he
    have := hes _ e he
    rw [h.lastIndex] at this
    rw [append_firstIndex]
    omega

theorem WF.truncateFrom (h : l.WF) (i : ℕ) : (l.truncateFrom i).WF := by
  intro k e he
  obtain ⟨hk, hv⟩ := List.getElem?_eq_some_iff.mp he
  refine h k e (List.getElem?_eq_some_iff.mpr ⟨?_, by rw [← hv]; exact (List.getElem_take ..).symm⟩)

theorem WF.term_real (h : l.WF) (hf : l.firstIndex < i) :
    l.term i = (l.reals[i - l.firstIndex - 1]?).map LogEntry.term := by
  unfold RaftLog.term
  have hlast := h.lastIndex
  obtain ⟨d, hd⟩ : ∃ d, i - l.firstIndex = d + 1 := ⟨i - l.firstIndex - 1, by omega⟩
  split
  · rename_i hout
    rw [List.getElem?_eq_none (by omega)]
    rfl
  · simp [hd, entries]

theorem WF.term_first (h : l.WF) : l.term l.firstIndex = some l.sentinel.term := by
  have := h.lastIndex
  simp [term, entries, this]

theorem WF.term_held (h : l.WF) (h1 : l.firstIndex ≤ i) (h2 : i ≤ l.lastIndex) :
    ∃ t, l.term i = some t := by
  have hlen := h.lastIndex
  rcases h1.eq_or_lt with rfl | hlt
  · exact ⟨_, h.term_first⟩
  · rw [h.term_real hlt, List.getElem?_eq_getElem (by omega)]
    exact ⟨_, rfl⟩

theorem WF.entry_real (hf : l.firstIndex < i) : l.entry i = l.reals[i - l.firstIndex - 1]? := by
  obtain ⟨d, hd⟩ : ∃ d, i - l.firstIndex = d + 1 := ⟨i - l.firstIndex - 1, by omega⟩
  simp [entry, entries, hd]

theorem WF.suffix (h : l.WF) {start : ℕ} (hf : l.firstIndex < start) :
    l.suffix start = l.reals.drop (start - l.firstIndex - 1) := by
  have hlast := h.lastIndex
  obtain ⟨d, hd⟩ : ∃ d, start - l.firstIndex = d + 1 := ⟨start - l.firstIndex - 1, by omega⟩
  unfold RaftLog.suffix
  split
  · rw [List.drop_eq_nil_of_le (by omega)]
  · simp [entries, hd]

theorem WF.term_entry (h : l.WF) (hf : l.firstIndex < i) :
    l.term i = (l.entry i).map LogEntry.term := by
  rw [h.term_real hf, WF.entry_real hf]

theorem WF.entry_append (h : l.WF) {es : List LogEntry} (hf : l.firstIndex < i)
    (hi : i ≤ l.lastIndex) : (l.append es).entry i = l.entry i := by
  have := h.lastIndex
  rw [WF.entry_real hf, WF.entry_real (by simpa using hf), append_firstIndex, append_reals,
    List.getElem?_append_left (by omega)]

theorem WF.entry_append_new (h : l.WF) (es : List LogEntry) (k : ℕ) :
    (l.append es).entry (l.lastIndex + 1 + k) = es[k]? := by
  have := h.lastIndex
  rw [WF.entry_real (by rw [append_firstIndex]; omega), append_firstIndex, append_reals,
    List.getElem?_append_right (by omega)]
  congr 1
  omega

theorem entry_truncate {cut : ℕ} (hf : l.firstIndex < i) (hi : i < cut) :
    (l.truncateFrom cut).entry i = l.entry i := by
  rw [WF.entry_real hf, WF.entry_real (by simpa using hf), truncateFrom_reals (by omega),
    truncateFrom_firstIndex, List.getElem?_take_of_lt (by omega)]

theorem WF.truncate_last (h : l.WF) (hf : l.firstIndex < i) (hi : i ≤ l.lastIndex + 1) :
    (l.truncateFrom i).lastIndex = i - 1 := by
  have := h.lastIndex
  rw [(h.truncateFrom i).lastIndex, truncateFrom_reals hf, List.length_take,
    truncateFrom_firstIndex]
  omega

/-- What compaction leaves, whichever of its branches runs. -/
theorem WF.compactTo (h : l.WF) {t : ℕ} (hi : l.firstIndex < i) :
    l.compactTo i t = ⟨⟨i, t, []⟩, l.reals.drop (i - l.firstIndex)⟩ := by
  have hlast := h.lastIndex
  unfold RaftLog.compactTo
  rw [if_neg (by omega)]
  split
  · simp [entries]
  · rw [List.drop_eq_nil_of_le (by omega)]
    rfl

theorem WF.compactTo_wf (h : l.WF) (i t : ℕ) : (l.compactTo i t).WF := by
  by_cases hi : l.firstIndex < i
  · rw [h.compactTo hi]
    intro k e he
    simp only [List.getElem?_drop] at he
    have := h _ e he
    simp only [firstIndex] at hi this ⊢
    omega
  · rwa [RaftLog.compactTo, if_pos (by omega)]

theorem compactTo_first (l : RaftLog) (i t : ℕ) :
    (l.compactTo i t).firstIndex = max l.firstIndex i := by
  unfold RaftLog.compactTo
  split
  · omega
  split
  · simp only [firstIndex] at *
    omega
  · simp only [newRaftLog_firstIndex]
    omega

/-- Above the new sentinel the terms are what they were. -/
theorem WF.compactTo_term (h : l.WF) {c t : ℕ} (hi : c < i) (hf : l.firstIndex < i) :
    (l.compactTo c t).term i = l.term i := by
  by_cases hc : l.firstIndex < c
  · rw [(h.compactTo_wf c t).term_real (by rw [compactTo_first]; omega), h.term_real hf,
      h.compactTo hc, List.getElem?_drop]
    congr 2
    simp only [firstIndex] at hc ⊢
    omega
  · rw [RaftLog.compactTo, if_pos (by omega)]

end Lemmas

end RaftLog

end KMC
