import KillMyCluster.Lib.Slice
import KillMyCluster.Lib.Trace
import KillMyCluster.Raft.AbstractLog

/-! `internal/raft/log.go` over the slice it keeps: pointers that may be nil, `uint64` offsets that
wrap, slice expressions that are checked against length or capacity. As long as no truncation
starts beyond the end of the log, the slice shows the abstract log that the same calls lead to. -/

namespace KMC

open Trace

variable {i : UInt64} {n : ℕ}

structure PbLogEntry where
  index : UInt64
  term : UInt64
  data : Bytes
deriving DecidableEq, Repr

def PbLogEntry.toEntry (e : PbLogEntry) : LogEntry := ⟨e.index.toNat, e.term.toNat, e.data⟩

inductive Panic
  | outOfRange
  | nilDereference
deriving DecidableEq, Repr

/-- The `raftLog` of the source. A nil pointer is `none`. -/
structure SliceLog where
  entries : GoSlice (Option PbLogEntry)
deriving DecidableEq

namespace SliceLog

def newRaftLog (lastIncludedIndex lastIncludedTerm : UInt64) : SliceLog :=
  ⟨.lit [some ⟨lastIncludedIndex, lastIncludedTerm, []⟩]⟩

def pointer (l : SliceLog) (k : ℕ) : Except Panic (Option PbLogEntry) :=
  match l.entries.toList[k]? with
  | some p => .ok p
  | none => .error .outOfRange

/-- `l.entries[k]`, of which a field is read. -/
def deref (l : SliceLog) (k : ℕ) : Except Panic PbLogEntry := do
  match ← l.pointer k with
  | some e => return e
  | none => throw .nilDereference

def firstIndex (l : SliceLog) : Except Panic UInt64 := return (← l.deref 0).index

def lastIndex (l : SliceLog) : Except Panic UInt64 := return (← l.deref (l.entries.len - 1)).index

def lastTerm (l : SliceLog) : Except Panic UInt64 := return (← l.deref (l.entries.len - 1)).term

def term (l : SliceLog) (i : UInt64) : Except Panic (Option UInt64) := do
  let first ← l.firstIndex
  if i < first then return none
  else
    let last ← l.lastIndex
    if last < i then return none
    else return some (← l.deref (i - first).toNat).term

def entry (l : SliceLog) (i : UInt64) : Except Panic (Option PbLogEntry) := do
  let first ← l.firstIndex
  l.pointer (i - first).toNat

def checked {α : Type} : Option α → Except Panic α
  | some a => .ok a
  | none => .error .outOfRange

def suffix (l : SliceLog) (start : UInt64) : Except Panic (List (Option PbLogEntry)) := do
  let first ← l.firstIndex
  if start ≤ first then return []
  else
    let last ← l.lastIndex
    if last < start then return []
    else return (← checked (l.entries.after (start - first).toNat)).toList

def truncateFrom (l : SliceLog) (i : UInt64) : Except Panic SliceLog := do
  let first ← l.firstIndex
  let i := if i ≤ first then first + 1 else i
  return ⟨← checked (l.entries.upTo (i - first).toNat)⟩

def allEntries (l : SliceLog) : Except Panic (List (Option PbLogEntry)) :=
  return (← checked (l.entries.after 1)).toList

section Growth

/-! `append` of the language may leave spare capacity behind; how much is not specified. -/

variable (grow : ℕ → ℕ → ℕ)

def append (l : SliceLog) (entries : List (Option PbLogEntry)) : SliceLog :=
  ⟨l.entries.append grow none entries⟩

def compactTo (l : SliceLog) (index term : UInt64) : Except Panic SliceLog := do
  let first ← l.firstIndex
  if index ≤ first then return l
  else
    let last ← l.lastIndex
    if index < last then
      let keep ← checked (l.entries.after (index - first + 1).toNat)
      let fresh := GoSlice.make none (keep.len + 1)
      let fresh := fresh.append grow none [some ⟨index, term, []⟩]
      return ⟨fresh.append grow none keep.toList⟩
    else return newRaftLog index term

end Growth

end SliceLog

/-! ## The slice mirrors the list -/

/-- Offsets from the sentinel do not wrap. -/
theorem SliceLog.offset {f : UInt64} (hf : f.toNat = n) (hi : n ≤ i.toNat) :
    (i - f).toNat = i.toNat - n := by
  rw [UInt64.toNat_sub_of_le i f (UInt64.le_iff_toNat_le.mpr (by omega)), hf]

/-- How many pointers a truncation keeps. -/
theorem SliceLog.kept {f : UInt64} (hf : f.toNat = n) :
    ((if i ≤ f then f + 1 else i) - f).toNat = max (i.toNat - n) 1 := by
  split
  · rename_i hi
    rw [UInt64.le_iff_toNat_le] at hi
    rw [add_sub_cancel_left, UInt64.toNat_one]
    omega
  · rename_i hi
    rw [UInt64.le_iff_toNat_le] at hi
    rw [SliceLog.offset hf (by omega)]
    omega

structure SliceLog.Mirrors (s : SliceLog) (l : RaftLog) : Prop where
  wf : l.WF
  same : ∃ es : List PbLogEntry,
    s.entries.toList = es.map some ∧ es.map PbLogEntry.toEntry = l.entries

namespace SliceLog.Mirrors

variable {s : SliceLog} {l : RaftLog} (h : s.Mirrors l)
include h

theorem len : s.entries.len = l.reals.length + 1 := by
  obtain ⟨es, hs, hl⟩ := h.same
  have hlen := congrArg List.length hl
  rw [← GoSlice.length_toList, hs, List.length_map]
  simpa [RaftLog.entries] using hlen

theorem pointer {k : ℕ} {e : LogEntry} (he : l.entries[k]? = some e) :
    ∃ p : PbLogEntry, s.pointer k = .ok (some p) ∧ p.toEntry = e := by
  obtain ⟨es, hs, hl⟩ := h.same
  rw [← hl, List.getElem?_map] at he
  obtain ⟨p, hp, rfl⟩ := Option.map_eq_some_iff.mp he
  refine ⟨p, ?_, rfl⟩
  rw [SliceLog.pointer, hs, List.getElem?_map, hp]
  rfl

theorem deref {k : ℕ} {e : LogEntry} (he : l.entries[k]? = some e) :
    ∃ p : PbLogEntry, s.deref k = .ok p ∧ p.toEntry = e := by
  obtain ⟨p, hp, hpe⟩ := h.pointer he
  refine ⟨p, ?_, hpe⟩
  rw [SliceLog.deref, hp]
  rfl

theorem firstIndex : ∃ f, s.firstIndex = .ok f ∧ f.toNat = l.firstIndex := by
  obtain ⟨p, hp, hpe⟩ := h.deref (k := 0) rfl
  refine ⟨p.index, ?_, congrArg LogEntry.index hpe⟩
  rw [SliceLog.firstIndex, hp]
  rfl

theorem last : ∃ p : PbLogEntry, s.deref (s.entries.len - 1) = .ok p ∧
    p.toEntry = l.reals.getLastD l.sentinel := by
  refine h.deref ?_
  rw [h.len, Nat.add_sub_cancel, List.getLastD_eq_getLast?, ← List.getLast?_cons,
    List.getLast?_eq_getElem?]
  rfl

theorem lastIndex : ∃ i, s.lastIndex = .ok i ∧ i.toNat = l.lastIndex := by
  obtain ⟨p, hp, hpe⟩ := h.last
  refine ⟨p.index, ?_, congrArg LogEntry.index hpe⟩
  rw [SliceLog.lastIndex, hp]
  rfl

theorem lastTerm : ∃ t, s.lastTerm = .ok t ∧ t.toNat = l.lastTerm := by
  obtain ⟨p, hp, hpe⟩ := h.last
  refine ⟨p.term, ?_, congrArg LogEntry.term hpe⟩
  rw [SliceLog.lastTerm, hp]
  rfl

theorem term (i : UInt64) :
    (s.term i).map (Option.map UInt64.toNat) = .ok (l.term i.toNat) := by
  obtain ⟨f, hf, hfn⟩ := h.firstIndex
  obtain ⟨m, hm, hmn⟩ := h.lastIndex
  have hlast := h.wf.lastIndex
  simp only [SliceLog.term, hf, hm, bind, Except.bind, pure, Except.pure, RaftLog.term,
    UInt64.lt_iff_toNat_lt, hfn, hmn]
  by_cases h1 : i.toNat < l.firstIndex
  · rw [if_pos h1, if_pos (Or.inl h1)]
    rfl
  by_cases h2 : l.lastIndex < i.toNat
  · rw [if_neg h1, if_pos h2, if_pos (Or.inr h2)]
    rfl
  rw [if_neg h1, if_neg h2, if_neg (not_or.mpr ⟨h1, h2⟩)]
  obtain ⟨e, he⟩ : ∃ e, l.entries[i.toNat - l.firstIndex]? = some e :=
    ⟨_, List.getElem?_eq_getElem (by simp [RaftLog.entries]; omega)⟩
  obtain ⟨p, hp, rfl⟩ := h.deref he
  rw [SliceLog.offset hfn (by omega), hp, he]
  rfl

theorem entry (h1 : l.firstIndex < i.toNat) (h2 : i.toNat ≤ l.lastIndex) :
    ∃ p : PbLogEntry, s.entry i = .ok (some p) ∧ l.entry i.toNat = some p.toEntry := by
  obtain ⟨f, hf, hfn⟩ := h.firstIndex
  have hlast := h.wf.lastIndex
  obtain ⟨e, he⟩ : ∃ e, l.entries[i.toNat - l.firstIndex]? = some e :=
    ⟨_, List.getElem?_eq_getElem (by simp [RaftLog.entries]; omega)⟩
  obtain ⟨p, hp, rfl⟩ := h.pointer he
  refine ⟨p, ?_, he⟩
  simp only [SliceLog.entry, hf, bind, Except.bind, SliceLog.offset hfn h1.le, hp]

theorem after (hn : n ≤ l.reals.length + 1) :
    ∃ (t : GoSlice (Option PbLogEntry)) (ps : List PbLogEntry),
      SliceLog.checked (s.entries.after n) = .ok t ∧ t.toList = ps.map some ∧
      ps.map PbLogEntry.toEntry = l.entries.drop n := by
  obtain ⟨es, hs, hl⟩ := h.same
  obtain ⟨t, ht, htl⟩ := GoSlice.after_of_le (s := s.entries) (h.len ▸ hn)
  refine ⟨t, es.drop n, ?_, ?_, ?_⟩
  · rw [ht]
    rfl
  · rw [htl, hs, List.map_drop]
  · rw [← hl, List.map_drop]

theorem suffix (i : UInt64) : ∃ ps : List PbLogEntry, s.suffix i = .ok (ps.map some) ∧
    ps.map PbLogEntry.toEntry = l.suffix i.toNat := by
  obtain ⟨f, hf, hfn⟩ := h.firstIndex
  obtain ⟨m, hm, hmn⟩ := h.lastIndex
  have hlast := h.wf.lastIndex
  simp only [SliceLog.suffix, hf, hm, bind, Except.bind, pure, Except.pure, RaftLog.suffix,
    UInt64.lt_iff_toNat_lt, UInt64.le_iff_toNat_le, hfn, hmn]
  by_cases h1 : i.toNat ≤ l.firstIndex
  · rw [if_pos h1, if_pos (Or.inl h1)]
    exact ⟨[], rfl, rfl⟩
  by_cases h2 : l.lastIndex < i.toNat
  · rw [if_neg h1, if_pos h2, if_pos (Or.inr h2)]
    exact ⟨[], rfl, rfl⟩
  rw [if_neg h1, if_neg h2, if_neg (not_or.mpr ⟨h1, h2⟩)]
  obtain ⟨t, ps, ht, htl, hps⟩ := h.after (n := i.toNat - l.firstIndex) (by omega)
  refine ⟨ps, ?_, hps⟩
  rw [SliceLog.offset hfn (by omega), ht]
  exact congrArg Except.ok htl

theorem allEntries : ∃ ps : List PbLogEntry, s.allEntries = .ok (ps.map some) ∧
    ps.map PbLogEntry.toEntry = l.allEntries := by
  obtain ⟨t, ps, ht, htl, hps⟩ := h.after (n := 1) (by omega)
  refine ⟨ps, ?_, hps⟩
  rw [SliceLog.allEntries, ht]
  exact congrArg Except.ok htl

/-! ### Operations -/

theorem append (grow : ℕ → ℕ → ℕ) {es : List PbLogEntry}
    (hes : ∀ k e, es[k]? = some e → e.index.toNat = l.lastIndex + 1 + k) :
    (s.append grow (es.map some)).Mirrors (l.append (es.map PbLogEntry.toEntry)) := by
  refine ⟨h.wf.append fun k e he => ?_, ?_⟩
  · rw [List.getElem?_map] at he
    obtain ⟨p, hp, rfl⟩ := Option.map_eq_some_iff.mp he
    exact hes k p hp
  · obtain ⟨ps, hs, hl⟩ := h.same
    refine ⟨ps ++ es, ?_, ?_⟩
    · rw [SliceLog.append, GoSlice.toList_append, hs, List.map_append]
    · rw [List.map_append, hl]
      rfl

/-- Up to the end of the log, what is cut off is what `s[:n]` leaves out. -/
theorem truncateFrom (hi : i.toNat ≤ l.lastIndex + 1) :
    ∃ s', s.truncateFrom i = .ok s' ∧ s'.Mirrors (l.truncateFrom i.toNat) := by
  obtain ⟨f, hf, hfn⟩ := h.firstIndex
  have hlast := h.wf.lastIndex
  have hlen := h.len
  obtain ⟨es, hs, hl⟩ := h.same
  obtain ⟨t, ht, htl⟩ := GoSlice.upTo_of_le (s := s.entries)
    (show max (i.toNat - l.firstIndex) 1 ≤ s.entries.len by omega)
  refine ⟨⟨t⟩, ?_, h.wf.truncateFrom _, es.take (max (i.toNat - l.firstIndex) 1), ?_, ?_⟩
  · simp only [SliceLog.truncateFrom, hf, bind, Except.bind, pure, Except.pure,
      SliceLog.kept hfn, ht, SliceLog.checked]
  · rw [htl, hs, List.map_take]
  · rw [List.map_take, hl]
    have hpos : max (i.toNat - l.firstIndex) 1 = (max (i.toNat - l.firstIndex) 1 - 1) + 1 := by
      omega
    rw [hpos, RaftLog.entries, List.take_succ_cons, RaftLog.truncateFrom, RaftLog.entries]
    congr 2
    split <;> omega

theorem compactTo (grow : ℕ → ℕ → ℕ) (index term : UInt64) :
    ∃ s', s.compactTo grow index term = .ok s' ∧
      s'.Mirrors (l.compactTo index.toNat term.toNat) := by
  obtain ⟨f, hf, hfn⟩ := h.firstIndex
  obtain ⟨m, hm, hmn⟩ := h.lastIndex
  have hlast := h.wf.lastIndex
  have hwf := h.wf.compactTo_wf index.toNat term.toNat
  simp only [SliceLog.compactTo, hf, hm, bind, Except.bind, pure, Except.pure,
    UInt64.lt_iff_toNat_lt, UInt64.le_iff_toNat_le, hfn, hmn]
  by_cases h1 : index.toNat ≤ l.firstIndex
  · rw [if_pos h1, RaftLog.compactTo, if_pos h1]
    exact ⟨s, rfl, h⟩
  rw [if_neg h1]
  by_cases h2 : index.toNat < l.lastIndex
  · rw [if_pos h2]
    have hnext : (index - f + 1).toNat = index.toNat - l.firstIndex + 1 := by
      have := m.toNat_lt
      rw [UInt64.toNat_add, SliceLog.offset hfn (by omega), UInt64.toNat_one,
        Nat.mod_eq_of_lt (by omega)]
    obtain ⟨t, ps, ht, htl, hps⟩ := h.after (n := index.toNat - l.firstIndex + 1) (by omega)
    rw [hnext, ht]
    refine ⟨_, rfl, hwf, ⟨index, term, []⟩ :: ps, ?_, ?_⟩
    · simp [htl]
    · rw [List.map_cons, hps, RaftLog.compactTo, if_neg h1, if_pos h2]
      rfl
  · rw [if_neg h2]
    refine ⟨_, rfl, hwf, [⟨index, term, []⟩], GoSlice.toList_lit _, ?_⟩
    rw [RaftLog.compactTo, if_neg h1, if_neg h2]
    rfl

end SliceLog.Mirrors

theorem SliceLog.newRaftLog_mirrors (i t : UInt64) :
    (SliceLog.newRaftLog i t).Mirrors (RaftLog.newRaftLog i.toNat t.toNat) :=
  ⟨RaftLog.newRaftLog_wf _ _, [⟨i, t, []⟩], GoSlice.toList_lit _, rfl⟩

/-! ## The slice shows the abstract log -/

/-- Every lookup answers from `a`, in and out of range, and none of them panics; `entry` is asked
for held indexes only. -/
structure SliceLog.Shows (s : SliceLog) (a : AbstractLog) : Prop where
  index : ∀ k < s.entries.len, (s.deref k).map (·.index.toNat) = .ok (a.first + k)
  firstIndex : s.firstIndex.map UInt64.toNat = .ok a.first
  lastIndex : s.lastIndex.map UInt64.toNat = .ok a.lastIndex
  lastTerm : s.lastTerm.map UInt64.toNat = .ok a.lastTerm
  term : ∀ i, (s.term i).map (Option.map UInt64.toNat) = .ok (a.term i.toNat)
  entry : ∀ i : UInt64, a.first < i.toNat → i.toNat ≤ a.lastIndex →
    ∃ p, s.entry i = .ok (some p) ∧ a.entry i.toNat = some p.toEntry
  suffix : ∀ i, ∃ ps : List PbLogEntry, s.suffix i = .ok (ps.map some) ∧
    ps.map PbLogEntry.toEntry = a.suffix i.toNat
  allEntries : ∃ ps : List PbLogEntry, s.allEntries = .ok (ps.map some) ∧
    ps.map PbLogEntry.toEntry = a.allEntries

def SliceLog.Refines (s : SliceLog) (a : AbstractLog) : Prop := ∃ l, s.Mirrors l ∧ l.Stands a

theorem SliceLog.Refines.shows {s : SliceLog} {a : AbstractLog} (h : s.Refines a) : s.Shows a := by
  obtain ⟨l, hs, ha⟩ := h
  refine ⟨fun k hk => ?_, ?_, ?_, ?_, fun i => ?_, fun i h1 h2 => ?_, fun i => ?_, ?_⟩
  · rw [hs.len] at hk
    obtain ⟨e, he⟩ : ∃ e, l.entries[k]? = some e :=
      ⟨_, List.getElem?_eq_getElem (by simpa [RaftLog.entries] using hk)⟩
    obtain ⟨p, hp, rfl⟩ := hs.deref he
    rw [hp, ha.first]
    cases k with
    | zero => exact congrArg (fun e => Except.ok (LogEntry.index e)) (Option.some.inj he).symm
    | succ k =>
      have hidx : p.index.toNat = l.firstIndex + 1 + k := hs.wf k _ he
      exact congrArg Except.ok (hidx.trans (by omega))
  · obtain ⟨f, hf, hfn⟩ := hs.firstIndex
    rw [hf, ha.first, ← hfn]
    rfl
  · obtain ⟨m, hm, hmn⟩ := hs.lastIndex
    rw [hm, ha.lastIndex, ← hmn]
    rfl
  · obtain ⟨t, ht, htn⟩ := hs.lastTerm
    rw [ht, ha.lastTerm, ← htn]
    rfl
  · rw [ha.term, hs.term]
  · rw [ha.first] at h1
    rw [ha.lastIndex] at h2
    rw [ha.entry h1]
    exact hs.entry h1 h2
  · rw [ha.suffix]
    exact hs.suffix i
  · rw [ha.allEntries]
    exact hs.allEntries

/-! ## Sequences of calls -/

inductive LogOp
  | append (entries : List PbLogEntry)
  | truncateFrom (i : UInt64)
  | compactTo (index term : UInt64)
deriving DecidableEq, Repr

/-- What is appended starts right after `last` and is consecutive. -/
def LogOp.Follows (last : ℕ) : LogOp → Prop
  | .append es => ∀ k e, es[k]? = some e → e.index.toNat = last + 1 + k
  | _ => True

/-- A truncation starts at a held index, at a compacted one or right after `last`. -/
def LogOp.Within (last : ℕ) : LogOp → Prop
  | .truncateFrom i => i.toNat ≤ last + 1
  | _ => True

def SliceLog.apply (grow : ℕ → ℕ → ℕ) (s : SliceLog) : LogOp → Except Panic SliceLog
  | .append es => .ok (s.append grow (es.map some))
  | .truncateFrom i => s.truncateFrom i
  | .compactTo index term => s.compactTo grow index term

def SliceLog.next (grow : ℕ → ℕ → ℕ) (s : SliceLog) (op : LogOp) : Option SliceLog :=
  (s.apply grow op).toOption

def AbstractLog.next (a : AbstractLog) : LogOp → Option AbstractLog
  | .append es => some (a.append (es.map PbLogEntry.toEntry))
  | .truncateFrom i => some (a.truncateFrom i.toNat)
  | .compactTo index term => some (a.compactTo index.toNat term.toNat)

section Runs

variable {grow : ℕ → ℕ → ℕ} {s : SliceLog} {a : AbstractLog} {op : LogOp}

theorem SliceLog.Refines.step (grow : ℕ → ℕ → ℕ) (h : s.Refines a) (hf : op.Follows a.lastIndex)
    (hw : op.Within a.lastIndex) :
    ∃ s' a', s.next grow op = some s' ∧ a.next op = some a' ∧ s'.Refines a' := by
  obtain ⟨l, hs, ha⟩ := h
  rw [ha.lastIndex] at hf hw
  cases op with
  | append es =>
    refine ⟨_, _, rfl, rfl, _, hs.append grow hf, ha.append fun k e he => ?_⟩
    rw [List.getElem?_map] at he
    obtain ⟨p, hp, rfl⟩ := Option.map_eq_some_iff.mp he
    exact hf k p hp
  | truncateFrom i =>
    obtain ⟨s', hs', hm⟩ := hs.truncateFrom hw
    exact ⟨s', _, congrArg Except.toOption hs', rfl, _, hm, ha.truncateFrom _⟩
  | compactTo index term =>
    obtain ⟨s', hs', hm⟩ := hs.compactTo grow index term
    exact ⟨s', _, congrArg Except.toOption hs', rfl, _, hm, ha.compactTo _ _⟩

/-- Cut beyond its end, the slice gets longer than the log it shows. -/
theorem SliceLog.Refines.within (h : s.Refines a) {s' : SliceLog} {a' : AbstractLog}
    (hs' : s.next grow op = some s') (ha' : a.next op = some a') (hshows : s'.Shows a') :
    op.Within a.lastIndex := by
  cases op with
  | append es => trivial
  | compactTo index term => trivial
  | truncateFrom i =>
    obtain ⟨l, hs, ha⟩ := h
    obtain rfl := Option.some.inj ha'
    obtain ⟨f, hf, hfn⟩ := hs.firstIndex
    have hlast := hs.wf.lastIndex
    have hst := ha.truncateFrom i.toNat
    by_contra hout
    replace hout : l.lastIndex + 1 < i.toNat := by
      simpa [LogOp.Within, ha.lastIndex] using hout
    have hlen : s'.entries.len = i.toNat - l.firstIndex := by
      simp only [SliceLog.next, SliceLog.apply, SliceLog.truncateFrom, hf, bind, Except.bind, pure,
        Except.pure, SliceLog.kept hfn] at hs'
      cases hu : s.entries.upTo (max (i.toNat - l.firstIndex) 1) with
      | none => simp [hu, SliceLog.checked, Except.toOption] at hs'
      | some t =>
        simp only [hu, SliceLog.checked, Except.toOption, Option.some.injEq] at hs'
        rw [← hs', GoSlice.upTo_len hu]
        omega
    -- its last entry is at `i - 1`, which the log does not reach
    have hidx := hshows.index (s'.entries.len - 1) (by omega)
    have hl := hshows.lastIndex
    rw [SliceLog.lastIndex] at hl
    cases hd : s'.deref (s'.entries.len - 1) with
    | error e => cases hd ▸ hidx
    | ok p =>
      rw [hd] at hidx hl
      replace hidx : p.index.toNat = (a.truncateFrom i.toNat).first + (s'.entries.len - 1) :=
        Except.ok.inj hidx
      replace hl : p.index.toNat = (a.truncateFrom i.toNat).lastIndex := Except.ok.inj hl
      rw [hst.lastIndex, hst.wf.lastIndex, RaftLog.truncateFrom_firstIndex,
        RaftLog.truncateFrom_reals (by omega), List.length_take] at hl
      rw [hst.first, RaftLog.truncateFrom_firstIndex] at hidx
      omega

theorem SliceLog.Refines.run (h : s.Refines a) {ops : List LogOp}
    (hf : Along AbstractLog.next (fun a op => op.Follows a.lastIndex) a ops) :
    (∀ ops', ops' <+: ops → ∃ s' a', exec (SliceLog.next grow) s ops' = some s' ∧
      exec AbstractLog.next a ops' = some a' ∧ s'.Shows a') ↔
    Along AbstractLog.next (fun a op => op.Within a.lastIndex) a ops := by
  induction ops generalizing s a with
  | nil =>
    refine iff_of_true (fun ops' hp => ?_) trivial
    obtain rfl := List.prefix_nil.mp hp
    exact ⟨s, a, rfl, rfl, h.shows⟩
  | cons op ops ih =>
    obtain ⟨hop, hrest⟩ := hf
    constructor
    · intro hall
      have hw : op.Within a.lastIndex := by
        obtain ⟨s', a', hs', ha', hshows⟩ := hall [op] ⟨ops, rfl⟩
        exact h.within (by simpa [exec] using hs') (by simpa [exec] using ha') hshows
      obtain ⟨s', a', hs', ha', hr⟩ := h.step grow hop hw
      refine ⟨hw, ?_⟩
      simp only [ha'] at hrest ⊢
      refine (ih hr hrest).mp fun ops' hp => ?_
      obtain ⟨s'', a'', hs'', ha'', hshows⟩ := hall (op :: ops') ((List.prefix_cons_inj op).mpr hp)
      rw [exec, hs'] at hs''
      rw [exec, ha'] at ha''
      exact ⟨s'', a'', hs'', ha'', hshows⟩
    · rintro ⟨hw, hwrest⟩ ops' hp
      obtain ⟨s', a', hs', ha', hr⟩ := h.step grow hop hw
      simp only [ha'] at hrest hwrest
      cases ops' with
      | nil => exact ⟨s, a, rfl, rfl, h.shows⟩
      | cons op' ops' =>
        obtain ⟨rfl, hp'⟩ := List.cons_prefix_cons.mp hp
        obtain ⟨s'', a'', hs'', ha'', hshows⟩ := (ih hr hrest).mpr hwrest ops' hp'
        refine ⟨s'', a'', ?_, ?_, hshows⟩
        · rw [exec, hs']
          exact hs''
        · rw [exec, ha']
          exact ha''

/-- Whatever appends, truncations and compactions are made on a new log, the slice shows the
abstract log all along exactly if no truncation starts beyond the end. -/
theorem slice_log_refines (grow : ℕ → ℕ → ℕ) (i t : UInt64) (ops : List LogOp)
    (hf : Along AbstractLog.next (fun a op => op.Follows a.lastIndex) (.new i.toNat t.toNat) ops) :
    (∀ ops', ops' <+: ops → ∃ s a, exec (SliceLog.next grow) (.newRaftLog i t) ops' = some s ∧
      exec AbstractLog.next (.new i.toNat t.toNat) ops' = some a ∧ s.Shows a) ↔
    Along AbstractLog.next (fun a op => op.Within a.lastIndex) (.new i.toNat t.toNat) ops :=
  SliceLog.Refines.run ⟨_, SliceLog.newRaftLog_mirrors i t, RaftLog.newRaftLog_stands _ _⟩ hf

end Runs

instance (last : ℕ) : (op : LogOp) → Decidable (op.Follows last)
  | .append es =>
    decidable_of_iff (∀ k : Fin es.length, (es.get k).index.toNat = last + 1 + k) <| by
      constructor
      · intro h k e he
        obtain ⟨hk, rfl⟩ := List.getElem?_eq_some_iff.mp he
        exact h ⟨k, hk⟩
      · intro h k
        exact h k _ (List.getElem?_eq_getElem k.isLt)
  | .truncateFrom _ => isTrue trivial
  | .compactTo _ _ => isTrue trivial

instance (last : ℕ) : (op : LogOp) → Decidable (op.Within last)
  | .append _ => isTrue trivial
  | .truncateFrom i => inferInstanceAs (Decidable (i.toNat ≤ last + 1))
  | .compactTo _ _ => isTrue trivial

/-- Three entries, a conflict at 2, a snapshot of the first entry and one past the end. -/
def mixedOps : List LogOp :=
  [.append [⟨1, 1, []⟩, ⟨2, 1, []⟩, ⟨3, 1, []⟩], .truncateFrom 2, .append [⟨2, 2, []⟩, ⟨3, 2, []⟩],
    .compactTo 1 1, .truncateFrom 0, .compactTo 9 4, .append [⟨10, 4, []⟩]]

theorem slice_log_refines_mixed :
    Along AbstractLog.next (fun a op => op.Follows a.lastIndex) (.new 0 0) mixedOps ∧
    ∀ ops', ops' <+: mixedOps → ∃ s a,
      exec (SliceLog.next fun _ _ => 0) (.newRaftLog 0 0) ops' = some s ∧
      exec AbstractLog.next (.new 0 0) ops' = some a ∧ s.Shows a :=
  have hf : Along AbstractLog.next (fun a op => op.Follows a.lastIndex) (.new 0 0) mixedOps := by
    decide
  ⟨hf, (slice_log_refines (fun _ _ => 0) 0 0 mixedOps hf).mpr (by decide)⟩

/-- Two entries that were cut off come back, with the next truncation and no append. -/
def resurrectingOps : List LogOp :=
  [.append [⟨1, 1, []⟩, ⟨2, 1, []⟩, ⟨3, 1, []⟩], .truncateFrom 1, .truncateFrom 3]

theorem truncation_resurrects :
    Along AbstractLog.next (fun a op => op.Follows a.lastIndex) (.new 0 0) resurrectingOps ∧
    ((exec (SliceLog.next fun _ _ => 0) (.newRaftLog 0 0) resurrectingOps).map fun s =>
      (s.lastIndex.toOption, s.allEntries.toOption)) =
        some (some 2, some [some ⟨1, 1, []⟩, some ⟨2, 1, []⟩]) ∧
    ((exec AbstractLog.next (.new 0 0) resurrectingOps).map fun a =>
      (a.lastIndex, a.allEntries)) = some (0, []) ∧
    (SliceLog.newRaftLog 0 0).truncateFrom 2 = .error .outOfRange := by
  decide

end KMC
