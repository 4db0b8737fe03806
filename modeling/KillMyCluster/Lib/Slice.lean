import Mathlib.Data.List.Basic
import Mathlib.Data.List.TakeDrop
import Mathlib.Data.Nat.Basic
import Mathlib.Order.MinMax

/-! Slices as the Go language has them: the first elements of an array, the rest of which is spare
capacity. Slicing up to the capacity uncovers what the array still holds there. An append that
fits writes over it, one that does not moves to a longer array. -/

structure GoSlice (α : Type*) where
  array : List α
  len : ℕ
  len_le : len ≤ array.length
deriving DecidableEq

namespace GoSlice

variable {α : Type*} {s t : GoSlice α} {n : ℕ}

def toList (s : GoSlice α) : List α := s.array.take s.len

def cap (s : GoSlice α) : ℕ := s.array.length

/-- A slice literal, which has no spare capacity. -/
def lit (as : List α) : GoSlice α := ⟨as, as.length, le_rfl⟩

/-- `make` with length 0: the array is filled with the zero value. -/
def make (zero : α) (cap : ℕ) : GoSlice α := ⟨List.replicate cap zero, 0, Nat.zero_le _⟩

/-- `s[:n]`, which is checked against the capacity. -/
def upTo (s : GoSlice α) (n : ℕ) : Option (GoSlice α) :=
  if h : n ≤ s.cap then some ⟨s.array, n, h⟩ else none

/-- `s[n:]`, which is checked against the length. -/
def after (s : GoSlice α) (n : ℕ) : Option (GoSlice α) :=
  if n ≤ s.len then some ⟨s.array.drop n, s.len - n, by
    rw [List.length_drop]; exact Nat.sub_le_sub_right s.len_le n⟩
  else none

/-- `append`. How much longer a new array is than needed is up to the runtime: `grow`, given the
old capacity and the new length. -/
def append (grow : ℕ → ℕ → ℕ) (zero : α) (s : GoSlice α) (as : List α) : GoSlice α :=
  let n := s.len + as.length
  let rest :=
    if n ≤ s.cap then s.array.drop n else List.replicate (grow s.cap n) zero
  ⟨s.toList ++ as ++ rest, n, by simp [toList, n, s.len_le]⟩

@[simp] theorem length_toList (s : GoSlice α) : s.toList.length = s.len := by
  rw [toList, List.length_take, min_eq_left s.len_le]

@[simp] theorem toList_lit (as : List α) : (lit as).toList = as := List.take_length

@[simp] theorem toList_make (zero : α) (n : ℕ) : (make zero n).toList = [] := List.take_zero

@[simp] theorem toList_append (grow : ℕ → ℕ → ℕ) (zero : α) (s : GoSlice α) (as : List α) :
    (s.append grow zero as).toList = s.toList ++ as := by
  unfold toList append
  have hlen : (s.toList ++ as).length = s.len + as.length := by simp
  exact List.take_left' hlen

theorem upTo_len (h : s.upTo n = some t) : t.len = n := by
  unfold upTo at h
  split at h
  · rw [← Option.some.inj h]
  · cases h

theorem upTo_of_le (h : n ≤ s.len) : ∃ t, s.upTo n = some t ∧ t.toList = s.toList.take n := by
  refine ⟨_, dif_pos (h.trans s.len_le), ?_⟩
  simp only [toList, List.take_take, min_eq_left h]

theorem after_of_le (h : n ≤ s.len) : ∃ t, s.after n = some t ∧ t.toList = s.toList.drop n := by
  refine ⟨_, if_pos h, ?_⟩
  simp only [toList, List.drop_take]

end GoSlice
