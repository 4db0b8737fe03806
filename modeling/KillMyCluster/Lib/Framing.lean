import Mathlib.Data.List.Basic

/-! Values written one after the other as self-delimiting frames, and what is left of them in a
file that breaks off anywhere. -/

namespace Framing

variable {P B : Type*}

/-- An encoding of the values that `Fits` allows. The reader takes a whole frame off the front and
finds nothing in one that breaks off. -/
structure Code (P B : Type*) where
  put : P → List B
  get : List B → Option (P × List B)
  Fits : P → Prop
  get_nil : get [] = none
  get_put : ∀ p rest, Fits p → get (put p ++ rest) = some (p, rest)
  get_torn : ∀ p k, Fits p → k < (put p).length → get ((put p).take k) = none

namespace Code

variable (c : Code P B) {p : P} {ps : List P}

def putAll (ps : List P) : List B := ps.flatMap c.put

@[simp] theorem putAll_nil : c.putAll [] = [] := rfl

@[simp] theorem putAll_cons (p : P) (ps : List P) : c.putAll (p :: ps) = c.put p ++ c.putAll ps :=
  List.flatMap_cons

@[simp] theorem putAll_append (ps qs : List P) :
    c.putAll (ps ++ qs) = c.putAll ps ++ c.putAll qs := List.flatMap_append

/-- A file cut anywhere holds the frames that end before the cut and then nothing that can be
read. -/
theorem putAll_cut (h : ∀ p ∈ ps, c.Fits p) (k : ℕ) :
    ∃ j ≤ ps.length, ∃ tail, (c.putAll ps).take k = c.putAll (ps.take j) ++ tail ∧
      c.get tail = none ∧ ∀ i < ps.length, i < j ↔ (c.putAll (ps.take (i + 1))).length ≤ k := by
  induction ps generalizing k with
  | nil => exact ⟨0, Nat.le_refl 0, [], by simp, c.get_nil, by simp⟩
  | cons p ps ih =>
    have hlen : ∀ i, (c.putAll ((p :: ps).take (i + 1))).length =
        (c.put p).length + (c.putAll (ps.take i)).length := by
      simp
    by_cases hk : k < (c.put p).length
    · refine ⟨0, Nat.zero_le _, (c.put p).take k, ?_, c.get_torn p k (h p List.mem_cons_self) hk,
        fun i _ => ?_⟩
      · rw [putAll_cons, List.take_append_of_le_length (Nat.le_of_lt hk), List.take_zero,
          putAll_nil, List.nil_append]
      · rw [hlen]
        omega
    · obtain ⟨j, hj, tail, htake, htail, hwhole⟩ :=
        ih (fun q hq => h q (List.mem_cons_of_mem p hq)) (k - (c.put p).length)
      refine ⟨j + 1, Nat.succ_le_succ hj, tail, ?_, htail, fun i hi => ?_⟩
      · rw [putAll_cons, List.take_append, List.take_of_length_le (Nat.le_of_not_lt hk), htake,
          List.take_succ_cons, putAll_cons, List.append_assoc]
      · rw [hlen]
        cases i with
        | zero => simp [Nat.le_of_not_lt hk]
        | succ i =>
          have := hwhole i (by simpa using hi)
          omega

theorem putAll_take (h : ∀ p ∈ ps, c.Fits p) (k : ℕ) :
    ∃ j tail, (c.putAll ps).take k = c.putAll (ps.take j) ++ tail ∧ c.get tail = none := by
  obtain ⟨j, -, tail, htake, htail, -⟩ := c.putAll_cut h k
  exact ⟨j, tail, htake, htail⟩

structure Exact : Prop where
  get_sound : ∀ bs p rest, c.get bs = some (p, rest) → bs = c.put p ++ rest ∧ c.Fits p
  put_ne_nil : ∀ p, c.put p ≠ []

/-- Any bytes are some frames and then something that starts with none. -/
theorem Exact.split (h : c.Exact) (bs : List B) :
    ∃ ps tail, bs = c.putAll ps ++ tail ∧ (∀ p ∈ ps, c.Fits p) ∧ c.get tail = none := by
  induction hn : bs.length using Nat.strongRecOn generalizing bs with
  | _ n ih =>
    cases hget : c.get bs with
    | none => exact ⟨[], bs, rfl, by simp, hget⟩
    | some x =>
      obtain ⟨p, rest⟩ := x
      obtain ⟨rfl, hp⟩ := h.get_sound bs p rest hget
      have hpos := List.length_pos_of_ne_nil (h.put_ne_nil p)
      obtain ⟨ps, tail, rfl, hps, htail⟩ :=
        ih rest.length (by rw [← hn, List.length_append]; omega) rest rfl
      refine ⟨p :: ps, tail, by rw [putAll_cons, List.append_assoc], fun q hq => ?_, htail⟩
      rcases List.mem_cons.mp hq with rfl | hq
      · exact hp
      · exact hps q hq

end Code

end Framing
