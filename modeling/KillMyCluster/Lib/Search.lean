import Mathlib.Data.Nat.Basic
import Mathlib.Order.Basic

/-! Binary search for the first index a predicate holds at, as `sort.Search` of the Go
standard library computes it. -/

namespace Search

/-- The loop: `[i, j)` is still to be searched. The fuel bounds the rounds. -/
def loop (f : ℕ → Bool) : ℕ → ℕ → ℕ → ℕ
  | 0, i, _ => i
  | fuel + 1, i, j =>
    if i < j then
      let h := (i + j) / 2
      if f h then loop f fuel i h else loop f fuel (h + 1) j
    else i

def search (n : ℕ) (f : ℕ → Bool) : ℕ := loop f n 0 n

/-- Whatever the predicate, the search stops between a miss and a hit. -/
theorem loop_spec {f : ℕ → Bool} {n : ℕ} : ∀ fuel i j, j - i ≤ fuel → i ≤ j → j ≤ n →
    (i = 0 ∨ f (i - 1) = false) → (j = n ∨ f j = true) →
    loop f fuel i j ≤ n ∧ (loop f fuel i j = 0 ∨ f (loop f fuel i j - 1) = false) ∧
      (loop f fuel i j = n ∨ f (loop f fuel i j) = true) := by
  intro fuel
  induction fuel with
  | zero =>
    intro i j hf hij hn hi hj
    obtain rfl : i = j := by omega
    exact ⟨hn, hi, hj⟩
  | succ fuel ih =>
    intro i j hf hij hn hi hj
    unfold loop
    by_cases hlt : i < j
    · simp only [hlt, if_true]
      by_cases hm : f ((i + j) / 2) = true
      · simp only [hm, if_true]
        exact ih i _ (by omega) (by omega) (by omega) hi (Or.inr hm)
      · simp only [hm]
        exact ih _ j (by omega) (by omega) hn (Or.inr (by simpa using hm)) hj
    · simp only [hlt, if_false]
      obtain rfl : i = j := by omega
      exact ⟨hn, hi, hj⟩

theorem search_spec (n : ℕ) (f : ℕ → Bool) : search n f ≤ n ∧
    (search n f = 0 ∨ f (search n f - 1) = false) ∧ (search n f = n ∨ f (search n f) = true) :=
  loop_spec n 0 n (by omega) (by omega) le_rfl (Or.inl rfl) (Or.inl rfl)

section Mono

variable {n k : ℕ} {f : ℕ → Bool}
  (hmono : ∀ i j, i ≤ j → j < n → f i = true → f j = true)
include hmono

/-- Over a predicate that stays true, no hit lies below the result. -/
theorem search_le (hk : f k = true) : search n f ≤ k := by
  obtain ⟨hle, hmiss, -⟩ := search_spec n f
  by_contra hlt
  rcases hmiss with h0 | hm
  · omega
  · have := hmono k (search n f - 1) (by omega) (by omega) hk
    rw [hm] at this
    cases this

/-- And no miss above it. -/
theorem search_le_iff (hk : k < n) : search n f ≤ k ↔ f k = true := by
  refine ⟨fun hle => ?_, search_le hmono⟩
  obtain ⟨-, -, hend | hhit⟩ := search_spec n f
  · omega
  · exact hmono _ k hle hk hhit

end Mono

end Search
