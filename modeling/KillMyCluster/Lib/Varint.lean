import Mathlib.Data.Nat.Basic
import Mathlib.Tactic.Ring

/-! Numbers as bytes of seven bits each, the least significant ones first; all bytes but the last
have the high bit set. -/

namespace Varint

/-- The number in at most `k` bytes. -/
def put : ℕ → ℕ → List UInt8
  | 0, _ => []
  | k + 1, n => if n < 128 then [UInt8.ofNat n] else UInt8.ofNat (128 + n % 128) :: put k (n / 128)

/-- A number of at most `k` bytes at the front, and what comes after it. -/
def read : ℕ → List UInt8 → Option (ℕ × List UInt8)
  | 0, _ => none
  | _ + 1, [] => none
  | k + 1, b :: bs =>
    if b.toNat < 128 then some (b.toNat, bs)
    else (read k bs).map fun r => (b.toNat - 128 + 128 * r.1, r.2)

variable {k n : ℕ}

theorem put_of_lt (h : n < 128) : put (k + 1) n = [UInt8.ofNat n] := if_pos h

theorem put_of_le (h : 128 ≤ n) :
    put (k + 1) n = UInt8.ofNat (128 + n % 128) :: put k (n / 128) := if_neg (Nat.not_lt.mpr h)

theorem toNat_ofNat (h : n < 256) : (UInt8.ofNat n).toNat = n := by
  rw [UInt8.toNat_ofNat', Nat.mod_eq_of_lt h]

theorem read_put_of_lt (h : n < 128) (bs : List UInt8) :
    read (k + 1) (put (k + 1) n ++ bs) = some (n, bs) := by
  rw [put_of_lt h, List.singleton_append, read, toNat_ofNat (by omega), if_pos h]

theorem read_put (h : n < 128 ^ (k + 1)) (bs : List UInt8) :
    read (k + 1) (put (k + 1) n ++ bs) = some (n, bs) := by
  induction k generalizing n with
  | zero => exact read_put_of_lt (by omega) bs
  | succ k ih =>
    by_cases hn : n < 128
    · exact read_put_of_lt hn bs
    have hdiv : n / 128 < 128 ^ (k + 1) := Nat.div_lt_of_lt_mul (by rwa [pow_succ'] at h)
    rw [put_of_le (Nat.le_of_not_lt hn), List.cons_append, read, toNat_ofNat (by omega),
      if_neg (by omega), ih hdiv, Option.map_some, Option.some.injEq, Prod.mk.injEq]
    exact ⟨by omega, rfl⟩

theorem length_put_le (k n : ℕ) : (put k n).length ≤ k := by
  induction k generalizing n with
  | zero => exact Nat.le_refl 0
  | succ k ih =>
    rw [put]
    split
    · exact Nat.succ_le_succ (Nat.zero_le k)
    · exact Nat.succ_le_succ (ih _)

/-- What is left is shorter. -/
theorem read_shorter {bs rest : List UInt8} (h : read k bs = some (n, rest)) :
    rest.length < bs.length := by
  induction k generalizing bs n with
  | zero => cases h
  | succ k ih =>
    cases bs with
    | nil => cases h
    | cons b bs =>
      rw [read] at h
      split at h
      · cases h
        exact Nat.lt_succ_self _
      · obtain ⟨r, hr, hrest⟩ := Option.map_eq_some_iff.mp h
        cases hrest
        exact (ih hr).trans (Nat.lt_succ_self _)

end Varint
