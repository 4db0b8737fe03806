import Mathlib.Data.Nat.Basic
import Mathlib.Tactic.Ring

/-! Numbers of a fixed width as bytes, the most significant one first. -/

namespace BigEndian

/-- The last `k` bytes of `n`. -/
def put : ℕ → ℕ → List UInt8
  | 0, _ => []
  | k + 1, n => UInt8.ofNat (n / 256 ^ k) :: put k n

def read : List UInt8 → ℕ
  | [] => 0
  | b :: bs => b.toNat * 256 ^ bs.length + read bs

@[simp] theorem length_put (k n : ℕ) : (put k n).length = k := by
  induction k with
  | zero => rfl
  | succ k ih => simp [put, ih]

theorem read_lt (bs : List UInt8) : read bs < 256 ^ bs.length := by
  induction bs with
  | nil => simp [read]
  | cons b bs ih =>
    have hb : b.toNat ≤ 255 := Nat.le_of_lt_succ b.toNat_lt
    calc read (b :: bs) = b.toNat * 256 ^ bs.length + read bs := rfl
      _ < b.toNat * 256 ^ bs.length + 256 ^ bs.length := by omega
      _ = (b.toNat + 1) * 256 ^ bs.length := by ring
      _ ≤ 256 * 256 ^ bs.length := Nat.mul_le_mul_right _ (by omega)
      _ = 256 ^ (b :: bs).length := by rw [List.length_cons, pow_succ]; ring

/-- A number is cut to the width it is written in. -/
theorem read_put_mod (k n : ℕ) : read (put k n) = n % 256 ^ k := by
  induction k with
  | zero => simp [put, read, Nat.mod_one]
  | succ k ih =>
    have hb : (UInt8.ofNat (n / 256 ^ k)).toNat = n / 256 ^ k % 256 := by simp
    rw [put, read, length_put, ih, hb, Nat.mod_pow_succ]
    ring

theorem put_mod (k n : ℕ) : put k (n % 256 ^ k) = put k n := by
  induction k generalizing n with
  | zero => rfl
  | succ k ih =>
    have hhead : UInt8.ofNat (n % 256 ^ (k + 1) / 256 ^ k) = UInt8.ofNat (n / 256 ^ k) := by
      rw [pow_succ, Nat.mod_mul_right_div_self]
      exact UInt8.toNat_inj.mp (by simp)
    have htail : n % 256 ^ (k + 1) % 256 ^ k = n % 256 ^ k :=
      Nat.mod_mod_of_dvd n (pow_dvd_pow 256 k.le_succ)
    rw [put, put, hhead, ← ih (n % 256 ^ (k + 1)), htail, ih]

/-- Bytes are what their number is written as. -/
theorem put_read (bs : List UInt8) : put bs.length (read bs) = bs := by
  induction bs with
  | nil => rfl
  | cons b bs ih =>
    have hlt := read_lt bs
    have hpos : 0 < 256 ^ bs.length := Nat.pow_pos (by decide)
    have hhead : (b.toNat * 256 ^ bs.length + read bs) / 256 ^ bs.length = b.toNat := by
      rw [Nat.mul_comm, Nat.mul_add_div hpos, Nat.div_eq_of_lt hlt, Nat.add_zero]
    have htail : (b.toNat * 256 ^ bs.length + read bs) % 256 ^ bs.length = read bs := by
      rw [Nat.mul_comm, Nat.mul_add_mod, Nat.mod_eq_of_lt hlt]
    rw [List.length_cons, put, read, hhead, ← put_mod, htail, ih, UInt8.ofNat_toNat]

theorem read_put {k n : ℕ} (h : n < 256 ^ k) : read (put k n) = n := by
  rw [read_put_mod, Nat.mod_eq_of_lt h]

end BigEndian
