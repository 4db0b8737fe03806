import KillMyCluster.Lib.BigEndian
import KillMyCluster.Raft.Log

/-! The commands of `internal/storage/record.go` as payloads of the log. -/

namespace KMC.Storage

/-- `OpType`; a byte other than these two is an operation that does nothing. -/
abbrev OpType := UInt8

def opPut : OpType := 1

def opDelete : OpType := 2

structure Command where
  op : OpType
  key : Bytes
  value : Bytes
deriving DecidableEq, Repr

/-- How a function ends that does not return a result: with an error, or by a slice expression
that is out of range. -/
inductive Failure
  | error (msg : String)
  | outOfRange
deriving DecidableEq, Repr

end KMC.Storage

namespace KMC

/-! ## Slices -/

section Slices

open Storage (Failure)

def byteAt (b : Bytes) (i : ℕ) : Except Failure UInt8 :=
  if i < b.length then .ok (b.getD i 0) else .error .outOfRange

def sliceFrom (b : Bytes) (i : ℕ) : Except Failure Bytes :=
  if i ≤ b.length then .ok (b.drop i) else .error .outOfRange

def slice (b : Bytes) (i j : ℕ) : Except Failure Bytes :=
  if i ≤ j ∧ j ≤ b.length then .ok ((b.drop i).take (j - i)) else .error .outOfRange

/-- `binary.BigEndian.Uint32` and `Uint64`, for `k` bytes. -/
def bigEndianAt (k : ℕ) (b : Bytes) : Except Failure ℕ :=
  if k ≤ b.length then .ok (BigEndian.read (b.take k)) else .error .outOfRange

theorem sliceFrom_ok {b : Bytes} {i : ℕ} (h : i ≤ b.length) :
    sliceFrom b i = .ok (b.drop i) := if_pos h

theorem slice_ok {b : Bytes} {i n : ℕ} (h : i + n ≤ b.length) :
    slice b i (i + n) = .ok ((b.drop i).take n) := by
  rw [slice, if_pos ⟨Nat.le_add_right i n, h⟩, Nat.add_sub_cancel_left]

theorem bigEndianAt_ok {b : Bytes} {i k : ℕ} (h : i + k ≤ b.length) :
    bigEndianAt k (b.drop i) = .ok (BigEndian.read ((b.drop i).take k)) := by
  rw [bigEndianAt, if_pos (by rw [List.length_drop]; omega)]

/-- The first word of some bytes, written again. -/
theorem put_word_append {k : ℕ} {b : Bytes} (h : k ≤ b.length) :
    BigEndian.put k (BigEndian.read (b.take k)) ++ b.drop k = b := by
  have hput := BigEndian.put_read (b.take k)
  rw [List.length_take, Nat.min_eq_left h] at hput
  rw [hput, List.take_append_drop]

end Slices

end KMC

namespace KMC.Storage

/-! ## Commands -/

def encodeCommand (c : Command) : Bytes :=
  [c.op] ++ BigEndian.put 4 c.key.length ++ c.key ++ c.value

def decodeCommand (payload : Bytes) : Except Failure Command :=
  if payload.length < 5 then
    .error (.error ("storage: command payload too short: got " ++ toString payload.length ++
      " bytes, need at least 5"))
  else
    let op := payload.headD 0
    let keyLen := BigEndian.read ((payload.drop 1).take 4)
    if payload.length - 5 < keyLen then
      .error (.error ("storage: command keyLen " ++ toString keyLen ++
        " exceeds available payload " ++ toString (payload.length - 5)))
    else
      -- the sum is a uint32
      let keyEnd := (5 + keyLen) % 2 ^ 32
      if keyEnd < 5 then .error .outOfRange
      else .ok ⟨op, (payload.drop 5).take (keyEnd - 5), payload.drop keyEnd⟩

theorem length_encodeCommand (c : Command) :
    (encodeCommand c).length = 5 + c.key.length + c.value.length := by
  simp [encodeCommand]
  omega

theorem encodeCommand_keyLen (c : Command) :
    BigEndian.read (((encodeCommand c).drop 1).take 4) = c.key.length % 2 ^ 32 := by
  rw [encodeCommand, List.append_assoc, List.append_assoc, List.singleton_append,
    List.drop_succ_cons, List.drop_zero, List.take_left' (BigEndian.length_put ..)]
  exact BigEndian.read_put_mod 4 c.key.length

theorem encodeCommand_body (c : Command) : (encodeCommand c).drop 5 = c.key ++ c.value := by
  rw [encodeCommand, List.append_assoc, List.drop_left' (by simp)]

/-- A command comes back unless the end of its key wraps. -/
theorem decodeCommand_encodeCommand_eq {c : Command} (h : c.key.length < 2 ^ 32) :
    decodeCommand (encodeCommand c) =
      if 5 + c.key.length < 2 ^ 32 then .ok c else .error .outOfRange := by
  have hlen := length_encodeCommand c
  have hread : BigEndian.read (((encodeCommand c).drop 1).take 4) = c.key.length := by
    rw [encodeCommand_keyLen, Nat.mod_eq_of_lt h]
  have hvalue : (encodeCommand c).drop (5 + c.key.length) = c.value := by
    rw [← List.drop_drop, encodeCommand_body, List.drop_left' rfl]
  simp only [decodeCommand, hread, hlen]
  rw [if_neg (by omega), if_neg (by omega)]
  by_cases hend : 5 + c.key.length < 2 ^ 32
  · rw [Nat.mod_eq_of_lt hend, if_neg (by omega), if_pos hend, hvalue, encodeCommand_body,
      Nat.add_sub_cancel_left, List.take_left' rfl]
    rfl
  · rw [if_pos (by omega), if_neg hend]

def Command.Fits (c : Command) : Prop := 5 + c.key.length + c.value.length < 2 ^ 32

theorem decodeCommand_encodeCommand {c : Command} (h : c.Fits) :
    decodeCommand (encodeCommand c) = .ok c := by
  unfold Command.Fits at h
  rw [decodeCommand_encodeCommand_eq (by omega), if_pos (by omega)]

end KMC.Storage
