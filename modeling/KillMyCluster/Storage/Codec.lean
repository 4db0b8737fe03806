import KillMyCluster.Storage.Record
import KillMyCluster.Storage.Replay

/-! The record codec of `internal/storage/record.go` with its slice expressions. The bound of the
key is checked as an `int` and used as a `uint32`, so that the sum `5 + keyLen` may wrap. It does
not for what fits into a frame, but it does for the longest keys that `encodeCommand` takes. -/

namespace KMC.Storage

variable {payload : Bytes}

def declaredKeyLen (payload : Bytes) : UInt32 :=
  UInt32.ofNat (BigEndian.read ((payload.drop 1).take 4))

/-- `decodeCommand`, where a slice may be out of range. -/
def decodeCommandAt (payload : Bytes) : Except Failure Command := do
  if payload.length < 5 then
    throw (.error ("storage: command payload too short: got " ++ toString payload.length ++
      " bytes, need at least 5"))
  let op ← byteAt payload 0
  let keyLen := UInt32.ofNat (← bigEndianAt 4 (← slice payload 1 5))
  if payload.length - 5 < keyLen.toNat then
    throw (.error ("storage: command keyLen " ++ toString keyLen.toNat ++
      " exceeds available payload " ++ toString (payload.length - 5)))
  let key ← slice payload 5 (5 + keyLen).toNat
  let value ← sliceFrom payload (5 + keyLen).toNat
  return ⟨op, key, value⟩

theorem declaredKeyLen_toNat (payload : Bytes) :
    (declaredKeyLen payload).toNat = BigEndian.read ((payload.drop 1).take 4) := by
  refine UInt32.toNat_ofNat_of_lt' ((BigEndian.read_lt _).trans_le ?_)
  calc 256 ^ ((payload.drop 1).take 4).length ≤ 256 ^ 4 :=
        Nat.pow_le_pow_right (by decide) (List.length_take_le ..)
    _ = UInt32.size := by decide

theorem add_keyLen_toNat (k : UInt32) : (5 + k).toNat = (5 + k.toNat) % 2 ^ 32 := by
  rw [UInt32.toNat_add]
  rfl

/-- The key ends inside the payload, wherever its end wraps to. -/
theorem decodeCommandAt_eq (payload : Bytes) :
    decodeCommandAt payload = decodeCommand payload := by
  unfold decodeCommandAt decodeCommand
  simp only [bind, Except.bind, pure, Except.pure, throw, throwThe, MonadExceptOf.throw]
  by_cases h5 : payload.length < 5
  · simp only [h5, if_true]
  have hop : byteAt payload 0 = .ok (payload.headD 0) := by
    rw [byteAt, if_pos (by omega)]
    cases payload <;> rfl
  have hword : bigEndianAt 4 ((payload.drop 1).take 4) =
      .ok (BigEndian.read ((payload.drop 1).take 4)) := by
    rw [bigEndianAt, if_pos (by rw [List.length_take, List.length_drop]; omega), List.take_take]
    rfl
  have hlen := declaredKeyLen_toNat payload
  unfold declaredKeyLen at hlen
  simp only [h5, if_false, hop, slice_ok (show 1 + 4 ≤ payload.length by omega), hword,
    add_keyLen_toNat, hlen]
  by_cases hkey : payload.length - 5 < BigEndian.read ((payload.drop 1).take 4)
  · rw [if_pos hkey, if_pos hkey]
  rw [if_neg hkey, if_neg hkey]
  generalize hend : (5 + BigEndian.read ((payload.drop 1).take 4)) % 2 ^ 32 = keyEnd
  have hle : keyEnd ≤ payload.length := by
    have := Nat.mod_le (5 + BigEndian.read ((payload.drop 1).take 4)) (2 ^ 32)
    omega
  by_cases hwrap : keyEnd < 5
  · rw [slice, if_neg (by omega), if_pos hwrap]
  · rw [slice, if_pos (by omega), sliceFrom_ok hle, if_neg hwrap]

/-- Whatever is accepted is the encoding of what is returned. -/
theorem encodeCommand_decodeCommand {c : Command} (h : decodeCommand payload = .ok c) :
    encodeCommand c = payload := by
  unfold decodeCommand at h
  split at h
  · cases h
  rename_i h5
  simp only at h
  split at h
  · cases h
  rename_i hkey
  split at h
  · cases h
  rename_i hwrap
  obtain rfl := Except.ok.inj h
  have hlt := BigEndian.read_lt ((payload.drop 1).take 4)
  rw [List.length_take_of_le (by rw [List.length_drop]; omega)] at hlt
  -- the end of the key is past the header, so it has not wrapped
  have hend : (5 + BigEndian.read ((payload.drop 1).take 4)) % 2 ^ 32 =
      5 + BigEndian.read ((payload.drop 1).take 4) := by
    norm_num at hlt hwrap ⊢
    omega
  rw [hend, Nat.add_sub_cancel_left]
  have hput := put_word_append (k := 4) (b := payload.drop 1) (by rw [List.length_drop]; omega)
  rw [List.drop_drop] at hput
  simp only [encodeCommand, List.append_assoc,
    List.length_take_of_le (show BigEndian.read ((payload.drop 1).take 4) ≤ (payload.drop 5).length
      by rw [List.length_drop]; omega)]
  rw [← List.drop_drop, List.take_append_drop, hput]
  cases payload with
  | nil => simp at h5
  | cons op rest => rfl

/-- In a payload that fits into a frame the end of the key does not wrap. -/
theorem keyEnd_exact (hfit : payload.length < 2 ^ 32) (h5 : 5 ≤ payload.length)
    (hkey : (declaredKeyLen payload).toNat ≤ payload.length - 5) :
    (5 + declaredKeyLen payload).toNat = 5 + (declaredKeyLen payload).toNat := by
  rw [add_keyLen_toNat, Nat.mod_eq_of_lt (by omega)]

theorem decodeCommand_inRange (hfit : payload.length < 2 ^ 32) :
    decodeCommand payload ≠ .error .outOfRange := by
  unfold decodeCommand
  split
  · exact fun h => by cases h
  simp only
  split
  · exact fun h => by cases h
  rw [Nat.mod_eq_of_lt (by omega), if_neg (by omega)]
  exact fun h => by cases h

/-- The callback of a replay gets nothing that is too long for a frame. -/
theorem Delivers.fits {file : Bytes} {ps : List Bytes} {v : ℕ} (h : Delivers file ps v) :
    ∀ p ∈ ps, p.length < 2 ^ 32 := by
  have hreplay := h (List Bytes) Empty (fun st p => st ++ [p]) []
  obtain ⟨ps', tail, -, hfit, -, -, hfold⟩ := replayWAL_ok hreplay
  have hlist : ∀ (qs st : List Bytes), qs.foldl (fun st p => st ++ [p]) st = st ++ qs := by
    intro qs
    induction qs with
    | nil => simp
    | cons q qs ih => simp [ih]
  rw [foldlM_ok, hlist, hlist] at hfold
  obtain rfl : ps' = ps := by simpa using hfold
  exact hfit

/-- A command comes back exactly if its key is shorter than `2 ^ 32 - 5` bytes. A payload of a frame
is an error or the encoding of the command it is read as, with no sum that wraps and no slice that
is out of range. -/
theorem record_codec (c : Command) (payload : Bytes) :
    (c.key.length < 2 ^ 32 →
      (decodeCommandAt (encodeCommand c) = .ok c ↔ 5 + c.key.length < 2 ^ 32)) ∧
    (payload.length < 2 ^ 32 →
      decodeCommandAt payload ≠ .error .outOfRange ∧
      (∀ c, decodeCommandAt payload = .ok c → encodeCommand c = payload) ∧
      (5 ≤ payload.length → (declaredKeyLen payload).toNat ≤ payload.length - 5 →
        (5 + declaredKeyLen payload).toNat = 5 + (declaredKeyLen payload).toNat)) ∧
    ∀ file ps v, Delivers file ps v → ∀ p ∈ ps, p.length < 2 ^ 32 := by
  refine ⟨fun hc => ?_, fun hfit => ⟨?_, fun c h => ?_, keyEnd_exact hfit⟩,
    fun file ps v => Delivers.fits⟩
  · rw [decodeCommandAt_eq, decodeCommand_encodeCommand_eq hc]
    split
    · rename_i hend
      exact iff_of_true rfl hend
    · rename_i hend
      exact iff_of_false (fun h => by cases h) hend
  · rw [decodeCommandAt_eq]
    exact decodeCommand_inRange hfit
  · rw [decodeCommandAt_eq] at h
    exact encodeCommand_decodeCommand h

/-- The key of a put may be so long that reading the record back is out of range. -/
theorem longest_key_out_of_range :
    (List.replicate (2 ^ 32 - 5) (0 : UInt8)).length < 2 ^ 32 ∧
    decodeCommandAt (encodeCommand ⟨opPut, List.replicate (2 ^ 32 - 5) 0, []⟩) =
      .error .outOfRange := by
  have hlen : (List.replicate (2 ^ 32 - 5) (0 : UInt8)).length = 2 ^ 32 - 5 :=
    List.length_replicate
  refine ⟨by omega, ?_⟩
  rw [decodeCommandAt_eq, decodeCommand_encodeCommand_eq (by simp only [hlen]; omega),
    if_neg (by simp only [hlen]; omega)]

end KMC.Storage
