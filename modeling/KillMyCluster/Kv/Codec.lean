import KillMyCluster.Kv.Machine
import KillMyCluster.Lib.BigEndian
import KillMyCluster.Storage.Record

/-! Commands as bytes of a log entry: `Encode` and `Decode` of `internal/kv/command.go`. Lengths are
written as 32 bits; a longer field does not come back. `Decode` is given twice: by what is left of
the payload after each field, and with the offset and the slices of the source. -/

namespace KMC

def Command.encode (cmd : Command) : Bytes :=
  [cmd.op] ++ BigEndian.put 4 cmd.clientID.length ++ cmd.clientID ++
    BigEndian.put 8 cmd.requestID.toNat ++ BigEndian.put 4 cmd.key.length ++ cmd.key ++
    BigEndian.put 4 cmd.expect.bytes.length ++ cmd.expect.bytes ++ cmd.value.bytes

/-- `Decode`. In each step `rest` is what follows the current offset. -/
def Command.decode (payload : Bytes) : Except String Command := do
  if payload.length < 1 + 4 + 8 + 4 + 4 then
    throw ("kv: command payload too short: " ++ toString payload.length ++ " bytes")
  let op := payload.headD 0
  let rest := payload.drop 1
  if rest.length < 4 then throw "kv: truncated clientLen"
  let clientLen := BigEndian.read (rest.take 4)
  let rest := rest.drop 4
  if rest.length < clientLen + 8 + 4 then throw "kv: truncated client"
  let clientID := rest.take clientLen
  let rest := rest.drop clientLen
  let requestID := UInt64.ofNat (BigEndian.read (rest.take 8))
  let rest := rest.drop 8
  if rest.length < 4 then throw "kv: truncated keyLen"
  let keyLen := BigEndian.read (rest.take 4)
  let rest := rest.drop 4
  if rest.length < keyLen + 4 then throw "kv: truncated key"
  let key := rest.take keyLen
  let rest := rest.drop keyLen
  if rest.length < 4 then throw "kv: truncated expectLen"
  let expectLen := BigEndian.read (rest.take 4)
  let rest := rest.drop 4
  if rest.length < expectLen then throw "kv: truncated expect"
  return ⟨op, clientID, requestID, key, some (rest.drop expectLen), some (rest.take expectLen)⟩

structure Command.Fits (cmd : Command) : Prop where
  client : cmd.clientID.length < 2 ^ 32
  key : cmd.key.length < 2 ^ 32
  expect : cmd.expect.bytes.length < 2 ^ 32

/-- A command read back: nil slices come back empty. -/
def Command.norm (cmd : Command) : Command :=
  { cmd with value := cmd.value.norm, expect := cmd.expect.norm }

theorem Command.decode_encode {cmd : Command} (h : cmd.Fits) :
    decode cmd.encode = .ok cmd.norm := by
  have hclient := BigEndian.read_put (show cmd.clientID.length < 256 ^ 4 from h.client)
  have hreq := BigEndian.read_put (show cmd.requestID.toNat < 256 ^ 8 from cmd.requestID.toNat_lt)
  have hkey := BigEndian.read_put (show cmd.key.length < 256 ^ 4 from h.key)
  have hexpect := BigEndian.read_put (show cmd.expect.bytes.length < 256 ^ 4 from h.expect)
  unfold decode encode
  simp only [List.cons_append, List.nil_append, List.append_assoc, List.length_cons,
    List.length_append, BigEndian.length_put, List.drop_succ_cons, List.drop_zero,
    List.drop_left', List.take_left', List.headD_eq_head?_getD, List.head?_cons, Option.getD_some,
    hclient, hreq, hkey, hexpect, UInt64.ofNat_toNat]
  -- no length check fires
  rw [if_neg (by omega), if_neg (by omega), if_neg (by omega), if_neg (by omega),
    if_neg (by omega), if_neg (by omega), if_neg (by omega)]
  rfl

/-! ## Slices -/

section Slices

open Storage (Failure)

/-- `Decode` with its offset, where a slice may be out of range. -/
def Command.decodeAt (payload : Bytes) : Except Failure Command := do
  if payload.length < 1 + 4 + 8 + 4 + 4 then
    throw (.error ("kv: command payload too short: " ++ toString payload.length ++ " bytes"))
  let off := 0
  let op ← byteAt payload off
  let off := off + 1
  if payload.length < off + 4 then throw (.error "kv: truncated clientLen")
  let clientLen ← bigEndianAt 4 (← sliceFrom payload off)
  let off := off + 4
  if payload.length < off + clientLen + 8 + 4 then throw (.error "kv: truncated client")
  let clientID ← slice payload off (off + clientLen)
  let off := off + clientLen
  let requestID ← bigEndianAt 8 (← sliceFrom payload off)
  let off := off + 8
  if payload.length < off + 4 then throw (.error "kv: truncated keyLen")
  let keyLen ← bigEndianAt 4 (← sliceFrom payload off)
  let off := off + 4
  if payload.length < off + keyLen + 4 then throw (.error "kv: truncated key")
  let key ← slice payload off (off + keyLen)
  let off := off + keyLen
  if payload.length < off + 4 then throw (.error "kv: truncated expectLen")
  let expectLen ← bigEndianAt 4 (← sliceFrom payload off)
  let off := off + 4
  if payload.length < off + expectLen then throw (.error "kv: truncated expect")
  let expect ← slice payload off (off + expectLen)
  let off := off + expectLen
  let value ← sliceFrom payload off
  return ⟨op, clientID, UInt64.ofNat requestID, key, some value, some expect⟩

theorem Command.decodeAt_eq (payload : Bytes) :
    decodeAt payload = (decode payload).mapError .error := by
  unfold decodeAt decode
  simp only [bind, Except.bind, pure, Except.pure, throw, throwThe, MonadExceptOf.throw,
    List.drop_drop, List.length_drop, Nat.zero_add, Nat.reduceAdd]
  by_cases h1 : payload.length < 21
  · simp only [h1, if_true]
    rfl
  have hop : byteAt payload 0 = .ok (payload.headD 0) := by
    rw [byteAt, if_pos (by omega)]
    cases payload <;> rfl
  simp only [h1, if_false, hop, sliceFrom_ok (show 1 ≤ payload.length by omega),
    bigEndianAt_ok (show 1 + 4 ≤ payload.length by omega)]
  generalize BigEndian.read ((payload.drop 1).take 4) = clientLen
  rw [if_neg (show ¬ payload.length < 5 by omega), if_neg (show ¬ payload.length - 1 < 4 by omega)]
  by_cases h2 : payload.length < 5 + clientLen + 8 + 4
  · rw [if_pos h2, if_pos (by omega)]
    rfl
  rw [if_neg h2, if_neg (show ¬ payload.length - 5 < clientLen + 8 + 4 by omega)]
  simp only [slice_ok (show 5 + clientLen ≤ payload.length by omega),
    sliceFrom_ok (show 5 + clientLen ≤ payload.length by omega),
    bigEndianAt_ok (show 5 + clientLen + 8 ≤ payload.length by omega), h2, if_false,
    sliceFrom_ok (show 5 + clientLen + 8 ≤ payload.length by omega),
    bigEndianAt_ok (show 5 + clientLen + 8 + 4 ≤ payload.length by omega)]
  generalize BigEndian.read ((payload.drop (5 + clientLen + 8)).take 4) = keyLen
  rw [if_neg (show ¬ payload.length - (5 + clientLen + 8) < 4 by omega)]
  generalize hoff : 5 + clientLen + 8 + 4 = off at h2 ⊢
  by_cases h3 : payload.length < off + keyLen + 4
  · rw [if_pos h3, if_pos (by omega)]
    rfl
  rw [if_neg h3, if_neg (show ¬ payload.length - off < keyLen + 4 by omega),
    if_neg (show ¬ payload.length - (off + keyLen) < 4 by omega)]
  simp only [slice_ok (show off + keyLen ≤ payload.length by omega), h3, if_false,
    sliceFrom_ok (show off + keyLen ≤ payload.length by omega),
    bigEndianAt_ok (show off + keyLen + 4 ≤ payload.length by omega)]
  generalize BigEndian.read ((payload.drop (off + keyLen)).take 4) = expectLen
  by_cases h4 : payload.length < off + keyLen + 4 + expectLen
  · rw [if_pos h4, if_pos (by omega)]
    rfl
  rw [if_neg h4, if_neg (show ¬ payload.length - (off + keyLen + 4) < expectLen by omega)]
  simp only [slice_ok (show off + keyLen + 4 + expectLen ≤ payload.length by omega),
    sliceFrom_ok (show off + keyLen + 4 + expectLen ≤ payload.length by omega)]
  rfl

theorem Command.encode_decode {payload : Bytes} {cmd : Command}
    (h : decode payload = .ok cmd) : cmd.encode = payload := by
  unfold decode at h
  simp only [bind, Except.bind, pure, Except.pure, throw, throwThe, MonadExceptOf.throw] at h
  repeat' split at h
  all_goals try cases h
  rename_i h1 h2 h3 h4 h5 h6 h7
  -- what follows the operation, the client, the request and the key
  set r₁ := payload.drop 1
  set clientLen := BigEndian.read (r₁.take 4)
  set r₂ := r₁.drop 4 with hr₂
  set r₃ := r₂.drop clientLen with hr₃
  set r₄ := r₃.drop 8 with hr₄
  set keyLen := BigEndian.read (r₄.take 4)
  set r₅ := r₄.drop 4 with hr₅
  set r₆ := r₅.drop keyLen with hr₆
  set expectLen := BigEndian.read (r₆.take 4)
  set r₇ := r₆.drop 4 with hr₇
  have hl₃ : r₃.length = r₂.length - clientLen := by rw [hr₃, List.length_drop]
  have hreq : BigEndian.read (r₃.take 8) < 2 ^ 64 := by
    refine (BigEndian.read_lt _).trans_eq ?_
    rw [List.length_take, Nat.min_eq_left (by omega)]
    norm_num
  simp only [encode, Slice.bytes, Option.getD_some, List.append_assoc,
    List.length_take_of_le (show clientLen ≤ r₂.length by omega),
    List.length_take_of_le (show keyLen ≤ r₅.length by omega),
    List.length_take_of_le (show expectLen ≤ r₇.length by omega),
    UInt64.toNat_ofNat_of_lt' hreq]
  rw [List.take_append_drop, put_word_append (show 4 ≤ r₆.length by omega), hr₆,
    List.take_append_drop, put_word_append (show 4 ≤ r₄.length by omega), hr₄,
    put_word_append (show 8 ≤ r₃.length by omega), hr₃, List.take_append_drop,
    put_word_append (show 4 ≤ r₁.length by omega)]
  cases payload with
  | nil => simp at h1
  | cons op rest => rfl

/-- Commands come back from their bytes, up to nil and empty slices; bytes that are accepted are
those of the command they are read as; and no slice is out of range. -/
theorem codec_exact :
    (∀ cmd : Command, cmd.Fits → Command.decodeAt cmd.encode = .ok cmd.norm) ∧
    (∀ payload cmd, Command.decodeAt payload = .ok cmd → cmd.encode = payload) ∧
    ∀ payload, Command.decodeAt payload ≠ .error .outOfRange := by
  refine ⟨fun cmd h => ?_, fun payload cmd h => ?_, fun payload h => ?_⟩
  · rw [Command.decodeAt_eq, Command.decode_encode h]
    rfl
  · rw [Command.decodeAt_eq] at h
    cases hd : Command.decode payload with
    | error err => rw [hd] at h; cases h
    | ok cmd' =>
      rw [hd] at h
      obtain rfl := Except.ok.inj h
      exact Command.encode_decode hd
  · rw [Command.decodeAt_eq] at h
    cases hd : Command.decode payload <;> rw [hd] at h <;> cases h

end Slices

end KMC
