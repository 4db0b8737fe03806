import KillMyCluster.Lib.Varint
import KillMyCluster.Raft.Files

/-! The wire format of the `LogEntry` in `proto/raft.proto`: a tag and a value for each field that
is not zero. -/

namespace KMC

open Storage

namespace Wire

/-- The tags of `index` and `term`, which are varints, and of `data`, which has its length in front:
eight times the number of the field, and the type of what follows. -/
def tagIndex : UInt8 := 0x08

def tagTerm : UInt8 := 0x10

def tagData : UInt8 := 0x1a

def putNumber (tag : UInt8) (n : ℕ) : Bytes := if n = 0 then [] else tag :: Varint.put 10 n

def putBytes (tag : UInt8) (bs : Bytes) : Bytes :=
  if bs = [] then [] else tag :: (Varint.put 10 bs.length ++ bs)

def marshal (e : LogEntry) : Bytes :=
  putNumber tagIndex e.index ++ (putNumber tagTerm e.term ++ putBytes tagData e.data)

def consumeVarint (bs : Bytes) : Option (ℕ × Bytes) :=
  (Varint.read 10 bs).filter fun r => r.1 < 2 ^ 64

def consumeBytes (k : ℕ) (bs : Bytes) : Option (Bytes × Bytes) :=
  if k ≤ bs.length then some (bs.take k, bs.drop k) else none

inductive Value
  | number (n : ℕ)
  | bytes (bs : Bytes)
  | fixed (bs : Bytes)

/-- The value of a field, by its type. Groups, which no message of this syntax has, are refused. -/
def consumeValue (type : ℕ) (bs : Bytes) : Option (Value × Bytes) :=
  match type with
  | 0 => (consumeVarint bs).map fun r => (.number r.1, r.2)
  | 1 => (consumeBytes 8 bs).map fun r => (.fixed r.1, r.2)
  | 2 => (consumeVarint bs).bind fun r => (consumeBytes r.1 r.2).map fun r => (.bytes r.1, r.2)
  | 5 => (consumeBytes 4 bs).map fun r => (.fixed r.1, r.2)
  | _ => none

def consumeField (bs : Bytes) : Option (ℕ × Value × Bytes) := do
  let (tag, rest) ← consumeVarint bs
  guard (0 < tag / 8 ∧ tag / 8 < 2 ^ 29)
  let (v, rest) ← consumeValue (tag % 8) rest
  return (tag / 8, v, rest)

/-- A field that is not known by its number and type is passed over. -/
def setField (e : LogEntry) : ℕ → Value → LogEntry
  | 1, .number n => { e with index := n }
  | 2, .number n => { e with term := n }
  | 3, .bytes bs => { e with data := bs }
  | _, _ => e

variable {bs rest : Bytes} {i n type : ℕ} {v : Value} {e : LogEntry} {tag : UInt8}

theorem consumeVarint_shorter (h : consumeVarint bs = some (n, rest)) :
    rest.length < bs.length :=
  Varint.read_shorter (Option.filter_eq_some_iff.mp h).1

theorem consumeBytes_le {k : ℕ} {b : Bytes} (h : consumeBytes k bs = some (b, rest)) :
    rest.length ≤ bs.length := by
  unfold consumeBytes at h
  split at h
  · cases h
    exact (List.drop_suffix k bs).length_le
  · cases h

theorem consumeValue_le (h : consumeValue type bs = some (v, rest)) :
    rest.length ≤ bs.length := by
  unfold consumeValue at h
  split at h
  · obtain ⟨x, hx, h⟩ := Option.map_eq_some_iff.mp h
    cases h
    exact (consumeVarint_shorter hx).le
  · obtain ⟨x, hx, h⟩ := Option.map_eq_some_iff.mp h
    cases h
    exact consumeBytes_le hx
  · obtain ⟨x, hx, h⟩ := Option.bind_eq_some_iff.mp h
    obtain ⟨y, hy, h⟩ := Option.map_eq_some_iff.mp h
    cases h
    exact (consumeBytes_le hy).trans (consumeVarint_shorter hx).le
  · obtain ⟨x, hx, h⟩ := Option.map_eq_some_iff.mp h
    cases h
    exact consumeBytes_le hx
  · cases h

theorem consumeField_shorter (h : consumeField bs = some (i, v, rest)) :
    rest.length < bs.length := by
  obtain ⟨x, hx, h⟩ := Option.bind_eq_some_iff.mp h
  obtain ⟨-, -, h⟩ := Option.bind_eq_some_iff.mp h
  obtain ⟨y, hy, h⟩ := Option.bind_eq_some_iff.mp h
  cases h
  exact (consumeValue_le hy).trans_lt (consumeVarint_shorter hx)

def unmarshalFields (e : LogEntry) (bs : Bytes) : Option LogEntry :=
  if bs = [] then some e
  else
    match _h : consumeField bs with
    | some (num, v, rest) => unmarshalFields (setField e num v) rest
    | none => none
termination_by bs.length
decreasing_by exact consumeField_shorter _h

def unmarshal (bs : Bytes) : Except String LogEntry :=
  match unmarshalFields ⟨0, 0, []⟩ bs with
  | some e => .ok e
  | none => .error "proto: cannot parse invalid wire-format data"

/-! ## Round trip -/

theorem unmarshalFields_nil (e : LogEntry) : unmarshalFields e [] = some e := by
  rw [unmarshalFields, if_pos rfl]

theorem unmarshalFields_cons (h : consumeField bs = some (i, v, rest)) :
    unmarshalFields e bs = unmarshalFields (setField e i v) rest := by
  have hne : bs ≠ [] := by
    rintro rfl
    cases h
  rw [unmarshalFields, if_neg hne]
  split
  · rename_i h'
    cases h.symm.trans h'
    rfl
  · rename_i h'
    cases h.symm.trans h'

theorem consumeVarint_put (h : n < 2 ^ 64) (rest : Bytes) :
    consumeVarint (Varint.put 10 n ++ rest) = some (n, rest) := by
  rw [consumeVarint, Varint.read_put (by omega), Option.filter_some, if_pos (by simpa)]

/-- The tag of a field with a number below 16 is one byte. -/
theorem consumeField_cons (htag : tag.toNat = 8 * i + type) (hi : 0 < i) (hlt : i < 16)
    (htype : type < 8) (hv : consumeValue type bs = some (v, rest)) :
    consumeField (tag :: bs) = some (i, v, rest) := by
  have hread : consumeVarint (tag :: bs) = some (tag.toNat, bs) := by
    rw [consumeVarint, Varint.read, if_pos (by omega), Option.filter_some,
      if_pos (by simp only [decide_eq_true_eq]; omega)]
  have hnum : tag.toNat / 8 = i := by omega
  have hmod : tag.toNat % 8 = type := by omega
  have hguard : 0 < i ∧ i < 2 ^ 29 := by omega
  simp only [consumeField, hread, Option.bind_eq_bind, Option.bind_some, hnum, hmod, hv, guard,
    if_pos hguard, Option.pure_def]

theorem unmarshalFields_number (htag : tag.toNat = 8 * i + 0) (hi : 0 < i) (hlt : i < 16)
    (hset : setField e i (.number 0) = e) (h : n < 2 ^ 64) (rest : Bytes) :
    unmarshalFields e (putNumber tag n ++ rest) =
      unmarshalFields (setField e i (.number n)) rest := by
  unfold putNumber
  split
  · rename_i h0
    rw [h0, hset, List.nil_append]
  · rw [List.cons_append]
    refine unmarshalFields_cons (consumeField_cons htag hi hlt (by decide) ?_)
    rw [consumeValue, consumeVarint_put h, Option.map_some]

theorem unmarshalFields_bytes (htag : tag.toNat = 8 * i + 2) (hi : 0 < i) (hlt : i < 16)
    (hset : setField e i (.bytes []) = e) (h : bs.length < 2 ^ 64) :
    unmarshalFields e (putBytes tag bs) = some (setField e i (.bytes bs)) := by
  unfold putBytes
  split
  · rename_i h0
    rw [h0, hset, unmarshalFields_nil]
  · rw [← unmarshalFields_nil (setField e i (.bytes bs))]
    refine unmarshalFields_cons (consumeField_cons htag hi hlt (by decide) ?_)
    simp [consumeValue, consumeVarint_put h, consumeBytes]

theorem unmarshal_marshal (e : LogEntry) (hi : e.index < 2 ^ 64) (ht : e.term < 2 ^ 64)
    (hd : e.data.length < 2 ^ 64) : unmarshal (marshal e) = .ok e := by
  have hfields : unmarshalFields ⟨0, 0, []⟩ (marshal e) = some e := by
    rw [marshal, unmarshalFields_number (i := 1) rfl (by decide) (by decide) rfl hi,
      unmarshalFields_number (i := 2) rfl (by decide) (by decide) rfl ht,
      unmarshalFields_bytes (i := 3) rfl (by decide) (by decide) rfl hd]
    rfl
  rw [unmarshal, hfields]

theorem length_marshal_ge (e : LogEntry) : e.data.length ≤ (marshal e).length := by
  rw [marshal, List.length_append, List.length_append, putBytes]
  split
  · rename_i h0
    simp [h0]
  · simp only [List.length_cons, List.length_append]
    omega

theorem length_putNumber_le (tag : UInt8) (n : ℕ) : (putNumber tag n).length ≤ 11 := by
  unfold putNumber
  split
  · exact Nat.zero_le _
  · exact Nat.succ_le_succ (Varint.length_put_le 10 n)

theorem length_marshal_le (e : LogEntry) : (marshal e).length ≤ e.data.length + 33 := by
  have hindex := length_putNumber_le tagIndex e.index
  have hterm := length_putNumber_le tagTerm e.term
  have hlen := Varint.length_put_le 10 e.data.length
  rw [marshal, List.length_append, List.length_append, putBytes]
  split
  · simp only [List.length_nil]
    omega
  · simp only [List.length_cons, List.length_append]
    omega

/-- Data of 2^28 bytes and more, up to 2^35, at the first index in the first term. -/
theorem length_marshal_first {data : Bytes} (hlo : 2 ^ 28 ≤ data.length)
    (hhi : data.length < 2 ^ 35) : (marshal ⟨1, 1, data⟩).length = data.length + 10 := by
  have hne : data ≠ [] := by
    rintro rfl
    simp at hlo
  have hlen : (Varint.put 10 data.length).length = 5 := by
    rw [Varint.put_of_le (by omega), Varint.put_of_le (by omega), Varint.put_of_le (by omega),
      Varint.put_of_le (by omega), Varint.put_of_lt (by omega)]
    rfl
  have hone : (putNumber tagIndex 1).length = 2 ∧ (putNumber tagTerm 1).length = 2 := ⟨rfl, rfl⟩
  simp only [marshal, putBytes, if_neg hne, List.length_append, List.length_cons, hlen, hone]
  omega

end Wire

def Proto.wire : Proto where
  marshal := Wire.marshal
  unmarshal := Wire.unmarshal
  roundTrip e hi ht hlen := Wire.unmarshal_marshal e hi ht (by
    have := Wire.length_marshal_ge e
    omega)

end KMC
