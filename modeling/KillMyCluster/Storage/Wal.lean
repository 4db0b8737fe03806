import KillMyCluster.Lib.BigEndian
import KillMyCluster.Lib.Files
import KillMyCluster.Lib.Framing
import KillMyCluster.Raft.Log

/-! The write-ahead log of `internal/storage/wal.go`: frames of a length, a checksum and a payload,
and the replay that stops at the first frame that is not whole. -/

namespace KMC.Storage

variable {payload bs rest : Bytes} {ps : List Bytes}

/-! ## CRC-32C -/

/-- `crc32.Castagnoli`, bits reversed. -/
def castagnoli : UInt32 := 0x82f63b78

def crcTable (i : UInt8) : UInt32 :=
  (fun crc : UInt32 => if crc &&& 1 = 1 then (crc >>> 1) ^^^ castagnoli else crc >>> 1)^[8]
    i.toUInt32

def checksum (payload : Bytes) : UInt32 :=
  ~~~ payload.foldl (fun crc v => crcTable (crc.toUInt8 ^^^ v) ^^^ (crc >>> 8)) (~~~ 0)

-- the check value of CRC-32C, over the digits from 1 to 9
example : checksum [49, 50, 51, 52, 53, 54, 55, 56, 57] = 0xe3069283 := by decide +kernel

/-! ## Frames -/

def frameHeaderSize : ℕ := 8

/-- What `Append` writes. The length is cut to 32 bits. -/
def frame (payload : Bytes) : Bytes :=
  BigEndian.put 4 payload.length ++ BigEndian.put 4 (checksum payload).toNat ++ payload

/-- One turn of the loop of `replayWAL`: the payload at the front and what follows it, or `none` at
the end of the file, for a short header or payload and for a wrong checksum. -/
def readFrame (bs : Bytes) : Option (Bytes × Bytes) :=
  if bs.length < frameHeaderSize then none
  else
    let payloadLen := BigEndian.read (bs.take 4)
    let wantCRC := BigEndian.read ((bs.drop 4).take 4)
    let rest := bs.drop frameHeaderSize
    if rest.length < payloadLen then none
    else if (checksum (rest.take payloadLen)).toNat ≠ wantCRC then none
    else some (rest.take payloadLen, rest.drop payloadLen)

section Replay

variable {σ ε : Type*}

/-- The loop of `replayWAL`. A turn takes at least a header off the file, so its length is fuel
enough. -/
def replayLoop (fn : σ → Bytes → Except ε σ) : ℕ → σ → ℕ → Bytes → ℕ × Except ε σ
  | 0, st, validOffset, _ => (validOffset, .ok st)
  | fuel + 1, st, validOffset, bs =>
    match readFrame bs with
    | none => (validOffset, .ok st)
    | some (payload, rest) =>
      match fn st payload with
      | .error err => (validOffset, .error err)
      | .ok st => replayLoop fn fuel st (validOffset + (frameHeaderSize + payload.length)) rest

/-- `replayWAL` over a file that may not exist; what `fn` changes is passed along as `st`. -/
def replayWAL (file : Option Bytes) (fn : σ → Bytes → Except ε σ) (st : σ) : ℕ × Except ε σ :=
  match file with
  | none => (0, .ok st)
  | some bs => replayLoop fn bs.length st 0 bs

end Replay

section Reopen

variable {N : Type*} [DecidableEq N]

/-- After a replay the bytes of a torn tail are cut off and the log `f` is opened again. -/
def reopenOps (d : Files.Dir N UInt8) (f : N) (validOffset : ℕ) : List (Files.Op N UInt8) :=
  match d f with
  | none => [.append f []]
  | some bs =>
    if validOffset < bs.length then [.truncate f validOffset, .append f []] else [.append f []]

end Reopen

/-! ## What comes back -/

theorem length_frame (payload : Bytes) :
    (frame payload).length = frameHeaderSize + payload.length := by
  simp only [frame, List.length_append, BigEndian.length_put, frameHeaderSize]

theorem frame_append_length (payload rest : Bytes) :
    (frame payload ++ rest).take 4 = BigEndian.put 4 payload.length := by
  rw [frame, List.append_assoc, List.append_assoc]
  exact List.take_left' (BigEndian.length_put ..)

theorem frame_append_crc (payload rest : Bytes) :
    ((frame payload ++ rest).drop 4).take 4 = BigEndian.put 4 (checksum payload).toNat := by
  rw [frame, List.append_assoc, List.append_assoc, List.drop_left' (BigEndian.length_put ..)]
  exact List.take_left' (BigEndian.length_put ..)

theorem frame_append_payload (payload rest : Bytes) :
    (frame payload ++ rest).drop frameHeaderSize = payload ++ rest := by
  rw [frame, List.append_assoc]
  exact List.drop_left' (by simp [frameHeaderSize])

theorem read_checksum (payload : Bytes) :
    BigEndian.read (BigEndian.put 4 (checksum payload).toNat) = (checksum payload).toNat :=
  BigEndian.read_put (checksum payload).toNat_lt

/-- What the loop sees at a frame that `Append` wrote, whatever its length. -/
theorem readFrame_frame (payload rest : Bytes) :
    readFrame (frame payload ++ rest) =
      if (payload ++ rest).length < payload.length % 2 ^ 32 then none
      else if checksum ((payload ++ rest).take (payload.length % 2 ^ 32)) ≠ checksum payload then
        none
      else some ((payload ++ rest).take (payload.length % 2 ^ 32),
        (payload ++ rest).drop (payload.length % 2 ^ 32)) := by
  have hlen : ¬ (frame payload ++ rest).length < frameHeaderSize := by
    simp [length_frame, Nat.add_assoc]
  have hmod : BigEndian.read (BigEndian.put 4 payload.length) = payload.length % 2 ^ 32 :=
    BigEndian.read_put_mod 4 payload.length
  simp only [readFrame, if_neg hlen, frame_append_length, frame_append_crc, frame_append_payload,
    read_checksum, hmod, ne_eq, UInt32.toNat_inj]

theorem readFrame_append (h : payload.length < 2 ^ 32) (rest : Bytes) :
    readFrame (frame payload ++ rest) = some (payload, rest) := by
  rw [readFrame_frame, Nat.mod_eq_of_lt h, if_neg (by simp), if_neg (by simp)]
  simp

/-- A frame that breaks off is not read. -/
theorem readFrame_torn (h : payload.length < 2 ^ 32) {k : ℕ} (hk : k < (frame payload).length) :
    readFrame ((frame payload).take k) = none := by
  rw [length_frame] at hk
  by_cases hhead : k < frameHeaderSize
  · rw [readFrame, if_pos (by rw [List.length_take]; omega)]
  · -- the header is there, so the length tells that bytes are missing
    have hread := BigEndian.read_put (show payload.length < 256 ^ 4 from h)
    have htake : ((frame payload).take k).take 4 = BigEndian.put 4 payload.length := by
      have := frame_append_length payload []
      rw [List.append_nil] at this
      rw [List.take_take, min_eq_left (by simp only [frameHeaderSize] at hhead; omega), this]
    have hlen : ((frame payload).take k).length = k := by
      rw [List.length_take, length_frame]
      omega
    simp only [readFrame, htake, hread, hlen, if_neg hhead, List.length_drop]
    rw [if_pos (by omega)]

def frames : Framing.Code Bytes UInt8 where
  put := frame
  get := readFrame
  Fits := fun payload => payload.length < 2 ^ 32
  get_nil := rfl
  get_put := fun _ rest h => readFrame_append h rest
  get_torn := fun _ _ h hk => readFrame_torn h hk

section Replay

variable {σ ε : Type*} {fn : σ → Bytes → Except ε σ}

theorem replayLoop_frame {st st' : σ} (hread : readFrame bs = some (payload, rest))
    (hfn : fn st payload = .ok st') (fuel validOffset : ℕ) :
    replayLoop fn (fuel + 1) st validOffset bs =
      replayLoop fn fuel st' (validOffset + (frameHeaderSize + payload.length)) rest := by
  simp only [replayLoop, hread, hfn]

theorem replayLoop_error {st : σ} {err : ε} (hread : readFrame bs = some (payload, rest))
    (hfn : fn st payload = .error err) (fuel validOffset : ℕ) :
    replayLoop fn (fuel + 1) st validOffset bs = (validOffset, .error err) := by
  simp only [replayLoop, hread, hfn]

theorem replayLoop_torn {tail : Bytes} (h : readFrame tail = none) (fuel : ℕ) (st : σ)
    (validOffset : ℕ) : replayLoop fn fuel st validOffset tail = (validOffset, .ok st) := by
  cases fuel with
  | zero => rfl
  | succ fuel => simp only [replayLoop, h]

/-- The loop after the frames of `ps`. -/
theorem replayLoop_append (hps : ∀ p ∈ ps, p.length < 2 ^ 32) {st st' : σ}
    (hfn : ps.foldlM fn st = .ok st') (rest : Bytes) (fuel validOffset : ℕ) :
    replayLoop fn (fuel + ps.length) st validOffset (frames.putAll ps ++ rest) =
      replayLoop fn fuel st' (validOffset + (frames.putAll ps).length) rest := by
  induction ps generalizing st validOffset with
  | nil =>
    obtain rfl : st = st' := Except.ok.inj hfn
    rfl
  | cons p ps ih =>
    have hread : readFrame (frames.putAll (p :: ps) ++ rest) =
        some (p, frames.putAll ps ++ rest) := by
      rw [Framing.Code.putAll_cons, List.append_assoc]
      exact readFrame_append (hps p List.mem_cons_self) _
    rw [List.foldlM_cons] at hfn
    cases hp : fn st p with
    | error err => rw [hp] at hfn; cases hfn
    | ok st₁ =>
      rw [hp] at hfn
      have hput : (frames.put p).length = frameHeaderSize + p.length := length_frame p
      rw [List.length_cons, ← Nat.add_assoc, replayLoop_frame hread hp,
        ih (fun q hq => hps q (List.mem_cons_of_mem p hq)) hfn,
        Framing.Code.putAll_cons, List.length_append, hput, Nat.add_assoc]

theorem length_le_putAll (ps : List Bytes) : ps.length ≤ (frames.putAll ps).length := by
  induction ps with
  | nil => simp
  | cons p ps ih =>
    have : (frames.put p).length = frameHeaderSize + p.length := length_frame p
    simp only [List.length_cons, Framing.Code.putAll_cons, List.length_append, this,
      frameHeaderSize]
    omega

theorem replayWAL_append (hps : ∀ p ∈ ps, p.length < 2 ^ 32) {st st' : σ}
    (hfn : ps.foldlM fn st = .ok st') (rest : Bytes) :
    ∃ fuel, rest.length ≤ fuel ∧ replayWAL (some (frames.putAll ps ++ rest)) fn st =
      replayLoop fn fuel st' (frames.putAll ps).length rest := by
  have hle := length_le_putAll ps
  refine ⟨(frames.putAll ps ++ rest).length - ps.length, ?_, ?_⟩
  · rw [List.length_append]
    omega
  · have := replayLoop_append hps hfn rest ((frames.putAll ps ++ rest).length - ps.length) 0
    rwa [Nat.sub_add_cancel (by rw [List.length_append]; omega), Nat.zero_add] at this

/-- The replay gives back the whole frames and leaves out what is after them. -/
theorem replayWAL_frames (hps : ∀ p ∈ ps, p.length < 2 ^ 32) {tail : Bytes}
    (htail : readFrame tail = none) {file : Option Bytes}
    (hfile : file.getD [] = frames.putAll ps ++ tail) {st st' : σ}
    (hfn : ps.foldlM fn st = .ok st') :
    replayWAL file fn st = ((frames.putAll ps).length, .ok st') := by
  cases file with
  | none =>
    -- no file: no frames either
    have hnil := List.append_eq_nil_iff.mp hfile.symm
    have hps : ps = [] := List.length_eq_zero_iff.mp
      (Nat.le_zero.mp ((length_le_putAll ps).trans_eq (by rw [hnil.1]; rfl)))
    subst hps
    obtain rfl : st = st' := Except.ok.inj hfn
    rfl
  | some bs =>
    obtain rfl : bs = frames.putAll ps ++ tail := hfile
    obtain ⟨fuel, -, hloop⟩ := replayWAL_append hps hfn tail
    rw [hloop, replayLoop_torn htail]

theorem readFrame_length (h : readFrame bs = some (payload, rest)) :
    frameHeaderSize ≤ bs.length := by
  unfold readFrame at h
  split at h
  · cases h
  · exact not_lt.mp ‹_›

/-- The replay stops at a frame that the callback does not accept. -/
theorem replayWAL_rejected (hps : ∀ p ∈ ps, p.length < 2 ^ 32) {st st' : σ}
    (hfn : ps.foldlM fn st = .ok st') {err : ε} (hread : readFrame bs = some (payload, rest))
    (herr : fn st' payload = .error err) : replayWAL (some (frames.putAll ps ++ bs)) fn st =
      ((frames.putAll ps).length, .error err) := by
  obtain ⟨fuel, hfuel, hloop⟩ := replayWAL_append hps hfn bs
  have hpos : fuel ≠ 0 := by
    rintro rfl
    cases Nat.le_zero.mp ((readFrame_length hread).trans hfuel)
  obtain ⟨fuel, rfl⟩ := Nat.exists_eq_succ_of_ne_zero hpos
  rw [hloop, replayLoop_error hread herr]

/-- The length of a payload of 4 GiB is written as 0. If no empty record is accepted, the replay
comes back without it or with an error. -/
theorem replayWAL_wrapped (hps : ∀ p ∈ ps, p.length < 2 ^ 32) {st st' : σ}
    (hfn : ps.foldlM fn st = .ok st') (hlen : payload.length = 2 ^ 32)
    (hempty : ∃ err, fn st' [] = .error err) {v : ℕ} {st₁ : σ}
    (h : replayWAL (some (frames.putAll ps ++ frame payload)) fn st = (v, .ok st₁)) :
    st₁ = st' := by
  have hread := readFrame_frame payload []
  rw [List.append_nil, List.append_nil, hlen, Nat.mod_self, if_neg (Nat.not_lt_zero _)] at hread
  split at hread
  · -- the checksum does not match that of no bytes
    rw [replayWAL_frames hps hread rfl hfn] at h
    exact (Except.ok.inj (Prod.mk.inj h).2).symm
  · obtain ⟨err, herr⟩ := hempty
    rw [replayWAL_rejected hps hfn hread herr] at h
    cases (Prod.mk.inj h).2

end Replay

section Reopen

open Files

variable {N : Type*} [DecidableEq N]

structure CutAt (d : Dir N UInt8) (f : N) (n : ℕ) (d' : Dir N UInt8) : Prop where
  log : (d' f).getD [] = (d f).getD [] ∨ (d' f).getD [] = ((d f).getD []).take n
  others : ∀ g, g ≠ f → d' g = d g

theorem runs_reopenOps (d : Dir N UInt8) (f : N) (n : ℕ) :
    runs d (reopenOps d f n) f = some (((d f).getD []).take n) ∧
      ∀ g, g ≠ f → runs d (reopenOps d f n) g = d g := by
  unfold reopenOps
  cases hf : d f with
  | none => exact ⟨by simp [Op.run, hf], fun g hg => by simp [Op.run, hg]⟩
  | some bs =>
    simp only
    split
    · exact ⟨by simp [Op.run, hf], fun g hg => by simp [Op.run, hg]⟩
    · rename_i hn
      exact ⟨by simp [Op.run, hf, List.take_of_length_le (not_lt.mp hn)],
        fun g hg => by simp [Op.run, hg]⟩

theorem crashed_reopenOps (d : Dir N UInt8) (f : N) (n : ℕ) (pt : CrashPoint) :
    CutAt d f n (crashed d (reopenOps d f n) pt) := by
  -- opening the log changes nothing that is read
  have hopen : ∀ d₁ : Dir N UInt8, CutAt d f n d₁ → ∀ pt,
      CutAt d f n (crashed d₁ [.append f []] pt) := by
    intro d₁ h₁ pt
    have hempty : CutAt d f n (Function.update d₁ f (some ((d₁ f).getD [] ++ []))) :=
      ⟨by simpa using h₁.log, fun g hg => by simpa [hg] using h₁.others g hg⟩
    exact crashed_cases h₁ (fun k => by simpa [Op.cut] using hempty)
      (fun pt => by simpa [Op.run] using hempty) pt
  have hsame : CutAt d f n d := ⟨.inl rfl, fun _ _ => rfl⟩
  unfold reopenOps
  cases hf : d f with
  | none => exact hopen d hsame pt
  | some bs =>
    simp only
    split
    · refine crashed_cases hsame ?_ (hopen _ ⟨.inr ?_, fun g hg => ?_⟩) pt
      · exact fun _ => hsame
      · simp [Op.run, hf]
      · simp [Op.run, hg]
    · exact hopen d hsame pt

end Reopen

end KMC.Storage
