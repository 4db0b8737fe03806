import KillMyCluster.Storage.Wal

/-! Replay as the inverse of framing, on any file. What `replayWAL` delivers are the payloads of the
frames at the front of the file, as many as there are, and the offset it returns is where they
end. -/

namespace KMC.Storage

/-- No header is read that `Append` would not have written. -/
theorem readFrame_sound {bs payload rest : Bytes} (h : readFrame bs = some (payload, rest)) :
    bs = frame payload ++ rest ∧ payload.length < 2 ^ 32 := by
  unfold readFrame at h
  split at h
  · cases h
  rename_i hhead
  simp only at h
  split at h
  · cases h
  rename_i hlen
  split at h
  · cases h
  rename_i hcrc
  obtain ⟨rfl, rfl⟩ := Prod.mk.inj (Option.some.inj h)
  simp only [frameHeaderSize, List.length_drop] at hhead hlen hcrc ⊢
  set n := BigEndian.read (bs.take 4) with hn
  have h4 : (bs.take 4).length = 4 := by
    rw [List.length_take]
    omega
  have h8 : ((bs.drop 4).take 4).length = 4 := by
    rw [List.length_take, List.length_drop]
    omega
  have hpay : ((bs.drop 8).take n).length = n := by
    rw [List.length_take, List.length_drop]
    omega
  -- both words of the header are written as they were read
  have hword := BigEndian.put_read (bs.take 4)
  have hsum := BigEndian.put_read ((bs.drop 4).take 4)
  rw [h4, ← hn] at hword
  rw [h8, ← not_not.mp hcrc] at hsum
  refine ⟨?_, ?_⟩
  · rw [frame, hpay, hword, hsum, List.append_assoc, List.append_assoc, List.take_append_drop,
      show bs.drop 8 = (bs.drop 4).drop 4 by rw [List.drop_drop], List.take_append_drop,
      List.take_append_drop]
  · rw [hpay, hn]
    exact (BigEndian.read_lt (bs.take 4)).trans_eq (by rw [h4]; norm_num)

theorem frames_exact : frames.Exact where
  get_sound _ _ _ h := readFrame_sound h
  put_ne_nil p h := by
    have := length_frame p
    rw [show frame p = [] from h, frameHeaderSize, List.length_nil] at this
    omega

/-- Zeros read as the frame of an empty payload, whose checksum is 0. -/
theorem readFrame_zeros (n : ℕ) : readFrame (List.replicate n 0) =
    if n < frameHeaderSize then none
    else some ([], List.replicate (n - frameHeaderSize) 0) := by
  by_cases hn : n < frameHeaderSize
  · rw [if_pos hn, readFrame, if_pos (by simpa using hn)]
  · have hzero : BigEndian.read (List.replicate 4 0) = 0 := by decide
    have hcrc : (checksum []).toNat = 0 := by decide
    have h4 : min 4 n = 4 ∧ min 4 (n - 4) = 4 := by
      simp only [frameHeaderSize] at hn
      omega
    rw [if_neg hn, readFrame, if_neg (by simpa using hn)]
    simp only [List.take_replicate, List.drop_replicate, h4.1, h4.2, hzero, Nat.not_lt_zero,
      if_false, List.replicate_zero, Nat.zero_min, hcrc, ne_eq, not_true, Nat.sub_zero]

section Any

variable {σ ε : Type*} {fn : σ → Bytes → Except ε σ}

/-- A replay without an error has taken all frames at the front. -/
theorem replayLoop_ok {fuel : ℕ} {bs : Bytes} (hfuel : bs.length ≤ fuel) {st st' : σ} {v n : ℕ}
    (h : replayLoop fn fuel st v bs = (n, .ok st')) :
    ∃ ps tail, bs = frames.putAll ps ++ tail ∧ (∀ p ∈ ps, p.length < 2 ^ 32) ∧
      readFrame tail = none ∧ n = v + (frames.putAll ps).length ∧ ps.foldlM fn st = .ok st' := by
  induction fuel generalizing bs st v with
  | zero =>
    obtain rfl := List.eq_nil_of_length_eq_zero (Nat.le_zero.mp hfuel)
    obtain ⟨rfl, hst⟩ := Prod.mk.inj h
    exact ⟨[], [], rfl, by simp, rfl, rfl, hst⟩
  | succ fuel ih =>
    unfold replayLoop at h
    split at h
    · rename_i hread
      obtain ⟨rfl, hst⟩ := Prod.mk.inj h
      exact ⟨[], bs, rfl, by simp, hread, rfl, hst⟩
    rename_i payload rest hread
    split at h
    · cases (Prod.mk.inj h).2
    rename_i st₁ hfn
    obtain ⟨rfl, hp⟩ := readFrame_sound hread
    rw [List.length_append, length_frame, frameHeaderSize] at hfuel
    obtain ⟨ps, tail, rfl, hps, htail, rfl, hfold⟩ := ih (by omega) h
    have hput : (frames.put payload).length = frameHeaderSize + payload.length :=
      length_frame payload
    refine ⟨payload :: ps, tail, ?_, fun q hq => ?_, htail, ?_, ?_⟩
    · rw [Framing.Code.putAll_cons, List.append_assoc]
      rfl
    · rcases List.mem_cons.mp hq with rfl | hq
      · exact hp
      · exact hps q hq
    · rw [Framing.Code.putAll_cons, List.length_append, hput, Nat.add_assoc]
    · rw [List.foldlM_cons, hfn]
      exact hfold

theorem replayWAL_ok {file : Option Bytes} {st st' : σ} {n : ℕ}
    (h : replayWAL file fn st = (n, .ok st')) :
    ∃ ps tail, file.getD [] = frames.putAll ps ++ tail ∧ (∀ p ∈ ps, p.length < 2 ^ 32) ∧
      readFrame tail = none ∧ n = (frames.putAll ps).length ∧ ps.foldlM fn st = .ok st' := by
  cases file with
  | none =>
    obtain ⟨rfl, hst⟩ := Prod.mk.inj h
    exact ⟨[], [], rfl, by simp, rfl, rfl, hst⟩
  | some bs =>
    obtain ⟨ps, tail, hbs, hps, htail, hn, hfold⟩ := replayLoop_ok le_rfl h
    exact ⟨ps, tail, hbs, hps, htail, by rw [hn, Nat.zero_add], hfold⟩

end Any

/-- A callback that accepts every payload is given `ps`, in this order, and the replay of the file
returns `v`. -/
def Delivers (file : Bytes) (ps : List Bytes) (v : ℕ) : Prop :=
  ∀ (σ ε : Type) (fn : σ → Bytes → σ) (st : σ),
    replayWAL (some file) (fun st p => (.ok (fn st p) : Except ε σ)) st = (v, .ok (ps.foldl fn st))

theorem foldlM_ok {σ ε : Type} (fn : σ → Bytes → σ) (ps : List Bytes) (st : σ) :
    ps.foldlM (fun st p => (.ok (fn st p) : Except ε σ)) st = .ok (ps.foldl fn st) := by
  induction ps generalizing st with
  | nil => rfl
  | cons p ps ih => exact ih (fn st p)

theorem delivers_frames {ps : List Bytes} (hps : ∀ p ∈ ps, p.length < 2 ^ 32) {tail : Bytes}
    (htail : readFrame tail = none) :
    Delivers (frames.putAll ps ++ tail) ps (frames.putAll ps).length :=
  fun _ _ fn st => replayWAL_frames hps htail rfl (foldlM_ok fn ps st)

/-- No payload's frame is a prefix of what the reader does not accept. -/
theorem no_frame_of_none {bs payload : Bytes} (h : readFrame bs = none)
    (hp : payload.length < 2 ^ 32) : ¬ frame payload <+: bs := by
  rintro ⟨rest, rfl⟩
  rw [readFrame_append hp] at h
  cases h

/-- Any file is replayed to the frames it starts with, as many as there are. Frames that are cut
anywhere give those that end before the cut. Frames appended where the replay ended are found
behind the old ones. -/
theorem replayWAL_inverts_append :
    (∀ file, ∃ ps v, Delivers file ps v ∧ v ≤ file.length ∧ frames.putAll ps = file.take v ∧
      (∀ p, p.length < 2 ^ 32 → ¬ frame p <+: file.drop v) ∧
      ∀ new, (∀ p ∈ new, p.length < 2 ^ 32) → Delivers (file.take v ++ frames.putAll new)
        (ps ++ new) (v + (frames.putAll new).length)) ∧
    ∀ ps cut, (∀ p ∈ ps, p.length < 2 ^ 32) → ∃ j ≤ ps.length,
      Delivers ((frames.putAll ps).take cut) (ps.take j) (frames.putAll (ps.take j)).length ∧
      ∀ i < ps.length, i < j ↔ (frames.putAll (ps.take (i + 1))).length ≤ cut := by
  refine ⟨fun file => ?_, fun ps cut hps => ?_⟩
  · obtain ⟨ps, tail, rfl, hps, htail⟩ := frames_exact.split _ file
    have htake : (frames.putAll ps ++ tail).take (frames.putAll ps).length = frames.putAll ps :=
      List.take_left' rfl
    refine ⟨ps, (frames.putAll ps).length, delivers_frames hps htail, by simp, htake.symm,
      fun p hp => ?_, fun new hnew => ?_⟩
    · rw [List.drop_left' rfl]
      exact no_frame_of_none htail hp
    · have hall : ∀ p ∈ ps ++ new, p.length < 2 ^ 32 := fun p hp =>
        (List.mem_append.mp hp).elim (hps p) (hnew p)
      have hdel := delivers_frames hall (show readFrame [] = none from rfl)
      rw [htake]
      rwa [List.append_nil, Framing.Code.putAll_append, List.length_append] at hdel
  · obtain ⟨j, hj, tail, htake, htail, hwhole⟩ := frames.putAll_cut hps cut
    rw [htake]
    exact ⟨j, hj, delivers_frames (fun p hp => hps p (List.mem_of_mem_take hp)) htail, hwhole⟩

end KMC.Storage
