import KillMyCluster.Raft.Files
import KillMyCluster.Raft.Recover

/-! The files of a persister against its records. As long as every record is shorter than 4 GiB, a
call that is cut short anywhere in its file operations leaves what some number of durable writes of
whole records would, and perhaps a torn tail, which the next opening cuts off. -/

namespace KMC

open Files Storage

/-! ## Records that can be read back -/

def LogEntry.Fits (pb : Proto) (e : LogEntry) : Prop :=
  e.index < 2 ^ 64 ∧ e.term < 2 ^ 64 ∧ (pb.marshal e).length + 1 < 2 ^ 32

def Rec.Fits (pb : Proto) : Rec → Prop
  | .hardState term votedFor => term < 2 ^ 64 ∧ votedFor < 2 ^ 64
  | .entry e => e.Fits pb
  | .truncate start => start < 2 ^ 64

def Snapshot.Fits (snap : Snapshot) : Prop := snap.index < 2 ^ 64 ∧ snap.term < 2 ^ 64

def Call.Fits (pb : Proto) (c : Call) : Prop :=
  (∀ r ∈ c.records, r.Fits pb) ∧ ∀ snap t v keep, c = .saveSnapshot snap t v keep → snap.Fits

variable {pb : Proto} {r : Rec} {rs : List Rec} {snap : Snapshot}

theorem read_word {n : ℕ} (h : n < 2 ^ 64) : BigEndian.read (BigEndian.put 8 n) = n :=
  BigEndian.read_put (h.trans_eq (by norm_num))

theorem take_word (n : ℕ) (bs : Bytes) : (BigEndian.put 8 n ++ bs).take 8 = BigEndian.put 8 n :=
  List.take_left' (BigEndian.length_put 8 n)

theorem drop_word (n : ℕ) (bs : Bytes) : (BigEndian.put 8 n ++ bs).drop 8 = bs :=
  List.drop_left' (BigEndian.length_put 8 n)

theorem Rec.decode_encode (h : r.Fits pb) : Rec.decode pb (r.encode pb) = .ok r := by
  cases r with
  | hardState term votedFor =>
    have hv := take_word votedFor []
    rw [List.append_nil] at hv
    simp only [encode, decode, if_true, List.length_append, BigEndian.length_put, ne_eq,
      not_true_eq_false, if_false, take_word, drop_word, hv, read_word h.1, read_word h.2]
  | entry e =>
    have hlen : (pb.marshal e).length < 2 ^ 63 := by
      have := h.2.2
      omega
    simp only [encode, decode, pb.roundTrip e h.1 h.2.1 hlen]
    rfl
  | truncate start =>
    have hs := take_word start []
    rw [List.append_nil] at hs
    simp only [encode, decode, BigEndian.length_put, hs, read_word h]
    rfl

theorem Rec.length_encode (h : r.Fits pb) : (r.encode pb).length < 2 ^ 32 := by
  cases r with
  | hardState term votedFor => simp [encode]
  | entry e => simpa [encode] using h.2.2
  | truncate start => simp [encode]

theorem Rec.payloads_fit (h : ∀ r ∈ rs, r.Fits pb) :
    ∀ p ∈ rs.map (Rec.encode pb), p.length < 2 ^ 32 := by
  intro p hp
  obtain ⟨r, hr, rfl⟩ := List.mem_map.mp hp
  exact length_encode (h r hr)

theorem Rec.frames_append (rs rs' : List Rec) :
    Rec.frames pb (rs ++ rs') = Rec.frames pb rs ++ Rec.frames pb rs' := by
  rw [frames, List.map_append, Framing.Code.putAll_append]
  rfl

/-- Frames cut anywhere: some whole records, and then nothing that can be read. -/
theorem Rec.frames_take (h : ∀ r ∈ rs, r.Fits pb) (k : ℕ) :
    ∃ j tail, (Rec.frames pb rs).take k = Rec.frames pb (rs.take j) ++ tail ∧
      readFrame tail = none := by
  obtain ⟨j, tail, htake, htail⟩ := Storage.frames.putAll_take (Rec.payloads_fit h) k
  exact ⟨j, tail, by rw [frames, htake, frames, List.map_take], htail⟩

theorem Snapshot.decode_encode (h : snap.Fits) : Snapshot.decode snap.encode = .ok snap := by
  have hlen : ¬ snap.encode.length < 16 := by
    simp only [encode, List.length_append, BigEndian.length_put]
    omega
  rw [decode, if_neg hlen, show snap.encode = BigEndian.put 8 snap.index ++
    (BigEndian.put 8 snap.term ++ snap.data) by rw [encode, List.append_assoc], take_word,
    drop_word, take_word, ← List.drop_drop (i := 8) (j := 8), drop_word, drop_word,
    read_word h.1, read_word h.2]

/-- Replaying framed records is replaying the records. -/
theorem PersistedState.replay_payloads (h : ∀ r ∈ rs, r.Fits pb) (st : PersistedState) :
    (rs.map (Rec.encode pb)).foldlM (replayRecord pb) st = .ok (rs.foldl replay st) := by
  induction rs generalizing st with
  | nil => rfl
  | cons r rs ih =>
    rw [List.map_cons, List.foldlM_cons, replayRecord, Rec.decode_encode (h r List.mem_cons_self)]
    exact ih (fun x hx => h x (List.mem_cons_of_mem r hx)) (st.replay r)

/-! ## Files and records -/

/-- The snapshot file is the one of `d`; the log file holds the records, and after them bytes that
are no frame. -/
structure Encodes (pb : Proto) (dir : RaftDir) (d : Disk) (tail : Bytes) : Prop where
  image : dir .snapshot = d.snap.map Snapshot.encode
  image_fits : ∀ snap ∈ d.snap, snap.Fits
  fits : ∀ r ∈ d.wal, r.Fits pb
  wal : (dir .wal).getD [] = Rec.frames pb d.wal ++ tail
  torn : readFrame tail = none

variable {dir dir' : RaftDir} {d : Disk} {tail : Bytes} {c : Call}

theorem encodes_empty : Encodes pb (fun _ => none) {} [] :=
  ⟨rfl, by simp, by simp, rfl, rfl⟩

theorem Encodes.setWal (h : Encodes pb dir d tail) (hs : dir' .snapshot = dir .snapshot)
    {tail' : Bytes} (hfits : ∀ r ∈ rs, r.Fits pb)
    (hw : (dir' .wal).getD [] = Rec.frames pb rs ++ tail') (htail : readFrame tail' = none) :
    Encodes pb dir' { d with wal := rs } tail' :=
  ⟨hs.trans h.image, h.image_fits, hfits, hw, htail⟩

/-- The temporary files are not read. -/
theorem Encodes.congr (h : Encodes pb dir d tail) (hs : dir' .snapshot = dir .snapshot)
    (hw : dir' .wal = dir .wal) : Encodes pb dir' d tail :=
  h.setWal hs h.fits (by rw [hw, h.wal]) h.torn

theorem Encodes.loadImage (h : Encodes pb dir d tail) : loadImage dir = .ok d.image := by
  unfold KMC.loadImage Disk.image
  rw [h.image]
  cases hs : d.snap with
  | none => rfl
  | some snap => exact Snapshot.decode_encode (h.image_fits snap hs)

/-! ## Open -/

/-- Opening a log file that holds the records and then nothing that can be read. -/
theorem openPersisterAt_records (hload : loadImage dir = .ok d.image)
    (hfits : ∀ r ∈ d.wal, r.Fits pb) (hwal : (dir .wal).getD [] = Rec.frames pb d.wal ++ tail)
    (htorn : readFrame tail = none) :
    openPersisterAt pb dir =
      .ok (openPersister d, reopenOps dir .wal (Rec.frames pb d.wal).length) := by
  have hreplay := replayWAL_frames (Rec.payloads_fit hfits) htorn hwal
    (PersistedState.replay_payloads hfits { snap := d.image })
  simp only [openPersisterAt, hload, bind, Except.bind, hreplay]
  rfl

theorem Encodes.openPersister (h : Encodes pb dir d tail) :
    ∃ ops, openPersisterAt pb dir = .ok (openPersister d, ops) ∧ Encodes pb (runs dir ops) d [] ∧
      ∀ pt, ∃ tail', Encodes pb (crashed dir ops pt) d tail' := by
  -- the valid offset is where the last whole record ends
  set n := (Rec.frames pb d.wal).length
  have htake : ((dir .wal).getD []).take n = Rec.frames pb d.wal ++ [] := by
    rw [h.wal, List.append_nil]
    exact List.take_left' rfl
  refine ⟨reopenOps dir .wal n, openPersisterAt_records h.loadImage h.fits h.wal h.torn, ?_,
    fun pt => ?_⟩
  · obtain ⟨hw, hs⟩ := runs_reopenOps dir .wal n
    exact h.setWal (hs _ (by decide)) h.fits (by rw [hw]; exact htake) rfl
  · have hcut := crashed_reopenOps dir .wal n pt
    have hs := hcut.others .snapshot (by decide)
    rcases hcut.log with hw | hw
    · exact ⟨tail, h.setWal hs h.fits (hw.trans h.wal) h.torn⟩
    · exact ⟨[], h.setWal hs h.fits (hw.trans htake) rfl⟩

/-! ## Appending records -/

theorem fits_append (h : ∀ r ∈ d.wal, r.Fits pb) (hc : ∀ r ∈ rs, r.Fits pb) :
    ∀ r ∈ d.wal ++ rs, r.Fits pb := fun r hr => (List.mem_append.mp hr).elim (h r) (hc r)

theorem Encodes.append (h : Encodes pb dir d []) (hrs : ∀ r ∈ rs, r.Fits pb) :
    Encodes pb (runs dir [.append .wal (Rec.frames pb rs)]) { d with wal := d.wal ++ rs } [] := by
  refine h.setWal ?_ (fits_append h.fits hrs) ?_ rfl
  · simp [Op.run]
  · rw [Rec.frames_append]
    simp [Op.run, h.wal]

/-- The process dies while it appends: some of the records are there. -/
theorem Encodes.append_cut (h : Encodes pb dir d []) (hrs : ∀ r ∈ rs, r.Fits pb)
    (pt : CrashPoint) : ∃ j tail', Encodes pb
      (crashed dir [.append .wal (Rec.frames pb rs)] pt) { d with wal := d.wal ++ rs.take j }
      tail' := by
  refine crashed_cases (Q := fun dir' => ∃ j tail', Encodes pb dir'
    { d with wal := d.wal ++ rs.take j } tail') ?_ (fun k => ?_) (fun pt => ?_) pt
  · exact ⟨0, [], by simpa using h⟩
  · obtain ⟨j, tail', htake, htail⟩ := Rec.frames_take hrs k
    refine ⟨j, tail', h.setWal ?_ (fits_append h.fits fun r hr =>
      hrs r (List.mem_of_mem_take hr)) ?_ htail⟩
    · simp [Op.cut]
    · rw [Rec.frames_append, List.append_assoc, ← htake]
      simp [Op.cut, h.wal]
  · rw [crashed_nil]
    exact ⟨rs.length, [], by simpa using h.append hrs⟩

/-! ## saveSnapshot -/

/-- The new image over the old log. -/
theorem Encodes.rename (h : Encodes pb dir d tail) (hsnap : snap.Fits)
    (hs : dir' .snapshot = some snap.encode) (hw : dir' .wal = dir .wal) :
    Encodes pb dir' { d with snap := some snap } tail :=
  ⟨hs, fun x hx => Option.some.inj hx ▸ hsnap, h.fits, by rw [hw, h.wal], h.torn⟩

/-- The new image and the log that was written for it. -/
theorem encodes_rewritten (hc : c.Fits pb) {t v : ℕ} {keep : List LogEntry}
    (hcall : c = .saveSnapshot snap t v keep) (hs : dir .snapshot = some snap.encode)
    (hw : (dir .wal).getD [] = Rec.frames pb c.records) :
    Encodes pb dir ⟨some snap, c.records⟩ [] :=
  ⟨hs, fun x hx => Option.some.inj hx ▸ hc.2 snap t v keep hcall, hc.1, by simpa using hw, rfl⟩

variable {t v : ℕ} {keep : List LogEntry}

theorem encodes_saveSnapshot (dir : RaftDir) (d : Disk)
    (hc : (Call.saveSnapshot snap t v keep).Fits pb) :
    Encodes pb (runs dir ((Call.saveSnapshot snap t v keep).ops pb))
      (d.run (.saveSnapshot snap t v keep)) [] := by
  refine encodes_rewritten hc rfl ?_ ?_
  · simp [Call.ops, Op.run]
  · simp [Call.ops, Op.run]

theorem Encodes.saveSnapshot_cut (h : Encodes pb dir d [])
    (hc : (Call.saveSnapshot snap t v keep).Fits pb) (pt : CrashPoint) :
    ∃ k, Encodes pb (crashed dir ((Call.saveSnapshot snap t v keep).ops pb) pt)
      (d.write k (.saveSnapshot snap t v keep)) [] := by
  have hsnap := hc.2 snap t v keep rfl
  let Q : RaftDir → Prop := fun dir' =>
    ∃ k, Encodes pb dir' (d.write k (.saveSnapshot snap t v keep)) []
  -- one directory after each operation
  set bs := Rec.frames pb (Call.saveSnapshot snap t v keep).records with hbs
  set d₁ := (Op.create RaftFile.snapshotTmp snap.encode).run dir with hd₁
  set d₂ := (Op.rename RaftFile.snapshotTmp RaftFile.snapshot).run d₁ with hd₂
  set d₃ := (Op.remove RaftFile.walTmp).run d₂ with hd₃
  set d₄ := (Op.append RaftFile.walTmp bs).run d₃ with hd₄
  set d₅ := (Op.rename RaftFile.walTmp RaftFile.wal).run d₄ with hd₅
  have h₀ : Q dir := ⟨0, h⟩
  have h₁ : Q d₁ := ⟨0, h.congr rfl rfl⟩
  have h₂ : Q d₂ := ⟨1, h.rename hsnap (by simp [hd₂, hd₁, Op.run]) rfl⟩
  have h₃ : Q d₃ := ⟨1, h.rename hsnap (by simp [hd₃, hd₂, hd₁, Op.run]) rfl⟩
  have h₄ : Q d₄ := ⟨1, h.rename hsnap (by simp [hd₄, hd₃, hd₂, hd₁, Op.run]) rfl⟩
  have h₅ : Q d₅ := ⟨2, encodes_rewritten hc rfl (by simp [hd₅, hd₄, hd₃, hd₂, hd₁, Op.run])
    (by simp [hd₅, hd₄, hd₃, Op.run, hbs])⟩
  have h₆ : ∀ k, Q ((Op.append RaftFile.wal ([] : Bytes)).cut d₅ k) := fun k =>
    ⟨2, encodes_rewritten hc rfl (by simp [hd₅, hd₄, hd₃, hd₂, hd₁, Op.run, Op.cut])
      (by simp [hd₅, hd₄, hd₃, Op.run, Op.cut, hbs])⟩
  refine crashed_cases (Q := Q) h₀ ?_ (crashed_cases (Q := Q) h₁ ?_ (crashed_cases (Q := Q) h₂ ?_
    (crashed_cases (Q := Q) h₃ ?_ (crashed_cases (Q := Q) h₄ ?_
      (crashed_cases (Q := Q) h₅ h₆ ?_))))) pt
  · exact fun k => ⟨0, h.congr rfl rfl⟩
  · exact fun _ => h₁
  · exact fun _ => h₂
  · exact fun k => ⟨1, h.rename hsnap (by simp [Op.cut, Op.run]) rfl⟩
  · exact fun _ => h₄
  · intro pt
    rw [crashed_nil]
    exact ⟨2, encodes_saveSnapshot dir d hc⟩

/-! ## All calls -/

theorem Encodes.run (h : Encodes pb dir d []) (hc : c.Fits pb) :
    Encodes pb (runs dir (c.ops pb)) (d.run c) [] := by
  cases c with
  | saveSnapshot snap t v keep => exact encodes_saveSnapshot dir d hc
  | saveHardState | appendEntries | truncateFrom => exact h.append hc.1

theorem Encodes.cut (h : Encodes pb dir d []) (hc : c.Fits pb) (pt : CrashPoint) :
    ∃ k tail', Encodes pb (crashed dir (c.ops pb) pt) (d.write k c) tail' := by
  cases c with
  | saveSnapshot snap t v keep =>
    obtain ⟨k, hk⟩ := h.saveSnapshot_cut hc pt
    exact ⟨k, [], hk⟩
  | saveHardState | appendEntries | truncateFrom => exact h.append_cut hc.1 pt

theorem Encodes.runs {cs : List Call} (h : Encodes pb dir d []) (hcs : ∀ c ∈ cs, c.Fits pb) :
    Encodes pb (runs dir (cs.flatMap (Call.ops pb))) (d.runs cs) [] := by
  induction cs generalizing dir d with
  | nil => exact h
  | cons c cs ih =>
    rw [List.flatMap_cons, runs_append, Disk.runs_cons]
    exact ih (h.run (hcs c List.mem_cons_self)) fun x hx => hcs x (List.mem_cons_of_mem c hx)

end KMC
