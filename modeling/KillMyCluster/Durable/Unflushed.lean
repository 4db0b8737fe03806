import KillMyCluster.Durable.Bytes
import KillMyCluster.Durable.Wire
import KillMyCluster.Storage.Durable
import KillMyCluster.Storage.Replay

/-! A log file that was extended while its last bytes never reached the disk ends in zeros. Fewer of
them than a frame header has are a torn tail. From there on they read as the frame of an empty
payload, and neither of the two decoders takes an empty record. -/

namespace KMC

open Files Storage

variable {gob : Storage.Gob} {dir : Storage.Directory} {base : Storage.Data}
  {cmds : List Storage.Command} {pb : Proto} {files : RaftDir} {image : Snapshot} {rs : List Rec}
  {n : ℕ}

theorem torn_zeros (hn : n < frameHeaderSize) : readFrame (List.replicate n 0) = none := by
  rw [readFrame_zeros, if_pos hn]

theorem empty_zeros (hn : frameHeaderSize ≤ n) : readFrame (List.replicate n 0) =
    some ([], List.replicate (n - frameHeaderSize) 0) := by
  rw [readFrame_zeros, if_neg (not_lt.mpr hn)]

/-! ## The store -/

theorem openStore_zeros (hbase : loadSnapshot gob dir = .ok base) (hfits : ∀ cmd ∈ cmds, cmd.Fits)
    (hwal : dir .wal = some (frames.putAll (cmds.map encodeCommand) ++ List.replicate n 0))
    (hn : n < frameHeaderSize) :
    ∃ ops, openStore gob dir = .ok (cmds.foldl apply base, ops) ∧
      runs dir ops .wal = some (frames.putAll (cmds.map encodeCommand)) := by
  have hreplay := replayWAL_frames (payloads_fit hfits) (torn_zeros hn)
    (show (dir .wal).getD [] = _ by rw [hwal]; rfl) (replay_commands hfits base)
  refine ⟨reopenOps dir .wal (frames.putAll (cmds.map encodeCommand)).length, ?_, ?_⟩
  · simp only [openStore, hbase, bind, Except.bind, hreplay]
    rfl
  · rw [(runs_reopenOps dir .wal _).1, hwal, Option.getD_some, List.take_left' rfl]

/-- From a header on, the store does not open. -/
theorem openStore_zeros_error (hbase : loadSnapshot gob dir = .ok base)
    (hfits : ∀ cmd ∈ cmds, cmd.Fits)
    (hwal : dir .wal = some (frames.putAll (cmds.map encodeCommand) ++ List.replicate n 0))
    (hn : frameHeaderSize ≤ n) : openStore gob dir = .error
      (.error "storage: command payload too short: got 0 bytes, need at least 5") := by
  have hreplay := replayWAL_rejected (payloads_fit hfits) (replay_commands hfits base)
    (empty_zeros hn) (show replayCommand _ [] = .error
      (.error "storage: command payload too short: got 0 bytes, need at least 5") from rfl)
  simp only [openStore, hbase, bind, Except.bind, hwal, hreplay]
  rfl

/-! ## The persister -/

theorem openPersister_zeros (himage : loadImage files = .ok image) (hfits : ∀ r ∈ rs, r.Fits pb)
    (hwal : files .wal = some (Rec.frames pb rs ++ List.replicate n 0))
    (hn : n < frameHeaderSize) :
    ∃ ops, openPersisterAt pb files = .ok (openPersister ⟨some image, rs⟩, ops) ∧
      runs files ops .wal = some (Rec.frames pb rs) := by
  refine ⟨_, openPersisterAt_records (d := ⟨some image, rs⟩) himage hfits
    (show (files .wal).getD [] = _ by rw [hwal]; rfl) (torn_zeros hn), ?_⟩
  rw [(runs_reopenOps files .wal _).1, hwal, Option.getD_some, List.take_left' rfl]

/-- From a header on, the node does not start. -/
theorem openPersister_zeros_error (himage : loadImage files = .ok image)
    (hfits : ∀ r ∈ rs, r.Fits pb)
    (hwal : files .wal = some (Rec.frames pb rs ++ List.replicate n 0))
    (hn : frameHeaderSize ≤ n) : openPersisterAt pb files = .error "raft: empty wal record" := by
  have hreplay := replayWAL_rejected (Rec.payloads_fit hfits)
    (PersistedState.replay_payloads hfits { snap := image }) (empty_zeros hn)
    (show PersistedState.replayRecord pb _ [] = .error "raft: empty wal record" from rfl)
  simp only [openPersisterAt, himage, bind, Except.bind, hwal, Rec.frames, hreplay]
  rfl

/-! ## Both -/

/-- With fewer zeros than a frame header has, and only then, the store and the persister recover
exactly the records in front of them and cut the file to their length. -/
theorem zero_tail_recovered (n : ℕ) :
    (∀ (gob : Storage.Gob) (dir : Storage.Directory) (base : Storage.Data)
      (cmds : List Storage.Command), loadSnapshot gob dir = .ok base →
      (∀ cmd ∈ cmds, cmd.Fits) →
      dir .wal = some (frames.putAll (cmds.map encodeCommand) ++ List.replicate n 0) →
      ((∃ ops, openStore gob dir = .ok (cmds.foldl apply base, ops) ∧
        runs dir ops .wal = some (frames.putAll (cmds.map encodeCommand))) ↔
          n < frameHeaderSize)) ∧
    ∀ (pb : Proto) (files : RaftDir) (image : Snapshot) (rs : List Rec),
      loadImage files = .ok image → (∀ r ∈ rs, r.Fits pb) →
      files .wal = some (Rec.frames pb rs ++ List.replicate n 0) →
      ((∃ ops, openPersisterAt pb files = .ok (openPersister ⟨some image, rs⟩, ops) ∧
        runs files ops .wal = some (Rec.frames pb rs)) ↔ n < frameHeaderSize) := by
  refine ⟨fun gob dir base cmds hbase hfits hwal => ⟨?_, openStore_zeros hbase hfits hwal⟩,
    fun pb files image rs himage hfits hwal => ⟨?_, openPersister_zeros himage hfits hwal⟩⟩
  · rintro ⟨ops, hopen, -⟩
    by_contra hn
    cases hopen.symm.trans (openStore_zeros_error hbase hfits hwal (Nat.le_of_not_lt hn))
  · rintro ⟨ops, hopen, -⟩
    by_contra hn
    cases hopen.symm.trans (openPersister_zeros_error himage hfits hwal (Nat.le_of_not_lt hn))

def onePut (n : ℕ) : Storage.Directory := fun
  | .wal => some (frames.putAll [encodeCommand ⟨Storage.opPut, [1], [2]⟩] ++ List.replicate n 0)
  | _ => none

def oneVote (n : ℕ) : RaftDir := fun
  | .wal => some (Rec.frames Proto.wire [.hardState 1 1] ++ List.replicate n 0)
  | _ => none

theorem onePut_fits : ∀ cmd ∈ [(⟨Storage.opPut, [1], [2]⟩ : Storage.Command)], cmd.Fits := by
  simp [Storage.Command.Fits]

theorem oneVote_fits : ∀ r ∈ [Rec.hardState 1 1], r.Fits Proto.wire := by
  simp [Rec.Fits]

theorem zero_tail_recovered_seven : ∃ gob ops ops',
    openStore gob (onePut 7) = .ok ((∅ : Storage.Data).set [1] [2], ops) ∧
    openPersisterAt Proto.wire (oneVote 7) = .ok (⟨1, 1, [], ⟨0, 0, []⟩⟩, ops') := by
  obtain ⟨gob⟩ := gob_exists
  obtain ⟨hstore, hraft⟩ := zero_tail_recovered 7
  obtain ⟨ops, hopen, -⟩ :=
    (hstore gob (onePut 7) ∅ [⟨Storage.opPut, [1], [2]⟩] rfl onePut_fits rfl).mpr (by decide)
  obtain ⟨ops', hopen', -⟩ :=
    (hraft Proto.wire (oneVote 7) ⟨0, 0, []⟩ [.hardState 1 1] rfl oneVote_fits rfl).mpr (by decide)
  exact ⟨gob, ops, ops', hopen, hopen'⟩

/-- Eight zeros behind one acknowledged record, and nothing starts any more. -/
theorem zero_tail_refused : ∃ gob,
    openStore gob (onePut 8) = .error
      (.error "storage: command payload too short: got 0 bytes, need at least 5") ∧
    openPersisterAt Proto.wire (oneVote 8) = .error "raft: empty wal record" := by
  obtain ⟨gob⟩ := gob_exists
  have hbase : loadSnapshot gob (onePut 8) = .ok ∅ := rfl
  have himage : loadImage (oneVote 8) = .ok ⟨0, 0, []⟩ := rfl
  exact ⟨gob, openStore_zeros_error hbase onePut_fits rfl (by decide),
    openPersister_zeros_error himage oneVote_fits rfl (by decide)⟩

end KMC
