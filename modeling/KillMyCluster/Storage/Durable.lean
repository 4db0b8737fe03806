import KillMyCluster.Storage.Store
import Mathlib.Data.Countable.Basic
import Mathlib.Logic.Equiv.List

/-! A directory gives back one map, whatever was interrupted on it. The log may hold commands that
the snapshot already contains, after a crash between the rename and the truncation; replaying them
over their own result changes nothing. -/

namespace KMC.Storage

open Files Trace

/-! ## Commands as blind writes -/

def Command.writes (cmd : Command) : List (Bytes × Option Bytes) :=
  if cmd.op = opPut then [(cmd.key, some cmd.value)]
  else if cmd.op = opDelete then [(cmd.key, none)]
  else []

theorem apply_eq_writes (data : Data) (cmd : Command) :
    apply data cmd = cmd.writes.foldl Table.write data := by
  unfold apply Command.writes
  split
  · rfl
  split <;> rfl

theorem applyAll_eq_writes (cmds : List Command) (data : Data) :
    cmds.foldl apply data = (cmds.flatMap Command.writes).foldl Table.write data := by
  induction cmds generalizing data with
  | nil => rfl
  | cons cmd cmds ih =>
    rw [List.foldl_cons, ih, apply_eq_writes, List.flatMap_cons, List.foldl_append]

/-- Replaying a log over a map that already contains it. -/
theorem applyAll_again (cmds : List Command) (data : Data) :
    cmds.foldl apply (cmds.foldl apply data) = cmds.foldl apply data := by
  simp only [applyAll_eq_writes, Table.writes_again]

/-! ## What a directory holds -/

/-- The snapshot is `base`; the log holds the commands, and after them bytes that are no frame. -/
structure Made (gob : Gob) (dir : Directory) (base : Data) (cmds : List Command) (tail : Bytes) :
    Prop where
  snap : loadSnapshot gob dir = .ok base
  fits : ∀ cmd ∈ cmds, cmd.Fits
  wal : (dir .wal).getD [] = frames.putAll (cmds.map encodeCommand) ++ tail
  torn : readFrame tail = none

def Holds (gob : Gob) (dir : Directory) (data : Data) (tail : Bytes) : Prop :=
  ∃ base cmds, Made gob dir base cmds tail ∧ cmds.foldl apply base = data

variable {gob : Gob} {dir dir' : Directory} {base data mem : Data} {cmds : List Command}
  {cmd : Command} {tail : Bytes}

theorem holds_empty (gob : Gob) : Holds gob (fun _ => none) ∅ [] :=
  ⟨∅, [], ⟨rfl, by simp, rfl, rfl⟩, rfl⟩

theorem loadSnapshot_congr (h : dir' .snapshot = dir .snapshot) :
    loadSnapshot gob dir' = loadSnapshot gob dir := by
  rw [loadSnapshot, loadSnapshot, h]

theorem Made.setWal {cmds' : List Command} {tail' : Bytes} (h : Made gob dir base cmds tail)
    (hs : dir' .snapshot = dir .snapshot) (hfits : ∀ cmd ∈ cmds', cmd.Fits)
    (hw : (dir' .wal).getD [] = frames.putAll (cmds'.map encodeCommand) ++ tail')
    (htail : readFrame tail' = none) : Made gob dir' base cmds' tail' :=
  ⟨(loadSnapshot_congr hs).trans h.snap, hfits, hw, htail⟩

theorem Made.congr (h : Made gob dir base cmds tail) (hs : dir' .snapshot = dir .snapshot)
    (hw : dir' .wal = dir .wal) : Made gob dir' base cmds tail :=
  h.setWal hs h.fits (by rw [hw, h.wal]) h.torn

/-! ## Open -/

theorem replay_commands (h : ∀ cmd ∈ cmds, cmd.Fits) (base : Data) :
    (cmds.map encodeCommand).foldlM replayCommand base = .ok (cmds.foldl apply base) := by
  induction cmds generalizing base with
  | nil => rfl
  | cons cmd cmds ih =>
    rw [List.map_cons, List.foldlM_cons, replayCommand,
      decodeCommand_encodeCommand (h cmd List.mem_cons_self)]
    exact ih (fun c hc => h c (List.mem_cons_of_mem cmd hc)) (apply base cmd)

theorem payloads_fit (h : ∀ cmd ∈ cmds, cmd.Fits) :
    ∀ p ∈ cmds.map encodeCommand, p.length < 2 ^ 32 := by
  intro p hp
  obtain ⟨cmd, hcmd, rfl⟩ := List.mem_map.mp hp
  exact (length_encodeCommand cmd).trans_lt (h cmd hcmd)

theorem openStore_ok {ops : List (Op File UInt8)} (h : openStore gob dir = .ok (data, ops)) :
    ∃ base n, loadSnapshot gob dir = .ok base ∧
      replayWAL (dir .wal) replayCommand base = (n, .ok data) := by
  unfold openStore at h
  cases hbase : loadSnapshot gob dir with
  | error err => simp only [hbase, bind, Except.bind] at h; cases h
  | ok base =>
    simp only [hbase, bind, Except.bind] at h
    split at h
    · cases h
    · rename_i n mem hreplay
      obtain ⟨rfl, -⟩ := Prod.mk.inj (Except.ok.inj h)
      exact ⟨base, n, rfl, hreplay⟩

theorem Holds.openStore (h : Holds gob dir data tail) :
    ∃ ops, openStore gob dir = .ok (data, ops) ∧ Holds gob (runs dir ops) data [] ∧
      ∀ pt, ∃ tail', Holds gob (crashed dir ops pt) data tail' := by
  obtain ⟨base, cmds, h, hdata⟩ := h
  have hreplay := replayWAL_frames (payloads_fit h.fits) h.torn h.wal (replay_commands h.fits base)
  rw [hdata] at hreplay
  -- the valid offset is where the last whole frame ends
  set n := (frames.putAll (cmds.map encodeCommand)).length
  have htake : ((dir .wal).getD []).take n = frames.putAll (cmds.map encodeCommand) ++ [] := by
    rw [h.wal, List.take_left' rfl, List.append_nil]
  refine ⟨reopenOps dir .wal n, ?_, ?_, fun pt => ?_⟩
  · simp only [Storage.openStore, h.snap, bind, Except.bind, hreplay]
    rfl
  · obtain ⟨hw, hs⟩ := runs_reopenOps dir .wal n
    exact ⟨base, cmds, h.setWal (hs _ (by decide)) h.fits (by rw [hw]; exact htake) rfl, hdata⟩
  · have hcut := crashed_reopenOps dir .wal n pt
    have hs := hcut.others .snapshot (by decide)
    rcases hcut.log with hw | hw
    · exact ⟨tail, base, cmds, h.setWal hs h.fits (hw.trans h.wal) h.torn, hdata⟩
    · exact ⟨[], base, cmds, h.setWal hs h.fits (hw.trans htake) rfl, hdata⟩

/-! ## Put and Delete -/

theorem putAll_concat (cmds : List Command) (cmd : Command) :
    frames.putAll ((cmds ++ [cmd]).map encodeCommand) =
      frames.putAll (cmds.map encodeCommand) ++ frame (encodeCommand cmd) := by
  rw [List.map_append, Framing.Code.putAll_append, List.map_singleton, Framing.Code.putAll_cons,
    Framing.Code.putAll_nil, List.append_nil]
  rfl

theorem fits_concat (h : ∀ cmd ∈ cmds, cmd.Fits) (hcmd : cmd.Fits) :
    ∀ c ∈ cmds ++ [cmd], c.Fits := by
  intro c hc
  rcases List.mem_append.mp hc with hc | hc
  · exact h c hc
  · obtain rfl := List.mem_singleton.mp hc
    exact hcmd

theorem Holds.log (h : Holds gob dir data []) (hcmd : cmd.Fits) :
    Holds gob (runs dir (logOps cmd)) (apply data cmd) [] := by
  obtain ⟨base, cmds, h, rfl⟩ := h
  refine ⟨base, cmds ++ [cmd], h.setWal rfl (fits_concat h.fits hcmd) ?_ rfl, by simp⟩
  rw [putAll_concat]
  simp [logOps, Op.run, h.wal]

/-- The process dies while it appends: the command is there if its frame is whole. -/
theorem Holds.log_cut (h : Holds gob dir data []) (hcmd : cmd.Fits) (pt : CrashPoint) :
    ∃ tail', Holds gob (crashed dir (logOps cmd) pt)
      (if cmd.Written pt then apply data cmd else data) tail' := by
  obtain ⟨j, b⟩ := pt
  cases j with
  | succ j =>
    rw [if_pos (.inl (Nat.le_add_left 1 j)), logOps, crashed_succ, crashed_nil]
    exact ⟨[], h.log hcmd⟩
  | zero =>
    cases b with
    | none =>
      rw [if_neg (by simp [Command.Written])]
      exact ⟨[], by simpa using h⟩
    | some k =>
      by_cases hk : (frame (encodeCommand cmd)).length ≤ k
      · rw [if_pos (.inr ⟨k, rfl, hk⟩), logOps, crashed_in]
        refine ⟨[], ?_⟩
        have hcut : (Op.append File.wal (frame (encodeCommand cmd))).cut dir k =
            runs dir (logOps cmd) := by
          simp [Op.cut, logOps, Op.run, List.take_of_length_le hk]
        exact hcut ▸ h.log hcmd
      · rw [if_neg (by simp [Command.Written, not_le.mp hk])]
        obtain ⟨base, cmds, h, rfl⟩ := h
        refine ⟨(frame (encodeCommand cmd)).take k, base, cmds, h.setWal rfl h.fits ?_ ?_, rfl⟩
        · simp [logOps, Op.cut, h.wal]
        · exact readFrame_torn ((length_encodeCommand cmd).trans_lt hcmd) (not_le.mp hk)

/-! ## Snapshot -/

/-- The new snapshot over the log it was made from. -/
theorem Made.rename (h : Made gob dir base cmds tail)
    (hs : dir' .snapshot = some (gob.encode (cmds.foldl apply base))) (hw : dir' .wal = dir .wal) :
    Holds gob dir' (cmds.foldl apply base) tail :=
  ⟨cmds.foldl apply base, cmds, ⟨by rw [loadSnapshot, hs]; simp only [gob.roundTrip]; rfl,
    h.fits, by rw [hw, h.wal], h.torn⟩, applyAll_again cmds base⟩

theorem holds_compacted (hs : dir .snapshot = some (gob.encode data))
    (hw : (dir .wal).getD [] = []) : Holds gob dir data [] :=
  ⟨data, [], ⟨by rw [loadSnapshot, hs]; simp only [gob.roundTrip]; rfl, by simp, hw, rfl⟩, rfl⟩

theorem holds_snapshot (gob : Gob) (dir : Directory) (data : Data) :
    Holds gob (runs dir (snapshotOps gob data)) data [] := by
  refine holds_compacted ?_ ?_
  · simp [snapshotOps, Op.run]
  · cases hfile : dir .wal <;> simp [snapshotOps, Op.run, hfile]

theorem Holds.snapshot_cut (h : Holds gob dir data []) (pt : CrashPoint) :
    Holds gob (crashed dir (snapshotOps gob data) pt) data [] := by
  obtain ⟨base, cmds, h, rfl⟩ := h
  let Q : Directory → Prop := fun d => Holds gob d (cmds.foldl apply base) []
  set d₁ := (Op.create File.snapshotTmp (gob.encode (cmds.foldl apply base))).run dir with hd₁
  set d₂ := (Op.rename File.snapshotTmp File.snapshot).run d₁ with hd₂
  set d₃ := (Op.truncate File.wal 0).run d₂ with hd₃
  -- the temporary file is written, renamed, and the log truncated
  have h₁ : Q d₁ := ⟨base, cmds, h.congr rfl rfl, rfl⟩
  have h₂ : Q d₂ := h.rename (by simp [hd₂, hd₁, Op.run]) rfl
  have h₃ : Q d₃ := by
    refine holds_compacted (by simp [hd₃, hd₂, hd₁, Op.run]) ?_
    cases hfile : dir .wal <;> simp [hd₃, hd₂, hd₁, Op.run, hfile]
  have h₄ : ∀ k, Q ((Op.append File.wal ([] : Bytes)).cut d₃ k) := by
    intro k
    refine holds_compacted (by simp [hd₃, hd₂, hd₁, Op.run, Op.cut]) ?_
    cases hfile : dir .wal <;> simp [hd₃, hd₂, hd₁, Op.run, Op.cut, hfile]
  refine crashed_cases (Q := Q) ⟨base, cmds, h, rfl⟩ ?_ (crashed_cases (Q := Q) h₁ ?_
    (crashed_cases (Q := Q) h₂ ?_ (crashed_cases (Q := Q) h₃ h₄ ?_))) pt
  · exact fun k => ⟨base, cmds, h.congr rfl rfl, rfl⟩
  · exact fun _ => h₁
  · exact fun _ => h₂
  · intro pt
    rw [crashed_nil]
    exact holds_snapshot gob dir _

/-! ## Runs -/

def StoreAction.Fits : StoreAction → Prop
  | .call api | .interrupt api _ => ∀ cmd ∈ api.command, cmd.Fits
  | _ => True

/-- The directory gives back `data`; a process that has it open holds the same, and the log is
clean. -/
def StoreState.Keeps (gob : Gob) (s : StoreState) (data : Data) : Prop :=
  ∃ tail, Holds gob s.dir data tail ∧ ∀ mem ∈ s.data, mem = data ∧ tail = []

variable {s t : StoreState} {a : StoreAction}

theorem StoreState.Keeps.running (h : s.Keeps gob data) (hmem : s.data = some mem) :
    Holds gob s.dir mem [] ∧ mem = data := by
  obtain ⟨tail, hholds, hopen⟩ := h
  obtain ⟨rfl, rfl⟩ := hopen mem hmem
  exact ⟨hholds, rfl⟩

theorem Holds.dead (h : Holds gob dir data tail) : (StoreState.mk dir none).Keeps gob data :=
  ⟨tail, h, by simp⟩

theorem StoreState.Keeps.call (h : s.Keeps gob data) (hmem : s.data = some mem) {api : Api}
    (hfits : ∀ cmd ∈ api.command, cmd.Fits) :
    StoreState.Keeps gob ⟨runs s.dir (api.ops gob mem), some (api.command.elim mem (apply mem))⟩
      (api.command.toList.foldl apply data) := by
  obtain ⟨hholds, rfl⟩ := h.running hmem
  unfold Api.ops
  cases hcmd : api.command with
  | none => exact ⟨[], holds_snapshot gob s.dir mem, by simp⟩
  | some cmd => exact ⟨[], hholds.log (hfits cmd hcmd), by simp⟩

theorem StoreState.Keeps.interrupt (h : s.Keeps gob data) (hmem : s.data = some mem) {api : Api}
    (hfits : ∀ cmd ∈ api.command, cmd.Fits) (pt : CrashPoint) :
    StoreState.Keeps gob ⟨crashed s.dir (api.ops gob mem) pt, none⟩
      ((api.command.toList.filter fun cmd => cmd.Written pt).foldl apply data) := by
  obtain ⟨hholds, rfl⟩ := h.running hmem
  unfold Api.ops
  cases hcmd : api.command with
  | none => exact (hholds.snapshot_cut pt).dead
  | some cmd =>
    obtain ⟨tail, hcut⟩ := hholds.log_cut (hfits cmd hcmd) pt
    by_cases hw : cmd.Written pt <;> simp only [hw, if_true, if_false] at hcut <;>
      simpa [hw] using hcut.dead

theorem StoreState.Keeps.step (h : s.Keeps gob data) (ha : a.Fits)
    (hs : storeStep gob s a = some t) : t.Keeps gob (a.commands.foldl apply data) := by
  cases a with
  | call api =>
    obtain ⟨mem, hmem, rfl⟩ := Option.map_eq_some_iff.mp hs
    exact h.call hmem ha
  | interrupt api pt =>
    obtain ⟨mem, hmem, rfl⟩ := Option.map_eq_some_iff.mp hs
    exact h.interrupt hmem ha pt
  | crash =>
    obtain ⟨mem, hmem, rfl⟩ := Option.map_eq_some_iff.mp hs
    obtain ⟨hholds, rfl⟩ := h.running hmem
    exact hholds.dead
  | reopen =>
    obtain ⟨tail, hholds, -⟩ := h
    obtain ⟨ops, hopen, hrun, -⟩ := hholds.openStore
    simp only [storeStep, hopen] at hs
    split at hs
    · rename_i heq
      obtain ⟨rfl, rfl⟩ := Prod.mk.inj (Except.ok.inj heq)
      obtain rfl := Option.some.inj hs
      exact ⟨[], hrun, by simp [StoreAction.commands]⟩
    · cases hs
  | interruptOpen pt =>
    obtain ⟨tail, hholds, -⟩ := h
    obtain ⟨ops, hopen, -, hcrash⟩ := hholds.openStore
    simp only [storeStep, hopen] at hs
    split at hs
    · rename_i heq
      obtain ⟨rfl, rfl⟩ := Prod.mk.inj (Except.ok.inj heq)
      obtain rfl := Option.some.inj hs
      obtain ⟨tail', hcut⟩ := hcrash pt
      exact hcut.dead
    · cases hs

theorem keeps_run {acts : List StoreAction}
    (h : Run (storeStep gob) (fun _ a => a.Fits) {} acts s) :
    s.Keeps gob ((acts.flatMap StoreAction.commands).foldl apply ∅) := by
  induction h with
  | nil => exact ⟨[], holds_empty gob, by simp⟩
  | snoc _ ha hs ih =>
    rw [List.flatMap_append, List.foldl_append, List.flatMap_singleton]
    exact ih.step ha hs

/-- Whatever was interrupted, opening the directory gives the map that the acknowledged commands
make, and in each place where a command was interrupted perhaps that one. -/
theorem store_durable {acts : List StoreAction}
    (h : Run (storeStep gob) (fun _ a => a.Fits) {} acts s) :
    (∃ ops, openStore gob s.dir =
        .ok ((acts.flatMap StoreAction.commands).foldl apply ∅, ops)) ∧
      ∀ data ∈ s.data, data = (acts.flatMap StoreAction.commands).foldl apply ∅ := by
  obtain ⟨tail, hholds, hopen⟩ := keeps_run h
  obtain ⟨ops, hok, -⟩ := hholds.openStore
  exact ⟨⟨ops, hok⟩, fun data hdata => (hopen data hdata).1⟩

/-- There are countably many maps, so they can be written down. -/
theorem gob_exists : Nonempty Gob := by
  have : Countable UInt8 := Function.Injective.countable fun a b => UInt8.toNat_inj.mp
  have hinj : Function.Injective
      (Finmap.entries : Data → Multiset (Sigma fun _ : Bytes => Bytes)) := fun _ _ => Finmap.ext
  obtain ⟨f, hf⟩ := hinj.countable.exists_injective_nat
  exact ⟨fun data => List.replicate (f data) 0, fun raw => .ok (Function.invFun f raw.length),
    fun data => by rw [List.length_replicate, Function.leftInverse_invFun hf]⟩

/-- A process writes a key, dies nine bytes into the next record, and the first value is there. -/
theorem store_durable_torn : ∃ gob s,
    Run (storeStep gob) (fun _ a => a.Fits) {}
      [.reopen, .call (.put [1] [2]), .interrupt (.put [1] [3]) ⟨0, some 9⟩] s ∧
    ∃ ops, openStore gob s.dir = .ok ((∅ : Data).set [1] [2], ops) := by
  obtain ⟨gob⟩ := gob_exists
  have hrun := Run.get (storeStep gob) (fun _ a => a.Fits) {}
    [.reopen, .call (.put [1] [2]), .interrupt (.put [1] [3]) ⟨0, some 9⟩]
    (.of_forall (fun _ a ha => by
      simp only [List.mem_cons, List.not_mem_nil, or_false] at ha
      rcases ha with rfl | rfl | rfl <;> simp [StoreAction.Fits, Api.command, Command.Fits]) _) rfl
  exact ⟨gob, _, hrun, (store_durable hrun).1⟩

/-- An acknowledged value of 4 GiB less five bytes, under the empty key, is not there when the
directory is opened again. -/
theorem put_lost : ∃ gob s value, value.length = 2 ^ 32 - 5 ∧
    Run (storeStep gob) (fun _ _ => True) {} [.reopen, .call (.put [] value), .crash] s ∧
    ∀ data ops, openStore gob s.dir = .ok (data, ops) → data.get [] = none := by
  obtain ⟨gob⟩ := gob_exists
  obtain ⟨value, hvalue⟩ : ∃ value : Bytes, value.length = 2 ^ 32 - 5 :=
    ⟨List.replicate (2 ^ 32 - 5) 0, List.length_replicate⟩
  have hrun := Run.get (storeStep gob) (fun _ _ => True) {}
    [.reopen, .call (.put [] value), .crash] (.of_forall (fun _ _ _ => trivial) _) rfl
  refine ⟨gob, _, value, hvalue, hrun, fun data ops hopen => ?_⟩
  have hlen : (encodeCommand ⟨opPut, [], value⟩).length = 2 ^ 32 := by
    rw [length_encodeCommand, hvalue]
    norm_num
  obtain ⟨base, n, hbase, hreplay⟩ := openStore_ok hopen
  obtain rfl : ∅ = base := Except.ok.inj hbase
  have hnone : ∀ p ∈ ([] : List Bytes), p.length < 2 ^ 32 := by simp
  have hdata : data = ∅ := replayWAL_wrapped hnone rfl hlen ⟨_, rfl⟩ hreplay
  rw [hdata, Table.get_empty]

end KMC.Storage
