import KillMyCluster.Storage.Durable
import KillMyCluster.Storage.Replay

/-! Writes whose fsync fails. `logAndApply` leaves the record of such a write in the file and the
map in memory as it was; the file then runs ahead of memory until a write of the same key
returns nil. -/

namespace KMC.Storage

open Files Trace

/-- An open store, and the commands that were refused since the last call that returned nil. -/
structure Session where
  dir : Directory
  data : Data
  refused : List Command := []

structure Write where
  api : Api
  synced : Bool

def sessionStep (s : Session) (w : Write) : Option Session :=
  w.api.command.map fun cmd =>
    let dir := runs s.dir (logOps cmd)
    if w.synced then { dir := dir, data := apply s.data cmd }
    else { s with dir := dir, refused := s.refused ++ [cmd] }

def openSession (gob : Gob) (dir : Directory) : Except Failure Session :=
  (openStore gob dir).map fun (data, ops) => { dir := runs dir ops, data := data }

/-! ## What the file makes -/

/-- The log holds whole records only, and over the snapshot they make `data`. -/
def Rebuilds (gob : Gob) (dir : Directory) (data : Data) : Prop :=
  ∃ base ps, loadSnapshot gob dir = .ok base ∧ (∀ p ∈ ps, p.length < 2 ^ 32) ∧
    (dir .wal).getD [] = frames.putAll ps ∧ ps.foldlM replayCommand base = .ok data

variable {gob : Gob} {dir : Directory} {data : Data} {cmd : Command} {s t : Session} {w : Write}

theorem Rebuilds.openStore (h : Rebuilds gob dir data) :
    ∃ ops, openStore gob dir = .ok (data, ops) := by
  obtain ⟨base, ps, hbase, hps, hwal, hfold⟩ := h
  have hreplay := replayWAL_frames hps (show readFrame [] = none from rfl)
    (hwal.trans (List.append_nil _).symm) hfold
  refine ⟨reopenOps dir .wal (frames.putAll ps).length, ?_⟩
  simp only [Storage.openStore, hbase, bind, Except.bind, hreplay]
  rfl

/-- Opening cuts off what is no record. -/
theorem rebuilds_opened (h : openSession gob dir = .ok s) :
    Rebuilds gob s.dir s.data ∧ s.refused = [] := by
  unfold openSession at h
  cases hopen : openStore gob dir with
  | error err => rw [hopen] at h; cases h
  | ok x =>
    obtain ⟨data, ops⟩ := x
    rw [hopen] at h
    obtain rfl : Session.mk (runs dir ops) data [] = s := Except.ok.inj h
    obtain ⟨base, n, hbase, hreplay⟩ := openStore_ok hopen
    obtain ⟨ps, tail, hwal, hps, -, rfl, hfold⟩ := replayWAL_ok hreplay
    have hops : ops = reopenOps dir .wal (frames.putAll ps).length := by
      simp only [Storage.openStore, hbase, bind, Except.bind, hreplay] at hopen
      exact (Prod.mk.inj (Except.ok.inj hopen)).2.symm
    obtain ⟨hw, hs⟩ := runs_reopenOps dir .wal (frames.putAll ps).length
    refine ⟨⟨base, ps, ?_, hps, ?_, hfold⟩, rfl⟩
    · rw [hops, loadSnapshot_congr (hs .snapshot (by decide)), hbase]
    · simp only [hops, hw, hwal, Option.getD_some, List.take_left' rfl]

theorem Rebuilds.log (h : Rebuilds gob dir data) (hcmd : cmd.Fits) :
    Rebuilds gob (runs dir (logOps cmd)) (apply data cmd) := by
  obtain ⟨base, ps, hbase, hps, hwal, hfold⟩ := h
  refine ⟨base, ps ++ [encodeCommand cmd], hbase, fun p hp => ?_, ?_, ?_⟩
  · rcases List.mem_append.mp hp with hp | hp
    · exact hps p hp
    · obtain rfl := List.mem_singleton.mp hp
      exact (length_encodeCommand cmd).trans_lt hcmd
  · rw [Framing.Code.putAll_append, Framing.Code.putAll_cons, Framing.Code.putAll_nil,
      List.append_nil]
    simp only [logOps, runs_cons, runs_nil, Op.run, Function.update_self, Option.getD_some, hwal]
    rfl
  · have hreplay := replay_commands (fun c hc => List.mem_singleton.mp hc ▸ hcmd) data
    rw [List.map_singleton, List.foldl_cons, List.foldl_nil] at hreplay
    simp only [List.foldlM_append, hfold, bind, Except.bind]
    exact hreplay

/-! ## Writes of one key -/

/-- The command is one that `Put` or `Delete` logs. -/
theorem Api.command_writes {api : Api} (h : api.command = some cmd) :
    ∃ o, cmd.writes = [(cmd.key, o)] := by
  cases api with
  | put key value =>
    obtain rfl := Option.some.inj h
    exact ⟨some value, rfl⟩
  | delete key =>
    obtain rfl := Option.some.inj h
    exact ⟨none, rfl⟩
  | snapshot => cases h

theorem apply_key_ne (data : Data) {k : Bytes} (hk : k ≠ cmd.key) :
    (apply data cmd).get k = data.get k := by
  unfold apply
  split
  · exact Table.get_set_ne _ _ hk
  split
  · rw [Table.get_delete, if_neg hk]
  · rfl

theorem applyAll_key_ne {cmds : List Command} {key k : Bytes} (h : ∀ c ∈ cmds, c.key = key)
    (hk : k ≠ key) (data : Data) : (cmds.foldl apply data).get k = data.get k := by
  induction cmds generalizing data with
  | nil => rfl
  | cons c cmds ih =>
    rw [List.foldl_cons, ih fun x hx => h x (List.mem_cons_of_mem c hx),
      apply_key_ne data (by rw [h c List.mem_cons_self]; exact hk)]

/-- The last write of a key makes the earlier ones forgotten. -/
theorem apply_overwrites {api : Api} (hcmd : api.command = some cmd) {cmds : List Command}
    (h : ∀ c ∈ cmds, c.key = cmd.key) (data : Data) :
    apply (cmds.foldl apply data) cmd = apply data cmd := by
  obtain ⟨o, ho⟩ := Api.command_writes hcmd
  refine Table.ext_get fun k => ?_
  by_cases hk : k = cmd.key
  · simp only [apply_eq_writes, ho, List.foldl_cons, List.foldl_nil, Table.get_write, if_pos hk]
  · rw [apply_key_ne _ hk, apply_key_ne _ hk, applyAll_key_ne h hk]

/-! ## Sessions -/

/-- The payload is shorter than 4 GiB; and a write that returns nil is of the key of all writes that
were refused since the last one that did. -/
def Write.Retries (s : Session) (w : Write) : Prop :=
  ∀ cmd ∈ w.api.command, cmd.Fits ∧ (w.synced = true → ∀ c ∈ s.refused, c.key = cmd.key)

/-- The file holds what memory holds and then the refused commands. -/
theorem Rebuilds.step (h : Rebuilds gob s.dir (s.refused.foldl apply s.data)) (hw : w.Retries s)
    (hs : sessionStep s w = some t) : Rebuilds gob t.dir (t.refused.foldl apply t.data) := by
  obtain ⟨cmd, hcmd, rfl⟩ := Option.map_eq_some_iff.mp hs
  obtain ⟨hfits, hkeys⟩ := hw cmd hcmd
  have hlog := h.log hfits
  simp only
  split
  · rename_i hsync
    rwa [apply_overwrites hcmd (hkeys hsync)] at hlog
  · rwa [List.foldl_append]

theorem rebuilds_run {ws : List Write} (h : Rebuilds gob s.dir (s.refused.foldl apply s.data))
    (hr : Run sessionStep (fun s w => w.Retries s) s ws t) :
    Rebuilds gob t.dir (t.refused.foldl apply t.data) := by
  induction hr with
  | nil => exact h
  | snoc _ hw hs ih => exact ih.step hw hs

/-- Whenever the last call returned nil, opening the directory would give the map in memory. -/
theorem reopened_data {ws : List Write} (hopen : openSession gob dir = .ok s)
    (hr : Run sessionStep (fun s w => w.Retries s) s ws t) (hnil : t.refused = []) :
    ∃ ops, openStore gob t.dir = .ok (t.data, ops) := by
  obtain ⟨hstart, hnone⟩ := rebuilds_opened hopen
  have hrun := rebuilds_run (by rw [hnone]; exact hstart) hr
  rw [hnil] at hrun
  exact hrun.openStore

/-- A put is refused, and the same key is put again. -/
theorem reopened_data_retried : ∃ gob s t,
    openSession gob (fun _ => none) = .ok s ∧
    Run sessionStep (fun s w => w.Retries s) s [⟨.put [1] [2], false⟩, ⟨.put [1] [3], true⟩] t ∧
    t.data = (∅ : Data).set [1] [3] ∧ ∃ ops, openStore gob t.dir = .ok (t.data, ops) := by
  obtain ⟨gob⟩ := gob_exists
  obtain ⟨s, hs⟩ : ∃ s, openSession gob (fun _ => none) = .ok s := ⟨_, rfl⟩
  have hdata : s.data = ∅ ∧ s.refused = [] := by
    obtain rfl := Except.ok.inj hs
    exact ⟨rfl, rfl⟩
  have hrun := Run.get sessionStep (fun s w => w.Retries s) s
    [⟨.put [1] [2], false⟩, ⟨.put [1] [3], true⟩]
    (by simp [Along, sessionStep, Write.Retries, Api.command, Command.Fits, hdata.2]) rfl
  refine ⟨gob, s, _, hs, hrun, ?_, reopened_data hs hrun rfl⟩
  rw [← hdata.1]
  rfl

/-- A put is refused; a put of another key returns nil; the refused one is there as soon as the
directory is opened again. -/
theorem refused_put_reopened : ∃ gob s t ops data,
    openSession gob (fun _ => none) = .ok s ∧
    Run sessionStep (fun _ _ => True) s [⟨.put [1] [2], false⟩, ⟨.put [7] [8], true⟩] t ∧
    t.refused = [] ∧ t.data.get [1] = none ∧
    openStore gob t.dir = .ok (data, ops) ∧ data.get [1] = some [2] := by
  obtain ⟨gob⟩ := gob_exists
  obtain ⟨s, hs⟩ : ∃ s, openSession gob (fun _ => none) = .ok s := ⟨_, rfl⟩
  obtain ⟨hstart, hnone⟩ := rebuilds_opened hs
  have hdata : s.data = ∅ := by
    obtain rfl := Except.ok.inj hs
    rfl
  have hrun := Run.get sessionStep (fun _ _ => True) s
    [⟨.put [1] [2], false⟩, ⟨.put [7] [8], true⟩] (.of_forall (fun _ _ _ => trivial) _) rfl
  have hlog := (hstart.log (show (⟨opPut, [1], [2]⟩ : Command).Fits by simp [Command.Fits])).log
    (show (⟨opPut, [7], [8]⟩ : Command).Fits by simp [Command.Fits])
  obtain ⟨ops, hopen⟩ := hlog.openStore
  refine ⟨gob, s, _, ops, _, hs, hrun, rfl, ?_, hopen, ?_⟩
  · show (apply s.data ⟨opPut, [7], [8]⟩).get [1] = none
    rw [hdata]
    decide
  · rw [hdata]
    decide

end KMC.Storage
