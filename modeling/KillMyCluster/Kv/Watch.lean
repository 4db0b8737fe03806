import KillMyCluster.Kv.Dedup
import Mathlib.Logic.Function.Iterate

/-! What a command stores, and who hears of it. Put, CAS and Checkpoint write the map each in a
branch of its own; the first two call `notifyLocked` for the key they wrote, the third does not.
Checkpoints are kept in the same map as the keys of the clients, under a prefix that nothing
reserves. -/

namespace KMC

/-! ## The branches of `Apply` -/

inductive Stmt where
  | store (key : Bytes) (value : Slice)
  | notifyLocked (key : Bytes) (value : Slice) (found : Bool)
deriving DecidableEq

namespace Command

def branch (data : Table Bytes Slice) (cmd : Command) : List Stmt :=
  if cmd.op = opGet then []
  else if cmd.op = opPut then
    [.store cmd.key cmd.value, .notifyLocked cmd.key cmd.value true]
  else if cmd.op = opCAS then
    match data.get cmd.key with
    | none =>
      if cmd.expect.bytes ≠ [] then []
      else [.store cmd.key cmd.value, .notifyLocked cmd.key cmd.value true]
    | some cur =>
      if cur.bytes = cmd.expect.bytes then
        [.store cmd.key cmd.value, .notifyLocked cmd.key cmd.value true]
      else []
  else if cmd.op = opCheckpoint then [.store (checkpointKey cmd.clientID) cmd.value]
  else []

/-- A branch is empty, or it stores and tells, or it is a checkpoint. -/
theorem branch_cases (data : Table Bytes Slice) (cmd : Command) :
    (branch data cmd = [] ∧ (Machine.execute data cmd).1 = data) ∨
    (branch data cmd = [.store cmd.key cmd.value, .notifyLocked cmd.key cmd.value true] ∧
      (Machine.execute data cmd).1 = data.set cmd.key cmd.value ∧
      (cmd.op = opPut ∨ cmd.op = opCAS)) ∨
    (branch data cmd = [.store (checkpointKey cmd.clientID) cmd.value] ∧
      (Machine.execute data cmd).1 = data.set (checkpointKey cmd.clientID) cmd.value ∧
      cmd.op = opCheckpoint) := by
  unfold branch Machine.execute
  by_cases hget : cmd.op = opGet
  · simp only [hget, if_true]
    exact .inl ⟨trivial, by split <;> rfl⟩
  by_cases hput : cmd.op = opPut
  · simp only [hput, if_true]
    exact .inr (.inl ⟨rfl, rfl, .inl trivial⟩)
  by_cases hcas : cmd.op = opCAS
  · simp only [hcas, if_true]
    cases data.get cmd.key with
    | none =>
      by_cases he : cmd.expect.bytes = []
      · exact .inr (.inl (by simp [he, opGet, opPut, opCAS]))
      · exact .inl (by simp [he, opGet, opPut, opCAS])
    | some cur =>
      by_cases he : cur.bytes = cmd.expect.bytes
      · exact .inr (.inl (by simp [he, opGet, opPut, opCAS]))
      · exact .inl (by simp [he, opGet, opPut, opCAS])
  by_cases hckpt : cmd.op = opCheckpoint
  · exact .inr (.inr (by simp [hckpt, opGet, opPut, opCAS, opCheckpoint]))
  · simp [hget, hput, hcas, hckpt]

end Command

namespace Machine

/-- The gate of `Apply`: the request has its result in the table. -/
def hits (m : Machine) (cmd : Command) : Bool :=
  cmd.tracked && (m.applied.get cmd.dedupKey).isSome

def Stores (m : Machine) (cmd : Command) (key : Bytes) (value : Slice) : Prop :=
  m.hits cmd = false ∧ Stmt.store key value ∈ cmd.branch m.data

variable {m : Machine} {cmd : Command}

theorem apply_of_hits (h : m.hits cmd = true) :
    (m.apply cmd).1 = m ∧ (m.apply cmd).2.duplicate = true := by
  obtain ⟨ht, hsome⟩ : cmd.tracked = true ∧ (m.applied.get cmd.dedupKey).isSome = true := by
    simpa [hits] using h
  obtain ⟨prev, hprev⟩ := Option.isSome_iff_exists.mp hsome
  rw [apply_hit ht hprev]
  exact ⟨rfl, rfl⟩

theorem data_ran (m : Machine) (cmd : Command) : (m.ran cmd).data = (execute m.data cmd).1 := by
  unfold ran remember
  split
  · simp only
    split <;> rfl
  · rfl

theorem apply_of_not_hits (h : m.hits cmd = false) :
    (m.apply cmd).1.data = (execute m.data cmd).1 ∧ (m.apply cmd).2.duplicate = false := by
  rw [apply_run fun ht => by simpa [hits, ht] using h]
  exact ⟨m.data_ran cmd, execute_duplicate m.data cmd⟩

theorem Stores.data {key : Bytes} {value : Slice} (h : m.Stores cmd key value) :
    (m.apply cmd).1.data = m.data.set key value := by
  rw [(apply_of_not_hits h.1).1]
  have hmem := h.2
  rcases cmd.branch_cases m.data with ⟨hb, -⟩ | ⟨hb, hd, -⟩ | ⟨hb, hd, -⟩ <;> rw [hb] at hmem
  · cases hmem
  · obtain ⟨rfl, rfl⟩ : key = cmd.key ∧ value = cmd.value := by simpa using hmem
    exact hd
  · obtain ⟨rfl, rfl⟩ : key = checkpointKey cmd.clientID ∧ value = cmd.value := by
      simpa using hmem
    exact hd

theorem data_of_not_stores (h : ∀ key value, ¬ m.Stores cmd key value) :
    (m.apply cmd).1.data = m.data := by
  by_cases hh : m.hits cmd = true
  · rw [(apply_of_hits hh).1]
  · have hf : m.hits cmd = false := by simpa using hh
    rw [(apply_of_not_hits hf).1]
    rcases cmd.branch_cases m.data with ⟨-, hd⟩ | ⟨hb, -⟩ | ⟨hb, -⟩
    · exact hd
    · exact absurd ⟨hf, by simp [hb]⟩ (h cmd.key cmd.value)
    · exact absurd ⟨hf, by simp [hb]⟩ (h (checkpointKey cmd.clientID) cmd.value)

end Machine

/-! ## Watchers -/

structure WatchEvent where
  key : Bytes
  value : Slice
  found : Bool
deriving DecidableEq

structure Chan where
  cap : ℕ
  buf : List WatchEvent := []

namespace Chan

def Free (ch : Chan) : Prop := ch.buf.length < ch.cap

instance (ch : Chan) : Decidable ch.Free := inferInstanceAs (Decidable (_ < _))

/-- A send in a `select` with a default: the event is dropped if there is no room. -/
def offer (ev : WatchEvent) (ch : Chan) : Chan :=
  if ch.Free then { ch with buf := ch.buf ++ [ev] } else ch

/-- As many events as there is room for. -/
theorem iterate_offer (ev : WatchEvent) (n : ℕ) (ch : Chan) : ((offer ev)^[n] ch).buf =
    ch.buf ++ List.replicate (min n (ch.cap - ch.buf.length)) ev := by
  induction n generalizing ch with
  | zero => simp
  | succ n ih =>
    rw [Function.iterate_succ_apply, ih, offer]
    split
    · rename_i hfree
      have hroom : min (n + 1) (ch.cap - ch.buf.length) =
          min n (ch.cap - (ch.buf.length + 1)) + 1 := by
        unfold Free at hfree
        omega
      simp [hroom, List.replicate_succ]
    · rename_i hfull
      have hnone : ch.cap - ch.buf.length = 0 := by
        unfold Free at hfull
        omega
      simp [hnone]

end Chan

/-- The machine with its watchers, by key in the order of registration, and the channels. -/
structure Watched where
  machine : Machine := {}
  watchers : Table Bytes (List ℕ) := ∅
  chans : ℕ → Chan

namespace Watched

variable {w : Watched} {cmd : Command}

def subs (w : Watched) (key : Bytes) : List ℕ := (w.watchers.get key).getD []

def watch (w : Watched) (key : Bytes) (ch : ℕ) : Watched :=
  { w with watchers := w.watchers.set key (w.subs key ++ [ch]) }

def unwatch (w : Watched) (key : Bytes) (ch : ℕ) : Watched :=
  if ch ∈ w.subs key then { w with watchers := w.watchers.set key ((w.subs key).erase ch) } else w

def notifyLocked (w : Watched) (key : Bytes) (value : Slice) (found : Bool) : Watched :=
  let ev : WatchEvent := ⟨key, value, found⟩
  { w with
    chans := (w.subs key).foldl (fun chans ch => Function.update chans ch ((chans ch).offer ev))
      w.chans }

/-- The statements of a branch as far as the watchers see them. -/
def tell (w : Watched) : Stmt → Watched
  | .store _ _ => w
  | .notifyLocked key value found => w.notifyLocked key value found

def apply (w : Watched) (cmd : Command) : Watched × ApplyResult :=
  let told := if w.machine.hits cmd then w else (cmd.branch w.machine.data).foldl tell w
  ({ told with machine := (w.machine.apply cmd).1 }, (w.machine.apply cmd).2)

/-- A channel is offered the event once for each time it is registered. -/
theorem chans_foldl (ev : WatchEvent) (subs : List ℕ) (chans : ℕ → Chan) (ch : ℕ) :
    subs.foldl (fun chans ch => Function.update chans ch ((chans ch).offer ev)) chans ch =
      (Chan.offer ev)^[subs.count ch] (chans ch) := by
  induction subs generalizing chans with
  | nil => rfl
  | cons x subs ih =>
    rw [List.foldl_cons, ih]
    by_cases hx : x = ch
    · subst hx
      rw [Function.update_self, List.count_cons_self, Function.iterate_succ_apply]
    · rw [Function.update_of_ne (Ne.symm hx), List.count_cons_of_ne hx]

theorem chans_told (h : ∀ key value, ¬ w.machine.Stores cmd key value) :
    (w.apply cmd).1.chans = w.chans := by
  unfold apply
  simp only
  split
  · rfl
  · rename_i hh
    have hf : w.machine.hits cmd = false := by simpa using hh
    rcases cmd.branch_cases w.machine.data with ⟨hb, -⟩ | ⟨hb, -⟩ | ⟨hb, -⟩
    · rw [hb]
      rfl
    · exact absurd ⟨hf, by simp [hb]⟩ (h cmd.key cmd.value)
    · exact absurd ⟨hf, by simp [hb]⟩ (h (checkpointKey cmd.clientID) cmd.value)

theorem chans_of_stores {key : Bytes} {value : Slice} (h : w.machine.Stores cmd key value)
    (hop : cmd.op ≠ opCheckpoint) (ch : ℕ) :
    (w.apply cmd).1.chans ch =
      (Chan.offer ⟨key, value, true⟩)^[(w.subs key).count ch] (w.chans ch) := by
  obtain ⟨hf, hmem⟩ := h
  unfold apply
  simp only [hf, Bool.false_eq_true, if_false]
  rcases cmd.branch_cases w.machine.data with ⟨hb, -⟩ | ⟨hb, -⟩ | ⟨-, -, hc⟩
  · rw [hb] at hmem
    cases hmem
  · rw [hb] at hmem ⊢
    obtain ⟨rfl, rfl⟩ : key = cmd.key ∧ value = cmd.value := by simpa using hmem
    exact chans_foldl _ _ _ ch
  · exact absurd hc hop

theorem chans_of_checkpoint {key : Bytes} {value : Slice} (h : w.machine.Stores cmd key value)
    (hop : cmd.op = opCheckpoint) : (w.apply cmd).1.chans = w.chans := by
  obtain ⟨hf, hmem⟩ := h
  unfold apply
  simp only [hf, Bool.false_eq_true, if_false]
  rcases cmd.branch_cases w.machine.data with ⟨hb, -⟩ | ⟨-, -, hput | hcas⟩ | ⟨hb, -⟩
  · rw [hb]
    rfl
  · rw [hop] at hput
    cases hput
  · rw [hop] at hcas
    cases hcas
  · rw [hb]
    rfl

end Watched

/-- A change reaches a channel that is registered for its key and has room, as one event with the
new value, if and only if it was made by a Put or a CAS and the channel is registered once or has
room for one event only; where nothing is stored nothing is sent. -/
theorem changes_watched (w : Watched) (cmd : Command) :
    (∀ key value, w.machine.Stores cmd key value →
      (w.apply cmd).1.machine.data = w.machine.data.set key value ∧
      ∀ ch ∈ w.subs key, (w.chans ch).Free →
        (((w.apply cmd).1.chans ch).buf = (w.chans ch).buf ++ [⟨key, value, true⟩] ↔
          cmd.op ≠ opCheckpoint ∧
            ((w.subs key).count ch = 1 ∨ (w.chans ch).buf.length + 1 = (w.chans ch).cap))) ∧
    ((∀ key value, ¬ w.machine.Stores cmd key value) →
      (w.apply cmd).1.machine.data = w.machine.data ∧ (w.apply cmd).1.chans = w.chans) := by
  refine ⟨fun key value h => ⟨h.data, fun ch hch hfree => ?_⟩, fun h =>
    ⟨Machine.data_of_not_stores h, Watched.chans_told h⟩⟩
  by_cases hop : cmd.op = opCheckpoint
  · simp [Watched.chans_of_checkpoint h hop, hop]
  · have hcount := List.count_pos_iff.mpr hch
    have hone : ∀ (n : ℕ) (ev : WatchEvent), List.replicate n ev = [ev] ↔ n = 1 := by
      intro n ev
      rcases n with _ | _ | n <;> simp [List.replicate_succ]
    rw [Watched.chans_of_stores h hop, Chan.iterate_offer, List.append_right_inj, hone]
    simp only [ne_eq, hop, not_false_eq_true, true_and]
    unfold Chan.Free at hfree
    omega

def watching (key : Bytes) : Watched := Watched.watch { chans := fun _ => { cap := 8 } } key 0

def putTwo : Command :=
  { op := opPut, clientID := [1], requestID := 1, key := [2], value := some [3] }

def checkpointOne : Command :=
  { op := opCheckpoint, clientID := [1], requestID := 1, value := some [3] }

/-- The Put is heard of, and a Get of the key is not. -/
theorem changes_watched_put :
    (((watching [2]).apply putTwo).1.chans 0).buf = [⟨[2], some [3], true⟩] ∧
    ((watching [2]).apply { putTwo with op := opGet }).1.chans = (watching [2]).chans := by
  constructor
  · exact (((changes_watched (watching [2]) putTwo).1 [2] (some [3])
      ⟨by decide, by decide⟩).2 0 (by decide) (by decide)).mpr ⟨by decide, .inl (by decide)⟩
  · refine ((changes_watched (watching [2]) { putTwo with op := opGet }).2 ?_).2
    rintro key value ⟨-, hmem⟩
    cases hmem

/-- A checkpoint is stored and nobody who watches its key hears of it; a channel that is registered
twice hears of a Put twice. -/
theorem checkpoint_not_watched :
    ((watching (checkpointKey [1])).machine.Stores checkpointOne (checkpointKey [1]) (some [3]) ∧
      ((watching (checkpointKey [1])).subs (checkpointKey [1])).count 0 = 1 ∧
      ((watching (checkpointKey [1])).chans 0).Free ∧
      (((watching (checkpointKey [1])).apply checkpointOne).1.chans 0).buf = []) ∧
    ((((watching [2]).watch [2] 0).apply putTwo).1.chans 0).buf =
      [⟨[2], some [3], true⟩, ⟨[2], some [3], true⟩] := by
  refine ⟨⟨⟨by decide, by decide⟩, by decide, by decide, by decide⟩, by decide⟩

/-! ## Checkpoints -/

theorem checkpointKey_inj {a b : Bytes} (h : checkpointKey a = checkpointKey b) : a = b :=
  List.append_cancel_left h

def Command.Checkpoints (cmd : Command) (client : Bytes) : Prop :=
  cmd.op = opCheckpoint ∧ cmd.clientID = client

instance (cmd : Command) (client : Bytes) : Decidable (cmd.Checkpoints client) :=
  inferInstanceAs (Decidable (_ ∧ _))

namespace Machine

variable {m : Machine} {cmd : Command} {client : Bytes}

/-- What `ReadCheckpoint` answers once the read is confirmed. -/
def readCheckpoint (m : Machine) (client : Bytes) : Slice × Bool := m.get (checkpointKey client)

def answers (cmds : List Command) : List (Command × ApplyResult) :=
  cmds.zip (newMachine.applyAll cmds).2

/-- The value of the client's last checkpoint that was not a duplicate. -/
def lastCheckpoint (client : Bytes) (cmds : List Command) : Option Slice :=
  ((answers cmds).filter fun (cmd, res) =>
    cmd.Checkpoints client ∧ res.duplicate = false).getLast?.map fun (cmd, _) => cmd.value

theorem length_applyAll (m : Machine) (cmds : List Command) :
    (m.applyAll cmds).2.length = cmds.length := by
  induction cmds generalizing m with
  | nil => rfl
  | cons cmd cmds ih =>
    simp only [applyAll, List.length_cons]
    rw [ih]

theorem answers_concat (cmds : List Command) (cmd : Command) :
    answers (cmds ++ [cmd]) =
      answers cmds ++ [(cmd, ((newMachine.applyAll cmds).1.apply cmd).2)] := by
  rw [answers, applyAll_append, List.zip_append (by rw [length_applyAll])]
  rfl

theorem lastCheckpoint_concat (client : Bytes) (cmds : List Command) (cmd : Command) :
    lastCheckpoint client (cmds ++ [cmd]) =
      if cmd.Checkpoints client ∧ (newMachine.applyAll cmds).1.hits cmd = false then some cmd.value
      else lastCheckpoint client cmds := by
  have hdup : ((newMachine.applyAll cmds).1.apply cmd).2.duplicate =
      (newMachine.applyAll cmds).1.hits cmd := by
    cases hh : (newMachine.applyAll cmds).1.hits cmd with
    | true => exact (apply_of_hits hh).2
    | false => exact (apply_of_not_hits hh).2
  rw [lastCheckpoint, answers_concat, List.filter_append]
  split
  · rename_i h
    simp [hdup, h.1, h.2]
  · rename_i h
    rw [List.filter_singleton]
    simp [hdup, h, lastCheckpoint]

/-- A command that neither checkpoints the client nor names the key leaves the value alone. -/
theorem checkpoint_apply_other (hck : ¬ cmd.Checkpoints client)
    (hkey : cmd.op = opPut ∨ cmd.op = opCAS → cmd.key ≠ checkpointKey client) :
    (m.apply cmd).1.data.get (checkpointKey client) = m.data.get (checkpointKey client) := by
  cases hh : m.hits cmd with
  | true => rw [(apply_of_hits hh).1]
  | false =>
    rw [(apply_of_not_hits hh).1]
    rcases cmd.branch_cases m.data with ⟨-, hd⟩ | ⟨-, hd, hop⟩ | ⟨-, hd, hop⟩
    · rw [hd]
    · rw [hd, Table.get_set_ne _ _ (Ne.symm (hkey hop))]
    · rw [hd, Table.get_set_ne]
      exact fun heq => hck ⟨hop, (checkpointKey_inj heq).symm⟩

theorem checkpoint_apply_own (hck : cmd.Checkpoints client) (hh : m.hits cmd = false) :
    (m.apply cmd).1.data.get (checkpointKey client) = some cmd.value := by
  obtain ⟨hop, rfl⟩ := hck
  have hs : m.Stores cmd (checkpointKey cmd.clientID) cmd.value := by
    refine ⟨hh, ?_⟩
    simp [Command.branch, hop, opGet, opPut, opCAS, opCheckpoint]
  rw [hs.data, Table.get_set_self]

theorem get_checkpointKey {cmds : List Command}
    (h : ∀ cmd ∈ cmds, cmd.op = opPut ∨ cmd.op = opCAS → cmd.key ≠ checkpointKey client) :
    (newMachine.applyAll cmds).1.data.get (checkpointKey client) = lastCheckpoint client cmds := by
  induction cmds using List.reverseRecOn with
  | nil => rfl
  | append_singleton cmds cmd ih =>
    have hprev := ih fun x hx => h x (List.mem_append_left _ hx)
    have hkey := h cmd (List.mem_append_right _ (List.mem_singleton_self _))
    rw [lastCheckpoint_concat, applyAll_append]
    change ((newMachine.applyAll cmds).1.apply cmd).1.data.get _ = _
    by_cases hck : cmd.Checkpoints client
    · cases hh : (newMachine.applyAll cmds).1.hits cmd with
      | true => rw [if_neg (by simp), (apply_of_hits hh).1, hprev]
      | false => rw [if_pos ⟨hck, rfl⟩, checkpoint_apply_own hck hh]
    · rw [if_neg fun hif => hck hif.1, checkpoint_apply_other hck hkey, hprev]

end Machine

open Machine in
/-- If no Put and no CAS names the client's checkpoint key, what is stored there is the client's
last checkpoint that was not a duplicate, and no other command changes it. -/
theorem checkpoints_isolated (client : Bytes) (cmds : List Command)
    (h : ∀ cmd ∈ cmds, cmd.op = opPut ∨ cmd.op = opCAS → cmd.key ≠ checkpointKey client) :
    (newMachine.applyAll cmds).1.data.get (checkpointKey client) = lastCheckpoint client cmds ∧
    (newMachine.applyAll cmds).1.readCheckpoint client =
      ((lastCheckpoint client cmds).getD none, (lastCheckpoint client cmds).isSome) ∧
    ∀ k cmd, cmds[k]? = some cmd → ¬ cmd.Checkpoints client →
      (stateAt cmds (k + 1)).data.get (checkpointKey client) =
        (stateAt cmds k).data.get (checkpointKey client) := by
  have hget := get_checkpointKey h
  refine ⟨hget, by rw [readCheckpoint, Machine.get, hget], fun k cmd hk hck => ?_⟩
  rw [stateAt_succ hk]
  exact checkpoint_apply_other hck (h cmd (List.mem_of_getElem? hk))

open Machine in
/-- Two checkpoints of client 1, the second a retry of the first, and a Put of another key. -/
theorem checkpoints_isolated_retried :
    (newMachine.applyAll [checkpointOne, { checkpointOne with value := some [4] },
      { putTwo with requestID := 2 }]).1.readCheckpoint [1] = (some [3], true) := by
  have h := (checkpoints_isolated [1] [checkpointOne, { checkpointOne with value := some [4] },
    { putTwo with requestID := 2 }] (by decide)).2.1
  rw [h]
  decide

open Machine in
/-- A Put of the checkpoint key by another client takes the checkpoint's place. -/
theorem checkpoint_overwritten :
    let cmds : List Command := [checkpointOne,
      { op := opPut, clientID := [2], requestID := 1, key := checkpointKey [1], value := some [9] }]
    lastCheckpoint [1] cmds = some (some [3]) ∧
      (newMachine.applyAll cmds).1.readCheckpoint [1] = (some [9], true) := by
  decide

end KMC
