import KillMyCluster.Kv.Calls
import KillMyCluster.Kv.Reads
import KillMyCluster.Lib.Linear

/-! `Get` and `ReadCheckpoint` of `kv.Cluster`, and the history of calls and returns that the
clients of all processes see. A read asks Raft for a read index and then looks its key up in the
machine of its process. A call that ends in an error stays open in the history: it may take effect
later or never. -/

namespace KMC

open Linear

/-! ## Reads -/

inductive ReadApi
  | get (key : Bytes)
  | readCheckpoint (clientID : Bytes)

def ReadApi.key : ReadApi → Bytes
  | .get key => key
  | .readCheckpoint clientID => checkpointKey clientID

inductive GetStatus
  /-- In `raft.ReadIndex`. -/
  | asking
  /-- Back from `raft.ReadIndex`, before the machine is read. -/
  | granted
  | done (res : Except CallError ApplyResult)

/-- A call of `Get`, its process and its number among the calls of `ReadIndex`. `place` is how many
entries had gone into the machine when it was read. -/
structure GetCall where
  server : ℕ
  epoch : ℕ
  key : Bytes
  call : ℕ
  status : GetStatus := .asking
  place : ℕ := 0

def Machine.answer (m : Machine) (key : Bytes) : ApplyResult where
  found := (m.get key).2
  value := (m.get key).1

/-! ## Histories -/

inductive CallId
  | write (k : ℕ)
  | read (k : ℕ)
deriving DecidableEq

inductive Operation
  | write (cmd : Command)
  | read (key : Bytes)
deriving DecidableEq

abbrev StoreEvent := Event CallId Operation ApplyResult

structure StoreState where
  kv : KvState
  gets : List GetCall := []
  history : List StoreEvent := []

def KvConfig.store (cfg : KvConfig) : StoreState where
  kv := cfg.init

inductive StoreAction
  | kv (a : KvAction)
  | get (p : ℕ) (held : Bool) (api : ReadApi)
  | grant (k : ℕ)
  | giveUp (k : ℕ)
  | look (k : ℕ)

def StoreAction.act : StoreAction → Option KvAction
  | .kv a => some a
  | .get p held _ => some (.reads (.call p held))
  | _ => none

/-- Only `Get` calls `ReadIndex`. -/
def KvAction.ofGet : KvAction → Bool
  | .reads (.call _ _) => true
  | _ => false

def CallStatus.returned : CallStatus → Option ApplyResult
  | .done (.ok res) => some res
  | _ => none

def KvState.returned (s : KvState) (k : ℕ) : Option ApplyResult :=
  s.calls[k]?.bind fun x => x.status.returned

/-- What clients see of a step of the writing calls. -/
def KvState.seen (s : KvState) (a : KvAction) (t : KvState) : List StoreEvent :=
  match a with
  | .call _ _ => (t.calls[s.calls.length]?.map fun x =>
      .call (.write s.calls.length) (.write x.cmd)).toList
  | .register k | .receive k | .timeout k =>
    ((t.returned k).map fun res => .ret (.write k) res).toList
  | _ => []

namespace StoreState

def liveGet (s : StoreState) (k : ℕ) : Option GetCall := do
  let x ← s.gets[k]?
  let _ ← s.kv.raft.node x.server
  if (s.kv.raft.servers x.server).epoch = x.epoch then return x else none

def setGet (s : StoreState) (k : ℕ) (x : GetCall) : StoreState := { s with gets := s.gets.set k x }

end StoreState

def storeStep (cfg : KvConfig) (s : StoreState) : StoreAction → Option StoreState
  | .kv a => if a.ofGet then none else do
    let t ← kvStep cfg s.kv a
    return { s with kv := t, history := s.history ++ s.kv.seen a t }
  | .get p held api => do
    let t ← kvStep cfg s.kv (.reads (.call p held))
    return { kv := t
             gets := s.gets ++
               [⟨p, (s.kv.raft.servers p).epoch, api.key, s.kv.reads.calls, .asking, 0⟩]
             history := s.history ++ [.call (.read s.gets.length) (.read api.key)] }
  | .grant k => do
    let x ← s.liveGet k
    match x.status with
    | .asking =>
      let res ← s.kv.reads.results.find? fun r => r.call = x.call
      return s.setGet k { x with
        status := if res.ok then .granted else .done (.error .notLeader) }
    | _ => none
  | .giveUp k => do
    -- the context ends while the call is in `ReadIndex`
    let x ← s.liveGet k
    match x.status with
    | .asking => return s.setGet k { x with status := .done (.error .notLeader) }
    | _ => none
  | .look k => do
    let x ← s.liveGet k
    match x.status with
    | .granted =>
      let res := (s.kv.kvs x.server).machine.answer x.key
      return { s.setGet k { x with
          status := .done (.ok res), place := lastSent (s.kv.given x.server) } with
        history := s.history ++ [.ret (.read k) res] }
    | _ => none

/-! ## What a step can do -/

section Steps

variable {cfg : KvConfig} {s t : StoreState} {a : StoreAction} {k : ℕ} {x : GetCall}

theorem StoreState.liveGet_some (h : s.liveGet k = some x) : s.gets[k]? = some x ∧
    (s.kv.raft.servers x.server).epoch = x.epoch := by
  simp only [StoreState.liveGet, Option.bind_eq_bind, Option.bind_eq_some_iff] at h
  obtain ⟨y, hy, n, hn, h⟩ := h
  split at h
  · rename_i he
    obtain rfl := Option.some.inj h
    exact ⟨hy, he⟩
  · cases h

inductive StoreMove (cfg : KvConfig) (s : StoreState) : StoreAction → StoreState → Prop
  | kv {a : KvAction} {t : KvState} : a.ofGet = false → kvStep cfg s.kv a = some t →
      StoreMove cfg s (.kv a) { s with kv := t, history := s.history ++ s.kv.seen a t }
  | get {p : ℕ} {held : Bool} {api : ReadApi} {t : KvState} :
      kvStep cfg s.kv (.reads (.call p held)) = some t →
      StoreMove cfg s (.get p held api)
        { kv := t
          gets := s.gets ++
            [⟨p, (s.kv.raft.servers p).epoch, api.key, s.kv.reads.calls, .asking, 0⟩]
          history := s.history ++ [.call (.read s.gets.length) (.read api.key)] }
  | grant {k : ℕ} {x : GetCall} {res : ReadResult} : s.liveGet k = some x →
      x.status = .asking → res ∈ s.kv.reads.results → res.call = x.call → res.ok = true →
      StoreMove cfg s (.grant k) (s.setGet k { x with status := .granted })
  | fail {a : StoreAction} {k : ℕ} {x : GetCall} {err : CallError} : s.liveGet k = some x →
      x.status = .asking → a.act = none →
      StoreMove cfg s a (s.setGet k { x with status := .done (.error err) })
  | look {k : ℕ} {x : GetCall} : s.liveGet k = some x → x.status = .granted →
      StoreMove cfg s (.look k)
        { s.setGet k { x with
            status := .done (.ok ((s.kv.kvs x.server).machine.answer x.key))
            place := lastSent (s.kv.given x.server) } with
          history := s.history ++ [.ret (.read k) ((s.kv.kvs x.server).machine.answer x.key)] }

theorem storeStep_cases (h : storeStep cfg s a = some t) : StoreMove cfg s a t := by
  cases a with
  | kv a =>
    simp only [storeStep] at h
    split at h
    · cases h
    rename_i hb
    obtain ⟨u, hu, h⟩ := Option.bind_eq_some_iff.mp h
    obtain rfl := Option.some.inj h
    exact .kv (by simpa using hb) hu
  | get p held api =>
    obtain ⟨u, hu, h⟩ := Option.bind_eq_some_iff.mp h
    obtain rfl := Option.some.inj h
    exact .get hu
  | grant k =>
    obtain ⟨x, hx, h⟩ := Option.bind_eq_some_iff.mp h
    split at h
    · rename_i hst
      obtain ⟨res, hres, h⟩ := Option.bind_eq_some_iff.mp h
      obtain rfl := Option.some.inj h
      have hcall : res.call = x.call := by simpa using List.find?_some hres
      split
      · rename_i hok
        exact .grant hx hst (List.mem_of_find?_eq_some hres) hcall hok
      · exact .fail hx hst rfl
    · cases h
  | giveUp k =>
    obtain ⟨x, hx, h⟩ := Option.bind_eq_some_iff.mp h
    split at h
    · rename_i hst
      obtain rfl := Option.some.inj h
      exact .fail hx hst rfl
    · cases h
  | look k =>
    obtain ⟨x, hx, h⟩ := Option.bind_eq_some_iff.mp h
    split at h
    · rename_i hst
      obtain rfl := Option.some.inj h
      exact .look hx hst
    · cases h

end Steps

/-! ## Returns -/

section Returns

variable {cfg : KvConfig} {s t : KvState} {a : KvAction} {k : ℕ} {x : KvCall}

/-- What clients see of a step: nothing, a new call, or the return of a call. -/
inductive Shown (s t : KvState) : List StoreEvent → Prop
  | nothing : t.calls.length = s.calls.length → (∀ k, t.returned k = s.returned k) → Shown s t []
  | call {x : KvCall} : t.calls = s.calls ++ [x] → x.status = .proposing →
      Shown s t [.call (.write s.calls.length) (.write x.cmd)]
  | ret {k : ℕ} {res : ApplyResult} : t.calls.length = s.calls.length → k < s.calls.length →
      s.returned k = none → t.returned k = some res → (∀ j, j ≠ k → t.returned j = s.returned j) →
      Shown s t [.ret (.write k) res]

theorem KvState.returned_modify {f : KvCall → KvCall} {j : ℕ} (ht : t.calls = s.calls.modify j f)
    (k : ℕ) : t.returned k =
      s.calls[k]?.bind fun x => (if j = k then f x else x).status.returned := by
  unfold KvState.returned
  rw [ht, List.getElem?_modify]
  by_cases hjk : j = k <;> cases s.calls[k]? <;> simp [hjk]

theorem Shown.same (h : t.calls = s.calls) : Shown s t [] :=
  .nothing (by rw [h]) fun k => by unfold KvState.returned; rw [h]

/-- A call that has not returned goes on to another status. -/
theorem Shown.status {st : CallStatus} (hx : s.live k = some x) (hold : x.status.returned = none)
    (ht : t.calls = s.calls.modify k fun y => { y with status := st }) :
    Shown s t (((t.returned k).map fun res => Event.ret (.write k) res).toList) := by
  obtain ⟨hx, -, -⟩ := KvState.live_some hx
  have hlen : t.calls.length = s.calls.length := by rw [ht, List.length_modify]
  have hk : t.returned k = st.returned := by simp [KvState.returned_modify ht, hx]
  have hs : s.returned k = none := by simp [KvState.returned, hx, hold]
  have hothers : ∀ j, j ≠ k → t.returned j = s.returned j := by
    intro j hj
    rw [KvState.returned_modify ht, KvState.returned]
    simp [hj.symm]
  cases hst : st.returned with
  | none =>
    rw [hst] at hk
    rw [hk]
    refine .nothing hlen fun j => ?_
    by_cases hj : j = k
    · rw [hj, hk, hs]
    · exact hothers j hj
  | some res =>
    rw [hst] at hk
    rw [hk]
    exact .ret hlen (List.getElem?_eq_some_iff.mp hx).1 hs hk hothers

theorem Shown.quiet {st : CallStatus} (hx : s.live k = some x) (hold : x.status.returned = none)
    (ht : t.calls = s.calls.modify k fun y => { y with status := st }) (hst : st.returned = none) :
    Shown s t [] := by
  have hshown := Shown.status hx hold ht
  have hk : t.returned k = none := by
    simp [KvState.returned_modify ht, (KvState.live_some hx).1, hst]
  rwa [hk] at hshown

theorem accepted_returned (x : KvCall) (e : LogEntry) :
    (x.accepted e).status.returned = x.status.returned := by
  unfold KvCall.accepted
  split
  · rename_i h
    rw [h]
    rfl
  · rfl

theorem refused_returned (x : KvCall) : x.refused.status.returned = x.status.returned := by
  unfold KvCall.refused
  split
  · rename_i h
    rw [h]
    rfl
  · rfl

theorem deliver_returned (x : KvCall) (index : ℕ) (res : ApplyResult) :
    (x.deliver index res).status.returned = x.status.returned := by
  unfold KvCall.deliver
  split
  · rename_i h
    split
    · rw [h]
      rfl
    · rfl
  · rfl

theorem updateCalls_returned {β : Type} {f : KvCall → β → KvCall}
    (hf : ∀ x b, (f x b).status.returned = x.status.returned) (ps : List (ℕ × β))
    (calls : List KvCall) (k : ℕ) : ((updateCalls f ps calls)[k]?.bind fun x => x.status.returned) =
      calls[k]?.bind fun x => x.status.returned := by
  have hfold : ∀ (bs : List β) (x : KvCall),
      (bs.foldl f x).status.returned = x.status.returned := by
    intro bs
    induction bs with
    | nil => exact fun _ => rfl
    | cons b bs ih => exact fun x => (ih _).trans (hf x b)
  rw [updateCalls_get]
  cases calls[k]? with
  | none => rfl
  | some x => exact hfold _ x

theorem answerProps_returned (ks : List ℕ) (entries : Option (List LogEntry)) (io : Io)
    (calls : List KvCall) (k : ℕ) :
    ((answerProps ks entries io calls)[k]?.bind fun x => x.status.returned) =
      calls[k]?.bind fun x => x.status.returned := by
  have hrecord : ∀ (x : KvCall) (e : LogEntry),
      (x.record e).status.returned = x.status.returned := fun _ _ => rfl
  unfold answerProps
  split
  · simp only
    split
    · rw [updateCalls_returned accepted_returned, updateCalls_returned hrecord]
    · rw [updateCalls_returned hrecord]
  · split
    · rw [updateCalls_returned fun x _ => refused_returned x]
    · rfl

theorem kvStep_shown (hs : kvStep cfg s a = some t) : Shown s t (s.seen a t) := by
  cases a with
  | reads b =>
    simp only [kvStep] at hs
    split at hs
    · cases hs
    obtain ⟨u, -, rfl⟩ := Option.map_eq_some_iff.mp hs
    exact .same rfl
  | call p api =>
    simp only [kvStep, Option.bind_eq_bind, Option.bind_eq_some_iff] at hs
    obtain ⟨n, hn, hs⟩ := hs
    split at hs
    · rename_i cmd _
      obtain rfl := Option.some.inj hs
      simp only [KvState.seen, List.getElem?_concat_length, Option.map_some, Option.toList_some]
      exact .call (x := ⟨p, (s.raft.servers p).epoch, cmd, .proposing, []⟩) rfl rfl
    · cases hs
  | enqueue k =>
    simp only [kvStep, Option.bind_eq_bind, Option.bind_eq_some_iff] at hs
    obtain ⟨x, hx, hs⟩ := hs
    split at hs
    · rename_i hst
      obtain rfl := Option.some.inj hs
      exact .quiet hx (by rw [hst]; rfl) rfl rfl
    · cases hs
  | propose p m io =>
    simp only [kvStep, Option.bind_eq_bind, Option.bind_eq_some_iff] at hs
    obtain ⟨n, hn, hs⟩ := hs
    split at hs
    · cases hs
    obtain ⟨r, hr, hs⟩ := Option.bind_eq_some_iff.mp hs
    obtain rfl := Option.some.inj hs
    exact .nothing (answerProps_length ..) fun k => answerProps_returned _ _ _ _ k
  | refuse k =>
    simp only [kvStep, Option.bind_eq_bind, Option.bind_eq_some_iff] at hs
    obtain ⟨x, hx, n, hn, hs⟩ := hs
    split at hs
    · split at hs
      · rename_i hst
        obtain rfl := Option.some.inj hs
        exact .quiet hx (by rw [hst]; rfl) rfl rfl
      · rename_i hst
        obtain rfl := Option.some.inj hs
        exact .quiet hx (by rw [hst]; rfl) rfl rfl
      · cases hs
    · cases hs
  | register k =>
    simp only [kvStep, Option.bind_eq_bind, Option.bind_eq_some_iff] at hs
    obtain ⟨x, hx, hs⟩ := hs
    split at hs
    · rename_i hst
      have hold : x.status.returned = none := by rw [hst]; rfl
      split at hs
      · obtain rfl := Option.some.inj hs
        exact .status hx hold rfl
      · obtain rfl := Option.some.inj hs
        exact .status hx hold rfl
    · cases hs
  | receive k =>
    simp only [kvStep, Option.bind_eq_bind, Option.bind_eq_some_iff] at hs
    obtain ⟨x, hx, hs⟩ := hs
    split at hs
    · rename_i hst
      obtain rfl := Option.some.inj hs
      exact .status hx (by rw [hst]; rfl) rfl
    · cases hs
  | cancel k =>
    simp only [kvStep, Option.bind_eq_bind, Option.bind_eq_some_iff] at hs
    obtain ⟨x, hx, hs⟩ := hs
    split at hs
    · rename_i hst
      obtain rfl := Option.some.inj hs
      exact .quiet hx (by rw [hst]; rfl) rfl rfl
    · rename_i hst
      obtain rfl := Option.some.inj hs
      exact .quiet hx (by rw [hst]; rfl) rfl rfl
    · cases hs
  | timeout k =>
    simp only [kvStep, Option.bind_eq_bind, Option.bind_eq_some_iff] at hs
    obtain ⟨x, hx, hs⟩ := hs
    split at hs
    · rename_i hst
      have hold : x.status.returned = none := by rw [hst]; rfl
      split at hs
      · obtain rfl := Option.some.inj hs
        exact .status hx hold rfl
      · obtain rfl := Option.some.inj hs
        exact .status hx hold rfl
    · cases hs
  | take p =>
    simp only [kvStep, Option.bind_eq_bind, Option.bind_eq_some_iff] at hs
    obtain ⟨n, hn, hs⟩ := hs
    split at hs
    · obtain rfl := Option.some.inj hs
      exact .same rfl
    · cases hs
  | apply p =>
    simp only [kvStep, Option.bind_eq_bind, Option.bind_eq_some_iff] at hs
    obtain ⟨n, hn, hs⟩ := hs
    split at hs
    · cases hs
    obtain ⟨msg, -, hs⟩ := Option.bind_eq_some_iff.mp hs
    split at hs <;> split at hs
    · obtain rfl := Option.some.inj hs
      exact .same rfl
    · obtain ⟨u, -, rfl⟩ := Option.map_eq_some_iff.mp hs
      exact .same rfl
    · obtain rfl := Option.some.inj hs
      exact .same rfl
    · obtain ⟨u, -, rfl⟩ := Option.map_eq_some_iff.mp hs
      exact .same rfl
  | notify p =>
    simp only [kvStep, Option.bind_eq_bind, Option.bind_eq_some_iff] at hs
    obtain ⟨n, hn, hs⟩ := hs
    split at hs
    · obtain rfl := Option.some.inj hs
      split
      · refine .nothing (List.length_modify ..) fun j => ?_
        rw [KvState.returned_modify rfl]
        unfold KvState.returned
        congr 1
        funext x
        split
        · exact deliver_returned x _ _
        · rfl
      · exact .same rfl
    · cases hs
  | gate p =>
    simp only [kvStep, Option.bind_eq_bind, Option.bind_eq_some_iff] at hs
    obtain ⟨n, hn, hs⟩ := hs
    split at hs
    · obtain rfl := Option.some.inj hs
      exact .same rfl
    · cases hs
  | compact p io =>
    simp only [kvStep, Option.bind_eq_bind, Option.bind_eq_some_iff] at hs
    obtain ⟨n, hn, hs⟩ := hs
    split at hs
    · split at hs
      · obtain rfl := Option.some.inj hs
        exact .same rfl
      · obtain ⟨u, -, hs⟩ := Option.bind_eq_some_iff.mp hs
        obtain rfl := Option.some.inj hs
        exact .same rfl
    · cases hs

theorem kvStep_cmds (hs : kvStep cfg s a = some t) (hlen : t.calls.length = s.calls.length)
    (k : ℕ) : (t.calls[k]?.map fun x => Operation.write x.cmd) =
      s.calls[k]?.map fun x => Operation.write x.cmd := by
  cases hx : s.calls[k]? with
  | none =>
    rw [List.getElem?_eq_none_iff] at hx
    rw [List.getElem?_eq_none (by omega), Option.map_none]
  | some x =>
    obtain ⟨x', hx', hm⟩ := kvStep_call_stays hs hx
    rw [hx', Option.map_some, Option.map_some, hm.fixed.2.2]

end Returns

/-! ## The history tells what happened -/

def GetStatus.returned : GetStatus → Option ApplyResult
  | .done (.ok res) => some res
  | _ => none

namespace StoreState

def called (s : StoreState) : CallId → Option Operation
  | .write k => s.kv.calls[k]?.map fun x => .write x.cmd
  | .read k => s.gets[k]?.map fun x => .read x.key

def returned (s : StoreState) : CallId → Option ApplyResult
  | .write k => s.kv.returned k
  | .read k => s.gets[k]?.bind fun x => x.status.returned

end StoreState

def Chronicle (s : StoreState) : Prop := Tells s.history s.called s.returned

section Chronicle

variable {cfg : KvConfig} {s t : StoreState} {a : StoreAction} {k : ℕ}

theorem chronicle_init (cfg : KvConfig) : Chronicle cfg.store := by
  refine tells_nil.congr (fun i => ?_) fun i => ?_
  · cases i <;> simp [KvConfig.store, KvConfig.init, StoreState.called]
  · cases i <;> simp [KvConfig.store, KvConfig.init, StoreState.returned, KvState.returned]

theorem getElem_concat_of_ne {α : Type} {l : List α} {x : α} (hk : k ≠ l.length) :
    (l ++ [x])[k]? = l[k]? := by
  rcases Nat.lt_or_gt_of_ne hk with hlt | hgt
  · exact List.getElem?_append_left hlt
  · rw [List.getElem?_eq_none (by simp; omega), List.getElem?_eq_none (by omega)]

theorem Chronicle.kv (h : Chronicle s) {a : KvAction} {u : KvState}
    (hs : kvStep cfg s.kv a = some u) :
    Chronicle { s with kv := u, history := s.history ++ s.kv.seen a u } := by
  have hshown := kvStep_shown hs
  generalize s.kv.seen a u = evs at hshown
  have hcmds : u.calls.length = s.kv.calls.length → ∀ evs j,
      ({ s with kv := u, history := evs } : StoreState).called j = s.called j := by
    intro hlen evs j
    cases j with
    | read k => rfl
    | write k => exact kvStep_cmds hs hlen k
  cases hshown with
  | nothing hlen hret =>
    rw [List.append_nil]
    refine Tells.congr h (hcmds hlen _) fun j => ?_
    cases j with
    | read k => rfl
    | write k => exact hret k
  | @call x hcalls hst =>
    refine Tells.call h ?_ ?_ (fun j hj => ?_) fun j => ?_
    · simp [StoreState.called]
    · simp [StoreState.called, hcalls]
    · cases j with
      | read k => rfl
      | write k =>
        have hk : k ≠ s.kv.calls.length := fun heq => hj (heq ▸ rfl)
        simp only [StoreState.called, hcalls, getElem_concat_of_ne hk]
    · cases j with
      | read k => rfl
      | write k =>
        simp only [StoreState.returned, KvState.returned, hcalls]
        by_cases hk : k = s.kv.calls.length
        · simp [hk, hst, CallStatus.returned]
        · rw [getElem_concat_of_ne hk]
  | @ret k res hlen hk hold hnew hothers =>
    refine Tells.ret h hold hnew (fun j hj => ?_) (hcmds hlen _) ?_
    · cases j with
      | read k => rfl
      | write k' => exact hothers k' fun heq => hj (heq ▸ rfl)
    · simp [StoreState.called, List.getElem?_eq_getElem hk]

theorem StoreState.called_setGet {x x' : GetCall} {evs : List StoreEvent}
    (hx : s.gets[k]? = some x) (hkey : x'.key = x.key) (j : CallId) :
    ({ s.setGet k x' with history := evs } : StoreState).called j = s.called j := by
  cases j with
  | write j => rfl
  | read j =>
    simp only [StoreState.called, StoreState.setGet, List.getElem?_set]
    split
    · rename_i hj
      subst hj
      rw [if_pos (List.getElem?_eq_some_iff.mp hx).1, hx, Option.map_some, Option.map_some, hkey]
    · rfl

theorem StoreState.returned_setGet {x' : GetCall} {evs : List StoreEvent} {j : CallId}
    (hj : j ≠ .read k) :
    ({ s.setGet k x' with history := evs } : StoreState).returned j = s.returned j := by
  cases j with
  | write j => rfl
  | read j =>
    have hjk : k ≠ j := fun heq => hj (heq ▸ rfl)
    simp only [StoreState.returned, StoreState.setGet, List.getElem?_set, if_neg hjk]

theorem StoreState.returned_read {x : GetCall} (hx : s.gets[k]? = some x) :
    s.returned (.read k) = x.status.returned := by
  simp [StoreState.returned, hx]

theorem StoreState.gets_setGet {x x' : GetCall} (hx : s.gets[k]? = some x) :
    (s.setGet k x').gets[k]? = some x' :=
  List.getElem?_set_self (List.getElem?_eq_some_iff.mp hx).1

theorem Chronicle.setGet (h : Chronicle s) {x : GetCall} (hx : s.gets[k]? = some x)
    (hst : x.status.returned = none) {st : GetStatus} (hst' : st.returned = none) :
    Chronicle (s.setGet k { x with status := st }) := by
  refine Tells.congr h (StoreState.called_setGet hx rfl) fun j => ?_
  by_cases hj : j = .read k
  · rw [hj, StoreState.returned_read (StoreState.gets_setGet hx), StoreState.returned_read hx, hst]
    exact hst'
  · exact StoreState.returned_setGet hj

theorem Chronicle.step (h : Chronicle s) (hs : storeStep cfg s a = some t) : Chronicle t := by
  cases storeStep_cases hs with
  | kv _ hk => exact h.kv hk
  | @get p held api u hk =>
    -- the step below shows nothing
    have hu : Chronicle { s with kv := u, history := s.history } := by
      have := h.kv hk
      rwa [show s.kv.seen (.reads (.call p held)) u = [] from rfl, List.append_nil] at this
    refine Tells.call hu ?_ ?_ (fun j hj => ?_) fun j => ?_
    · simp [StoreState.called]
    · simp [StoreState.called]
    · cases j with
      | write k => rfl
      | read k =>
        have hk : k ≠ s.gets.length := fun heq => hj (heq ▸ rfl)
        simp only [StoreState.called, getElem_concat_of_ne hk]
    · cases j with
      | write k => rfl
      | read k =>
        simp only [StoreState.returned]
        by_cases hk : k = s.gets.length
        · simp [hk, GetStatus.returned]
        · rw [getElem_concat_of_ne hk]
  | grant hx hst _ _ _ =>
    exact h.setGet (StoreState.liveGet_some hx).1 (by rw [hst]; rfl) rfl
  | fail hx hst _ => exact h.setGet (StoreState.liveGet_some hx).1 (by rw [hst]; rfl) rfl
  | @look k x hx hst =>
    obtain ⟨hx, -⟩ := StoreState.liveGet_some hx
    refine Tells.ret h ?_ ?_ (fun j hj => StoreState.returned_setGet hj)
      (StoreState.called_setGet hx rfl) ?_
    · rw [StoreState.returned_read hx, hst]
      rfl
    · exact StoreState.returned_read (StoreState.gets_setGet hx)
    · simp [StoreState.called, hx]

end Chronicle

end KMC
