import KillMyCluster.Kv.Get

/-! Remote clients: `internal/kv/client.go` and the servers of `internal/kv/grpc.go`. A client asks
one node after the other, under the same client and request number, until one answers as leader. A
request it has given up may still be on its way to a node, or be served there. -/

namespace KMC

open Linear

/-! ## Messages -/

/-- A `bytes` field: empty and absent are the same on the wire. -/
def Slice.wire (s : Slice) : Slice := if s.bytes = [] then none else s

def ApplyResult.wire (res : ApplyResult) : ApplyResult := { res with value := res.value.wire }

structure ExecuteOnceRequest where
  clientId : Bytes
  requestId : UInt64
  key : Bytes
  value : Slice
  useCas : Bool
  expect : Slice

def executeOnceRequest (clientID : Bytes) (requestID : UInt64) (cmd : Command) :
    Except String ExecuteOnceRequest :=
  if cmd.op ≠ opPut ∧ cmd.op ≠ opCAS then .error "kv: client ExecuteOnce supports Put/CAS only"
  else .ok
    { clientId := clientID
      requestId := requestID
      key := cmd.key
      value := cmd.value.wire
      useCas := cmd.op = opCAS
      expect := cmd.expect.wire }

/-- What `GRPCServer.ExecuteOnce` calls on the cluster. -/
def ExecuteOnceRequest.api (req : ExecuteOnceRequest) : Api :=
  .executeOnce req.clientId req.requestId
    { op := if req.useCas then opCAS else opPut
      clientID := []
      requestID := 0
      key := req.key
      value := req.value
      expect := if req.useCas then req.expect else none }

def ExecuteOnceRequest.command (req : ExecuteOnceRequest) : Command where
  op := if req.useCas then opCAS else opPut
  clientID := req.clientId
  requestID := req.requestId
  key := req.key
  value := req.value
  expect := if req.useCas then req.expect else none

theorem ExecuteOnceRequest.api_command (req : ExecuteOnceRequest) :
    req.api.command = .ok req.command := by
  unfold ExecuteOnceRequest.api Api.command
  by_cases h : req.useCas = true <;> simp [h, ExecuteOnceRequest.command, opPut, opCAS]

theorem Slice.norm_wire (s : Slice) : s.wire.norm = s.norm := by
  unfold Slice.wire
  split
  · rename_i h
    rw [Slice.norm, Slice.norm, h]
    rfl
  · rfl

inductive RemoteRequest
  | get (clientID : Bytes) (requestID : UInt64) (key : Bytes)
  | executeOnce (req : ExecuteOnceRequest)

inductive RemoteCall
  | get (clientID : Bytes) (requestID : UInt64) (key : Bytes)
  | executeOnce (clientID : Bytes) (requestID : UInt64) (cmd : Command)

def RemoteCall.request : RemoteCall → Except String RemoteRequest
  | .get clientID requestID key => .ok (.get clientID requestID key)
  | .executeOnce clientID requestID cmd =>
    (executeOnceRequest clientID requestID cmd).map .executeOnce

def RemoteRequest.operation : RemoteRequest → Operation
  | .get _ _ key => .read key
  | .executeOnce req => .write req.command

/-! ## The client -/

/-- In milliseconds. -/
def peerPenalty : ℕ := 2000

/-- The nodes in ascending order, those whose address `grpc.NewClient` takes, until when each of
them is tried last, and the node that last answered as leader; 0 stands for none. -/
structure Client where
  order : List ℕ
  dials : ℕ → Bool := fun _ => true
  badUntil : ℕ → ℕ := fun _ => 0
  leader : ℕ := 0

namespace Client

def stubs (c : Client) : List ℕ := c.order.filter c.dials

def place (c : Client) (now : ℕ) (acc : List ℕ × List ℕ) (id : ℕ) : List ℕ × List ℕ :=
  if now < c.badUntil id then (acc.1, acc.2 ++ [id]) else (acc.1 ++ [id], acc.2)

def tryOrder (c : Client) (prefer now : ℕ) : List ℕ :=
  let start := if prefer ≠ 0 then c.place now ([], []) prefer else ([], [])
  let acc := c.order.foldl
    (fun acc id => if id = prefer then acc else c.place now acc id) start
  acc.1 ++ acc.2

def demote (c : Client) (id now : ℕ) : Client :=
  { c with
    badUntil := Function.update c.badUntil id (now + peerPenalty)
    leader := if c.leader = id then 0 else c.leader }

end Client

inductive WalkStatus
  /-- At the head of the outer loop, or in the pause before it. -/
  | looping
  /-- In the inner loop, with these nodes left. -/
  | walking (ids : List ℕ)
  /-- Waiting for the answer of node `id`, in attempt number `attempt`. -/
  | asking (id attempt : ℕ) (ids : List ℕ)
  | returned (attempt : ℕ) (res : ApplyResult)
  | failed

def WalkStatus.result : WalkStatus → Option ApplyResult
  | .returned _ res => some res
  | _ => none

structure RemoteOp where
  client : ℕ
  req : RemoteRequest
  prefer : ℕ
  status : WalkStatus := .looping

/-- A request to node `dst` and, if it got there, the call that serves it. -/
structure Attempt where
  op : ℕ
  dst : ℕ
  call : Option CallId := none

structure RemoteState where
  store : StoreState
  clients : ℕ → Client
  ops : List RemoteOp := []
  attempts : List Attempt := []
  history : List (Event ℕ Operation ApplyResult) := []

inductive RemoteAction
  | store (a : StoreAction)
  | start (client : ℕ) (call : RemoteCall)
  | sweep (j now : ℕ)
  | skip (j : ℕ)
  | ask (j : ℕ)
  | arrive (r : ℕ) (held : Bool)
  | answer (j : ℕ)
  | redirect (j hint : ℕ)
  | fail (j now : ℕ)
  | pause (j : ℕ)
  | giveUp (j : ℕ)

/-- Calls of the API are made for remote clients alone. -/
def StoreAction.begins : StoreAction → Bool
  | .kv (.call _ _) => true
  | .get _ _ _ => true
  | _ => false

def StoreState.refused (s : StoreState) : CallId → Bool
  | .write k => s.kv.calls[k]?.any fun x => match x.status with
    | .done (.error .notLeader) => true
    | _ => false
  | .read k => s.gets[k]?.any fun x => match x.status with
    | .done (.error .notLeader) => true
    | _ => false

namespace RemoteState

def setOp (s : RemoteState) (j : ℕ) (x : RemoteOp) : RemoteState := { s with ops := s.ops.set j x }

def setClient (s : RemoteState) (c : ℕ) (cl : Client) : RemoteState :=
  { s with clients := Function.update s.clients c cl }

/-- The API action that serves a request at node `dst`, and the call it makes. -/
def serve (s : RemoteState) (dst : ℕ) (held : Bool) : RemoteRequest → StoreAction × CallId
  | .get _ _ key => (.get dst held (.get key), .read s.store.gets.length)
  | .executeOnce req => (.kv (.call dst req.api), .write s.store.kv.calls.length)

end RemoteState

def KvConfig.remote (cfg : KvConfig) (clients : ℕ → Client) : RemoteState where
  store := cfg.store
  clients := clients

def remoteStep (cfg : KvConfig) (s : RemoteState) : RemoteAction → Option RemoteState
  | .store a => if a.begins then none
    else (storeStep cfg s.store a).map fun t => { s with store := t }
  | .start c call =>
    match call.request with
    | .error _ => none
    | .ok req => some
      { s with
        ops := s.ops ++ [⟨c, req, (s.clients c).leader, .looping⟩]
        history := s.history ++ [.call s.ops.length req.operation] }
  | .sweep j now => do
    let x ← s.ops[j]?
    match x.status with
    | .looping =>
      return s.setOp j { x with status := .walking ((s.clients x.client).tryOrder x.prefer now) }
    | _ => none
  | .skip j => do
    -- the node is not known, or its address is refused
    let x ← s.ops[j]?
    match x.status with
    | .walking (id :: ids) =>
      if id ∈ (s.clients x.client).stubs then none
      else return s.setOp j { x with status := .walking ids }
    | _ => none
  | .ask j => do
    let x ← s.ops[j]?
    match x.status with
    | .walking (id :: ids) =>
      if id ∈ (s.clients x.client).stubs then
        return { s.setOp j { x with status := .asking id s.attempts.length ids } with
          attempts := s.attempts ++ [⟨j, id, none⟩] }
      else none
    | _ => none
  | .arrive r held => do
    let q ← s.attempts[r]?
    let x ← s.ops[q.op]?
    match q.call with
    | none =>
      let (a, i) := s.serve q.dst held x.req
      let t ← storeStep cfg s.store a
      return { s with store := t, attempts := s.attempts.set r { q with call := some i } }
    | some _ => none
  | .answer j => do
    let x ← s.ops[j]?
    match x.status with
    | .asking id r _ =>
      let q ← s.attempts[r]?
      let i ← q.call
      let res ← s.store.returned i
      return { (s.setOp j { x with status := .returned r res.wire }).setClient x.client
          { s.clients x.client with leader := id } with
        history := s.history ++ [.ret j res.wire] }
    | _ => none
  | .redirect j hint => do
    let x ← s.ops[j]?
    match x.status with
    | .asking _ r ids =>
      let q ← s.attempts[r]?
      let i ← q.call
      if s.store.refused i then
        return s.setOp j { x with
          prefer := if hint ≠ 0 then hint else x.prefer
          status := .walking ids }
      else none
    | _ => none
  | .fail j now => do
    -- the request or its answer is lost, late or an error
    let x ← s.ops[j]?
    match x.status with
    | .asking id _ ids =>
      return (s.setOp j { x with status := .walking ids }).setClient x.client
        ((s.clients x.client).demote id now)
    | _ => none
  | .pause j => do
    let x ← s.ops[j]?
    match x.status with
    | .walking [] => return s.setOp j { x with status := .looping }
    | _ => none
  | .giveUp j => do
    -- the context or the time of the call has ended
    let x ← s.ops[j]?
    match x.status with
    | .looping | .walking _ => return s.setOp j { x with status := .failed }
    | _ => none

/-! ## What a step can do -/

section Steps

variable {cfg : KvConfig} {s t : RemoteState} {a : RemoteAction}

inductive WalkMove (stubs : List ℕ) : WalkStatus → WalkStatus → Prop
  | sweep (ids : List ℕ) : WalkMove stubs .looping (.walking ids)
  | skip {id : ℕ} {ids : List ℕ} : id ∉ stubs → WalkMove stubs (.walking (id :: ids)) (.walking ids)
  | back {id r : ℕ} {ids : List ℕ} : WalkMove stubs (.asking id r ids) (.walking ids)
  | pause : WalkMove stubs (.walking []) .looping
  | giveUp {st : WalkStatus} : st.result = none → WalkMove stubs st .failed

theorem WalkMove.results {stubs : List ℕ} {st st' : WalkStatus} (h : WalkMove stubs st st') :
    st.result = none ∧ st'.result = none ∧ ∀ id r ids, st' ≠ .asking id r ids := by
  cases h with
  | giveUp h => exact ⟨h, rfl, by simp⟩
  | sweep | skip | back | pause => exact ⟨rfl, rfl, by simp⟩

inductive RemoteMove (cfg : KvConfig) (s : RemoteState) : RemoteAction → RemoteState → Prop
  | store {a : StoreAction} {t : StoreState} : a.begins = false →
      storeStep cfg s.store a = some t → RemoteMove cfg s (.store a) { s with store := t }
  | start {c : ℕ} {call : RemoteCall} {req : RemoteRequest} : call.request = .ok req →
      RemoteMove cfg s (.start c call)
        { s with
          ops := s.ops ++ [⟨c, req, (s.clients c).leader, .looping⟩]
          history := s.history ++ [.call s.ops.length req.operation] }
  | goes {a : RemoteAction} {j prefer : ℕ} {x : RemoteOp} {st : WalkStatus}
      {clients : ℕ → Client} : s.ops[j]? = some x →
      WalkMove (s.clients x.client).stubs x.status st → (st = .looping → a = .pause j) →
      (∀ c, (clients c).stubs = (s.clients c).stubs) →
      RemoteMove cfg s a
        { s.setOp j { x with prefer := prefer, status := st } with clients := clients }
  | ask {j id : ℕ} {ids : List ℕ} {x : RemoteOp} : s.ops[j]? = some x →
      x.status = .walking (id :: ids) → id ∈ (s.clients x.client).stubs →
      RemoteMove cfg s (.ask j)
        { s.setOp j { x with status := .asking id s.attempts.length ids } with
          attempts := s.attempts ++ [⟨j, id, none⟩] }
  | arrive {r : ℕ} {held : Bool} {q : Attempt} {x : RemoteOp} {t : StoreState} :
      s.attempts[r]? = some q → s.ops[q.op]? = some x → q.call = none →
      storeStep cfg s.store (s.serve q.dst held x.req).1 = some t →
      RemoteMove cfg s (.arrive r held)
        { s with
          store := t
          attempts := s.attempts.set r { q with call := some (s.serve q.dst held x.req).2 } }
  | answer {j id r : ℕ} {ids : List ℕ} {x : RemoteOp} {q : Attempt} {i : CallId}
      {res : ApplyResult} : s.ops[j]? = some x → x.status = .asking id r ids →
      s.attempts[r]? = some q → q.call = some i → s.store.returned i = some res →
      RemoteMove cfg s (.answer j)
        { (s.setOp j { x with status := .returned r res.wire }).setClient x.client
            { s.clients x.client with leader := id } with
          history := s.history ++ [.ret j res.wire] }

theorem RemoteState.stubs_update {c : ℕ} {cl : Client} (h : cl.stubs = (s.clients c).stubs)
    (d : ℕ) : (Function.update s.clients c cl d).stubs = (s.clients d).stubs := by
  rw [Function.update_apply]
  split
  · rename_i hd
    rw [h, hd]
  · rfl

theorem remoteStep_cases (h : remoteStep cfg s a = some t) : RemoteMove cfg s a t := by
  cases a with
  | store a =>
    simp only [remoteStep] at h
    split at h
    · cases h
    rename_i hb
    obtain ⟨u, hu, rfl⟩ := Option.map_eq_some_iff.mp h
    exact .store (by simpa using hb) hu
  | start c call =>
    simp only [remoteStep] at h
    split at h
    · cases h
    · rename_i hreq
      obtain rfl := Option.some.inj h
      exact .start hreq
  | sweep j now =>
    obtain ⟨x, hx, h⟩ := Option.bind_eq_some_iff.mp h
    split at h
    · rename_i hst
      obtain rfl := Option.some.inj h
      exact .goes hx (hst ▸ .sweep _) (by simp) fun _ => rfl
    · cases h
  | skip j =>
    obtain ⟨x, hx, h⟩ := Option.bind_eq_some_iff.mp h
    split at h
    · rename_i hst
      split at h
      · cases h
      · rename_i hid
        obtain rfl := Option.some.inj h
        exact .goes hx (hst ▸ .skip hid) (by simp) fun _ => rfl
    · cases h
  | ask j =>
    obtain ⟨x, hx, h⟩ := Option.bind_eq_some_iff.mp h
    split at h
    · rename_i hst
      split at h
      · rename_i hid
        obtain rfl := Option.some.inj h
        exact .ask hx hst hid
      · cases h
    · cases h
  | arrive r held =>
    obtain ⟨q, hq, h⟩ := Option.bind_eq_some_iff.mp h
    obtain ⟨x, hx, h⟩ := Option.bind_eq_some_iff.mp h
    split at h
    · rename_i hnone
      obtain ⟨u, hu, h⟩ := Option.bind_eq_some_iff.mp h
      obtain rfl := Option.some.inj h
      exact .arrive hq hx hnone hu
    · cases h
  | answer j =>
    obtain ⟨x, hx, h⟩ := Option.bind_eq_some_iff.mp h
    split at h
    · rename_i hst
      obtain ⟨q, hq, h⟩ := Option.bind_eq_some_iff.mp h
      obtain ⟨i, hi, h⟩ := Option.bind_eq_some_iff.mp h
      obtain ⟨res, hres, h⟩ := Option.bind_eq_some_iff.mp h
      obtain rfl := Option.some.inj h
      exact .answer hx hst hq hi hres
    · cases h
  | redirect j hint =>
    obtain ⟨x, hx, h⟩ := Option.bind_eq_some_iff.mp h
    split at h
    · rename_i hst
      obtain ⟨q, -, h⟩ := Option.bind_eq_some_iff.mp h
      obtain ⟨i, -, h⟩ := Option.bind_eq_some_iff.mp h
      split at h
      · obtain rfl := Option.some.inj h
        exact .goes hx (hst ▸ .back) (by simp) fun _ => rfl
      · cases h
    · cases h
  | fail j now =>
    obtain ⟨x, hx, h⟩ := Option.bind_eq_some_iff.mp h
    split at h
    · rename_i hst
      obtain rfl := Option.some.inj h
      exact .goes hx (hst ▸ .back) (by simp) (RemoteState.stubs_update rfl)
    · cases h
  | pause j =>
    obtain ⟨x, hx, h⟩ := Option.bind_eq_some_iff.mp h
    split at h
    · rename_i hst
      obtain rfl := Option.some.inj h
      exact .goes hx (hst ▸ .pause) (fun _ => rfl) fun _ => rfl
    · cases h
  | giveUp j =>
    obtain ⟨x, hx, h⟩ := Option.bind_eq_some_iff.mp h
    split at h
    · rename_i hst
      obtain rfl := Option.some.inj h
      exact .goes hx (.giveUp (by rw [hst]; rfl)) (by simp) fun _ => rfl
    · rename_i hst
      obtain rfl := Option.some.inj h
      exact .goes hx (.giveUp (by rw [hst]; rfl)) (by simp) fun _ => rfl
    · cases h

end Steps

end KMC
