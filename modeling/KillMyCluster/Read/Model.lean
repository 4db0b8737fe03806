import KillMyCluster.Raft.Cluster

/-! `ReadIndex` and the read batcher of `internal/raft/batch.go`, over a running cluster. Calls
queue up at a node and its batcher serves them batch by batch: it reads the commit index, confirms
its leadership by a round of heartbeats, reads the commit index again and waits for the applier.
A set lease counts as long as the run says so (`held`). -/

namespace KMC

/-- How far `serveReadBatch` has come with the batch at hand. -/
inductive ReadPhase
  | idle
  | begun (term readIndex : ℕ)
  /-- In `confirmLeadership`: the counter `acks` and the RPCs of the heartbeats. -/
  | polling (term readIndex acks : ℕ) (beats : List ℕ)
  /-- In `WaitApplied`; `round` tells whether a round of heartbeats came before. -/
  | waiting (readIndex : ℕ) (round : Bool)
deriving DecidableEq

/-- The reads of one process: calls in `readCh`, the batch being served, and the calls that found
a lease, with the index they wait for. -/
structure Reader where
  queue : List ℕ := []
  batch : List ℕ := []
  phase : ReadPhase := .idle
  leased : List (ℕ × ℕ) := []

structure ReadResult where
  call : ℕ
  index : ℕ
  ok : Bool
  round : Bool
deriving DecidableEq

structure ReadState where
  base : State
  readers : ℕ → Reader := fun _ => {}
  calls : ℕ := 0
  results : List ReadResult := []

inductive ReadAction
  | cluster (a : Action)
  | call (p : ℕ) (held : Bool)
  | collect (p k : ℕ) (held : Bool)
  | confirm (p : ℕ)
  | beat (p q : ℕ)
  | ack (p k j : ℕ) (io : Io)
  | confirmed (p : ℕ)
  | abandon (p : ℕ)
  | applied (p : ℕ)
  | appliedLeased (p i : ℕ)

namespace ReadState

def advance (s : ReadState) (t : State) : ReadState :=
  { s with
    base := t
    readers := fun p =>
      if (t.servers p).epoch = (s.base.servers p).epoch then s.readers p else {} }

def setReader (s : ReadState) (p : ℕ) (b : Reader) : ReadState :=
  { s with readers := Function.update s.readers p b }

def answer (s : ReadState) (p : ℕ) (b : Reader) (res : ℕ → ReadResult) : ReadState :=
  { s.setReader p { b with batch := [], phase := .idle } with
    results := s.results ++ b.batch.map res }

def failReads (s : ReadState) (p : ℕ) (b : Reader) : ReadState :=
  s.answer p b fun c => ⟨c, 0, false, false⟩

end ReadState

/-- `ReadIndex` up to its wait. -/
def Node.readIndex (n : Node) (held : Bool) (c : ℕ) (b : Reader) : Reader :=
  if n.role = .leader ∧ n.readLease ∧ held then
    { b with leased := b.leased ++ [(c, n.commitIndex)] }
  else { b with queue := b.queue ++ [c] }

def countAck (n : Node) (term acks : ℕ) : Response → ℕ
  | .append resp => if n.acknowledges term resp then acks + 1 else acks
  | _ => acks

/-- Heartbeats are sent and leases set by the readers alone. -/
def Action.ofReader : Action → Bool
  | .heartbeat _ _ | .lease _ => true
  | _ => false

def readStep (cfg : Config) (s : ReadState) : ReadAction → Option ReadState
  | .cluster a => if a.ofReader then none else (step cfg s.base a).map s.advance
  | .call p held => do
    let n ← s.base.node p
    return { s.setReader p (n.readIndex held s.calls (s.readers p)) with calls := s.calls + 1 }
  | .collect p k held => do
    let n ← s.base.node p
    let b := s.readers p
    if b.phase ≠ .idle ∨ b.queue = [] then none
    else
      let b := { b with batch := b.queue.take (k + 1), queue := b.queue.drop (k + 1) }
      match n.serveReadBatch with
      | none => return s.failReads p b
      | some (term, readIndex) =>
        return s.setReader p { b with
          phase := if n.readLease && held then .waiting readIndex false
            else .begun term readIndex }
  | .confirm p => do
    let n ← s.base.node p
    let b := s.readers p
    match b.phase with
    | .begun term readIndex =>
      if n.leads term then return s.setReader p { b with phase := .polling term readIndex 1 [] }
      else return s.failReads p b
    | _ => none
  | .beat p q => do
    let n ← s.base.node p
    let b := s.readers p
    match b.phase with
    | .polling term readIndex acks beats =>
      if n.leads term ∧ ∀ k ∈ beats, ∀ r ∈ s.base.rpcs[k]?, r.dst ≠ q then do
        let t ← step cfg s.base (.heartbeat p q)
        return (s.advance t).setReader p
          { b with phase := .polling term readIndex acks (beats ++ [s.base.rpcs.length]) }
      else none
    | _ => none
  | .ack p k j io => do
    let n ← s.base.node p
    let b := s.readers p
    match b.phase with
    | .polling term readIndex acks beats =>
      if k ∈ beats then do
        let r ← s.base.rpcs[k]?
        let resp ← r.resps[j]?
        let t ← step cfg s.base (.respond k j io)
        return (s.advance t).setReader p
          { b with phase := .polling term readIndex (countAck n term acks resp) beats }
      else none
    | _ => none
  | .confirmed p => do
    let n ← s.base.node p
    let b := s.readers p
    match b.phase with
    | .polling term readIndex acks _ =>
      if n.majority ≤ acks then do
        let t ← step cfg s.base (.lease p)
        match n.readAfterRound term readIndex with
        | some i => return (s.advance t).setReader p { b with phase := .waiting i true }
        | none => return (s.advance t).failReads p b
      else none
    | _ => none
  | .abandon p => do
    let _ ← s.base.node p
    if (s.readers p).phase = .idle then none else return s.failReads p (s.readers p)
  | .applied p => do
    let n ← s.base.node p
    match (s.readers p).phase with
    | .waiting readIndex round =>
      if readIndex ≤ n.lastApplied then
        return s.answer p (s.readers p) fun c => ⟨c, readIndex, true, round⟩
      else none
    | _ => none
  | .appliedLeased p i => do
    let n ← s.base.node p
    let (c, readIndex) ← (s.readers p).leased[i]?
    if readIndex ≤ n.lastApplied then
      return { s.setReader p { s.readers p with leased := (s.readers p).leased.eraseIdx i } with
        results := s.results ++ [⟨c, readIndex, true, false⟩] }
    else none

def ReadAction.act : ReadAction → Option Action
  | .cluster a => some a
  | .beat p q => some (.heartbeat p q)
  | .ack _ k j io => some (.respond k j io)
  | .confirmed p => some (.lease p)
  | _ => none

/-! ## What a step of the readers can do -/

inductive ReadMove (cfg : Config) (s : ReadState) : ReadAction → ReadState → Prop
  | cluster {a : Action} {t : State} : step cfg s.base a = some t →
      ReadMove cfg s (.cluster a) (s.advance t)
  | call {p : ℕ} {held : Bool} {n : Node} : s.base.node p = some n →
      ReadMove cfg s (.call p held)
        { s.setReader p (n.readIndex held s.calls (s.readers p)) with calls := s.calls + 1 }
  | collect {p k : ℕ} {held : Bool} {phase : ReadPhase} :
      ((∃ i, phase = .waiting i false) ∨ ∃ term i, phase = .begun term i) →
      ReadMove cfg s (.collect p k held) (s.setReader p { s.readers p with
        batch := (s.readers p).queue.take (k + 1)
        queue := (s.readers p).queue.drop (k + 1)
        phase := phase })
  | confirm {p term i : ℕ} : (s.readers p).phase = .begun term i →
      ReadMove cfg s (.confirm p)
        (s.setReader p { s.readers p with phase := .polling term i 1 [] })
  | beat {p q term i acks : ℕ} {beats : List ℕ} {t : State} :
      (s.readers p).phase = .polling term i acks beats →
      (∀ k ∈ beats, ∀ r ∈ s.base.rpcs[k]?, r.dst ≠ q) →
      step cfg s.base (.heartbeat p q) = some t →
      ReadMove cfg s (.beat p q) ((s.advance t).setReader p { s.readers p with
        phase := .polling term i acks (beats ++ [s.base.rpcs.length]) })
  | ack {p k j term i acks : ℕ} {beats : List ℕ} {io : Io} {n : Node} {r : Rpc} {resp : Response}
      {t : State} : (s.readers p).phase = .polling term i acks beats → k ∈ beats →
      s.base.rpcs[k]? = some r → r.resps[j]? = some resp →
      step cfg s.base (.respond k j io) = some t →
      ReadMove cfg s (.ack p k j io) ((s.advance t).setReader p { s.readers p with
        phase := .polling term i (countAck n term acks resp) beats })
  | confirmed {p term i acks : ℕ} {beats : List ℕ} {n : Node} {t : State} :
      s.base.node p = some n → (s.readers p).phase = .polling term i acks beats →
      n.majority ≤ acks → step cfg s.base (.lease p) = some t → n.role = .leader →
      n.currentTerm = term →
      ReadMove cfg s (.confirmed p) ((s.advance t).setReader p { s.readers p with
        phase := .waiting (if i < n.commitIndex then n.commitIndex else i) true })
  | deposed {p : ℕ} {t : State} : step cfg s.base (.lease p) = some t →
      ReadMove cfg s (.confirmed p) ((s.advance t).failReads p (s.readers p))
  | fail {a : ReadAction} {p : ℕ} {b : Reader} : a.act = none →
      (∀ c ∈ b.queue, c ∈ (s.readers p).queue) →
      (∀ c ∈ b.batch, c ∈ (s.readers p).batch ∨ c ∈ (s.readers p).queue) →
      ReadMove cfg s a (s.failReads p b)
  | applied {p i : ℕ} {round : Bool} : (s.readers p).phase = .waiting i round →
      ReadMove cfg s (.applied p) (s.answer p (s.readers p) fun c => ⟨c, i, true, round⟩)
  | appliedLeased {p j c i : ℕ} {leased : List (ℕ × ℕ)} :
      ReadMove cfg s (.appliedLeased p j)
        { s.setReader p { s.readers p with leased := leased } with
          results := s.results ++ [⟨c, i, true, false⟩] }

theorem readStep_cases {cfg : Config} {s t : ReadState} {a : ReadAction}
    (h : readStep cfg s a = some t) : ReadMove cfg s a t := by
  cases a with
  | cluster a =>
    simp only [readStep] at h
    split at h
    · cases h
    obtain ⟨u, hu, rfl⟩ := Option.map_eq_some_iff.mp h
    exact .cluster hu
  | call p held =>
    simp only [readStep, Option.bind_eq_bind, Option.bind_eq_some_iff] at h
    obtain ⟨n, hn, h⟩ := h
    obtain rfl := Option.some.inj h
    exact .call hn
  | collect p k held =>
    simp only [readStep, Option.bind_eq_bind, Option.bind_eq_some_iff] at h
    obtain ⟨n, hn, h⟩ := h
    split at h
    · cases h
    split at h
    · obtain rfl := Option.some.inj h
      refine .fail rfl (fun c hc => List.mem_of_mem_drop hc) fun c hc => ?_
      exact Or.inr (List.mem_of_mem_take hc)
    · obtain rfl := Option.some.inj h
      refine .collect ?_
      split
      · exact Or.inl ⟨_, rfl⟩
      · exact Or.inr ⟨_, _, rfl⟩
  | confirm p =>
    simp only [readStep, Option.bind_eq_bind, Option.bind_eq_some_iff] at h
    obtain ⟨n, hn, h⟩ := h
    split at h
    · rename_i hph
      split at h
      · obtain rfl := Option.some.inj h
        exact .confirm hph
      · obtain rfl := Option.some.inj h
        exact .fail rfl (fun _ => id) fun _ => Or.inl
    · cases h
  | beat p q =>
    simp only [readStep, Option.bind_eq_bind, Option.bind_eq_some_iff] at h
    obtain ⟨n, hn, h⟩ := h
    split at h
    · rename_i hph
      split at h
      · rename_i hg
        obtain ⟨u, hu, h⟩ := Option.bind_eq_some_iff.mp h
        obtain rfl := Option.some.inj h
        exact .beat hph hg.2 hu
      · cases h
    · cases h
  | ack p k j io =>
    simp only [readStep, Option.bind_eq_bind, Option.bind_eq_some_iff] at h
    obtain ⟨n, hn, h⟩ := h
    split at h
    · rename_i hph
      split at h
      · rename_i hk
        simp only [Option.bind_eq_some_iff] at h
        obtain ⟨r, hr, resp, hresp, u, hu, h⟩ := h
        obtain rfl := Option.some.inj h
        exact .ack hph hk hr hresp hu
      · cases h
    · cases h
  | confirmed p =>
    simp only [readStep, Option.bind_eq_bind, Option.bind_eq_some_iff] at h
    obtain ⟨n, hn, h⟩ := h
    split at h
    · rename_i hph
      split at h
      · rename_i hmaj
        obtain ⟨u, hu, h⟩ := Option.bind_eq_some_iff.mp h
        unfold Node.readAfterRound at h
        split at h
        · rename_i i hi
          obtain rfl := Option.some.inj h
          split at hi
          · rename_i hlead
            obtain rfl := Option.some.inj hi
            exact .confirmed hn hph hmaj hu hlead.1 hlead.2
          · cases hi
        · obtain rfl := Option.some.inj h
          exact .deposed hu
      · cases h
    · cases h
  | abandon p =>
    simp only [readStep, Option.bind_eq_bind, Option.bind_eq_some_iff] at h
    obtain ⟨n, hn, h⟩ := h
    split at h
    · cases h
    · obtain rfl := Option.some.inj h
      exact .fail rfl (fun _ => id) fun _ => Or.inl
  | applied p =>
    simp only [readStep, Option.bind_eq_bind, Option.bind_eq_some_iff] at h
    obtain ⟨n, hn, h⟩ := h
    split at h
    · rename_i hph
      split at h
      · obtain rfl := Option.some.inj h
        exact .applied hph
      · cases h
    · cases h
  | appliedLeased p i =>
    simp only [readStep, Option.bind_eq_bind, Option.bind_eq_some_iff] at h
    obtain ⟨n, hn, ⟨c, j⟩, hc, h⟩ := h
    simp only at h
    split at h
    · obtain rfl := Option.some.inj h
      exact .appliedLeased
    · cases h

theorem readStep_base {cfg : Config} {s t : ReadState} {a : ReadAction}
    (h : readStep cfg s a = some t) :
    t.base = s.base ∨ ∃ b, a.act = some b ∧ step cfg s.base b = some t.base := by
  cases readStep_cases h with
  | cluster hu => exact Or.inr ⟨_, rfl, hu⟩
  | beat _ _ hu => exact Or.inr ⟨_, rfl, hu⟩
  | ack _ _ _ _ hu => exact Or.inr ⟨_, rfl, hu⟩
  | confirmed _ _ _ hu _ _ => exact Or.inr ⟨_, rfl, hu⟩
  | deposed hu => exact Or.inr ⟨_, rfl, hu⟩
  | _ => exact Or.inl rfl

end KMC
