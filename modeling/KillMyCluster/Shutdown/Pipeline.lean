import KillMyCluster.Shutdown.Life

/-! Shutdown of a `kv.Cluster`. The Raft applier sends on a channel of 256 slots, the KV applier
receives from it. `Cluster.Stop` lets the KV applier go first and then waits for the Raft applier,
which looks at `stopped` only between two batches: what it still has in hand must fit into the
channel. -/

namespace KMC

open Trace

structure Consumer where
  /-- Messages received from `applyCh`. -/
  received : ℕ := 0
  /-- `Cluster.Stop` has closed `c.stop`. -/
  stopping : Bool := false
  /-- The KV applier has returned. -/
  exited : Bool := false

structure PipeState where
  life : LifeState
  kvs : ℕ → Consumer := fun _ => {}

inductive PipeAction
  | life (a : LifeAction)
  | stop (p : ℕ)
  | receive (p : ℕ)
  | exit (p : ℕ)

def applyCap : ℕ := 256

namespace PipeState

def server (s : PipeState) (p : ℕ) : Server := s.life.base.servers p

def queued (s : PipeState) (p : ℕ) : ℕ := (s.server p).sent.length - (s.kvs p).received

/-- A send needs a free slot, `raft.Stop` stands behind the wait for the KV applier, and it is the
KV applier that calls `Snapshot`. -/
def admits (s : PipeState) : LifeAction → Bool
  | .act (.applierSend p) => s.queued p < applyCap
  | .act (.stop p) => (s.kvs p).stopping && (s.kvs p).exited
  | .act (.snapshot p _ _ _) => !(s.kvs p).exited
  | _ => true

def advance (s : PipeState) (t : LifeState) : PipeState where
  life := t
  kvs := fun p => if (t.base.servers p).epoch = (s.server p).epoch then s.kvs p else {}

def setKv (s : PipeState) (p : ℕ) (kv : Consumer) : PipeState :=
  { s with kvs := Function.update s.kvs p kv }

end PipeState

def pipeStep (cfg : Config) (s : PipeState) : PipeAction → Option PipeState
  | .life a => if s.admits a then (lifeStep cfg s.life a).map s.advance else none
  | .stop p =>
    if (s.server p).proc.isSome then some (s.setKv p { s.kvs p with stopping := true }) else none
  | .receive p =>
    if (s.server p).proc.isSome ∧ (s.kvs p).exited = false ∧
        (s.kvs p).received < (s.server p).sent.length then
      some (s.setKv p { s.kvs p with received := (s.kvs p).received + 1 })
    else none
  | .exit p =>
    if (s.server p).proc.isSome ∧ (s.kvs p).stopping ∧ (s.kvs p).exited = false then
      some (s.setKv p { s.kvs p with exited := true })
    else none

def Config.pipes (cfg : Config) : PipeState := { life := cfg.births }

def Node.backlog (n : Node) : ℕ :=
  if n.pendingSnapshot.isSome then 1 else n.commitIndex - n.lastApplied

/-- From the exit of the KV applier on, what the Raft applier has in hand or picks up fits into the
free slots. -/
def PipeAction.Roomy (s : PipeState) : PipeAction → Prop
  | .exit p => (s.server p).batch.length + s.queued p ≤ applyCap
  | .life (.act (.applierTake p)) => (s.kvs p).exited = true → ∀ n ∈ (s.server p).proc,
      n.backlog + s.queued p ≤ applyCap
  | _ => True

variable {cfg : Config} {p : ℕ} {n m : Node} {batch : List ApplyMsg} {t u : LifeState}

theorem Node.length_collectBatch {log : RaftLog} {i k : ℕ}
    (h : Node.collectBatch log i k = some batch) : batch.length = k := by
  induction k generalizing i batch with
  | zero =>
    obtain rfl := Option.some.inj h
    rfl
  | succ k ih =>
    simp only [Node.collectBatch, Option.bind_eq_bind, Option.bind_eq_some_iff, Option.pure_def,
      Option.some.injEq] at h
    obtain ⟨e, -, rest, hrest, rfl⟩ := h
    simp [ih hrest]

theorem Node.applierTake_length (h : n.applierTake = some (m, batch)) :
    batch.length = n.backlog := by
  unfold Node.applierTake at h
  split at h
  · cases h
  split at h
  · rename_i snap hp
    obtain ⟨-, rfl⟩ := Prod.mk.inj (Option.some.inj h)
    simp [Node.backlog, hp]
  · rename_i hp
    split at h
    · cases h
    obtain ⟨b, hb, hx⟩ := Option.map_eq_some_iff.mp h
    obtain ⟨-, rfl⟩ := Prod.mk.inj hx
    simp [Node.backlog, hp, Node.length_collectBatch hb]

/-! ## The queue of a process -/

inductive Queue (s : State) (a : Action) (p : ℕ) (srv : Server) : Prop
  | kept : srv.batch = (s.servers p).batch → srv.sent = (s.servers p).sent →
      srv.epoch = (s.servers p).epoch → (srv.proc.isSome → (s.servers p).proc.isSome) →
      Queue s a p srv
  | took {n m : Node} {batch : List ApplyMsg} : a = .applierTake p → s.node p = some n →
      n.applierTake = some (m, batch) → (s.servers p).batch = [] →
      srv = { s.servers p with proc := some m, batch := batch } → Queue s a p srv
  | gave {n : Node} {m : ApplyMsg} {rest : List ApplyMsg} : a = .applierSend p →
      s.node p = some n → (s.servers p).batch = m :: rest → srv.batch = rest →
      srv.sent = (s.servers p).sent ++ [m] → srv.epoch = (s.servers p).epoch → Queue s a p srv
  | fresh : srv.batch = [] → srv.epoch = (s.servers p).epoch + 1 → Queue s a p srv

theorem step_queue {s t : State} {a : Action} (h : step cfg s a = some t) (p : ℕ) :
    Queue s a p (t.servers p) := by
  have hsome : ∀ {q : ℕ} {n : Node} {P : Prop}, s.node q = some n → P →
      (s.servers q).proc.isSome := fun hn _ => Option.isSome_iff_exists.mpr ⟨_, hn⟩
  refine step_servers h (I := Queue s a) (fun _ => .kept rfl rfl rfl id)
    (fun _ _ _ _ hn _ _ => .kept rfl rfl rfl (hsome hn))
    (fun _ _ _ _ _ _ hn _ _ => .kept rfl rfl rfl (hsome hn)) (fun q srv hch => ?_) p
  cases hch with
  | applierTake hn ht hb => exact .took rfl hn ht hb rfl
  | applierSend hn hb => exact .gave rfl hn hb rfl rfl rfl
  | crash hn => exact .kept rfl rfl rfl (hsome hn)
  | restart _ _ => exact .fresh rfl rfl
  | stop hn => exact .kept rfl rfl rfl (hsome hn)

/-- The counters add up, a batch in hand has the applier to send it, and after the exit of the KV
applier it fits. -/
structure Flows (s : PipeState) : Prop where
  received : ∀ p, (s.kvs p).received ≤ (s.server p).sent.length
  staffed : ∀ p n, (s.server p).proc = some n → (s.server p).batch ≠ [] →
    .applier ∈ (s.life.lives p).threads
  fits : ∀ p, (s.kvs p).exited = true → (s.server p).batch.length + s.queued p ≤ applyCap

theorem flows_pipes (cfg : Config) : Flows cfg.pipes := by
  refine ⟨?_, ?_, ?_⟩ <;>
    simp [Config.pipes, Config.births, Config.init, PipeState.server]

/-! ## The base step of a life step -/

/-- What a step of a process does to the server: a step of the cluster, or a nil dereference. -/
theorem lifeStep_base {s : LifeState} {a : LifeAction} (h : lifeStep cfg s a = some t) :
    (∃ x u, a = .act x ∧ s.ready x = true ∧ step cfg s.base x = some u ∧ t = s.advance u) ∨
    (∃ x q call, a = .act x ∧ t = s.advance (s.base.nilDeref q call)) ∨
    ∃ q life n, t = s.setLife q life ∧ s.base.node q = some n ∧
      ((s.base.servers q).batch ≠ [] → .applier ∈ (s.lives q).threads →
        .applier ∈ life.threads) ∧
      (life.closed = true → (s.lives q).closed = true ∨ (s.lives q).threads = []) := by
  cases a with
  | act x =>
    simp only [lifeStep, Option.bind_eq_bind, Option.bind_eq_some_iff] at h
    obtain ⟨u, hu, h⟩ := h
    split at h
    · rename_i hr
      split at h
      · exact .inr (.inl ⟨x, _, _, rfl, (Option.some.inj h).symm⟩)
      · exact .inl ⟨x, u, rfl, hr, hu, (Option.some.inj h).symm⟩
    · cases h
  | exit q th =>
    simp only [lifeStep, Option.bind_eq_bind, Option.bind_eq_some_iff] at h
    obtain ⟨n, hn, h⟩ := h
    split at h
    · rename_i hg
      refine .inr (.inr ⟨q, _, n, (Option.some.inj h).symm, hn, fun hb hth => ?_, .inl⟩)
      -- the applier does not leave with a batch in hand
      have hne : th ≠ .applier := by
        rintro rfl
        simp [Thread.done, hb] at hg
      exact (List.mem_erase_of_ne hne.symm).mpr hth
    · cases h
  | close q =>
    simp only [lifeStep, Option.bind_eq_bind, Option.bind_eq_some_iff] at h
    obtain ⟨n, hn, h⟩ := h
    split at h
    · rename_i hg
      exact .inr (.inr ⟨q, _, n, (Option.some.inj h).symm, hn, fun _ hth => hth,
        fun _ => .inr hg.2.1⟩)
    · cases h

theorem Lifetime.applier_next {life : Lifetime} {o : Option Node}
    (h : ∀ n, o = some n → .applier ∈ life.threads) :
    .applier ∈ (life.next o (some m)).threads := by
  cases o with
  | none => simp [Lifetime.next, firstThreads]
  | some n =>
    simp only [Lifetime.next]
    split
    · exact List.mem_append_left _ (h n rfl)
    · exact h n rfl

theorem PipeState.queued_advance {s : PipeState}
    (he : (t.base.servers p).epoch = (s.server p).epoch) : (s.advance t).kvs p = s.kvs p ∧
      (s.advance t).queued p = (t.base.servers p).sent.length - (s.kvs p).received := by
  simp [PipeState.advance, PipeState.queued, PipeState.server, he]

/-- A step that leaves hand and channel alone. -/
theorem Flows.keep {s : PipeState} (h : Flows s)
    (hb : (t.base.servers p).batch = (s.server p).batch)
    (hsent : (t.base.servers p).sent = (s.server p).sent)
    (he : (t.base.servers p).epoch = (s.server p).epoch) :
    ((s.advance t).kvs p).received ≤ ((s.advance t).server p).sent.length ∧
    (((s.advance t).kvs p).exited = true →
      ((s.advance t).server p).batch.length + (s.advance t).queued p ≤ applyCap) := by
  obtain ⟨hkv, hq⟩ := PipeState.queued_advance he
  rw [hkv, hq, hsent]
  simp only [PipeState.advance, PipeState.server] at hb hsent ⊢
  rw [hb, hsent]
  exact ⟨h.received p, h.fits p⟩

theorem Flows.act {s : PipeState} {x : Action} {u : State} (h : Flows s)
    (ha : (PipeAction.life (.act x)).Roomy s) (hadm : s.admits (.act x) = true)
    (hr : s.life.ready x = true) (hu : step cfg s.life.base x = some u) :
    Flows (s.advance (s.life.advance u)) := by
  -- hand and channel
  have hqueue : ∀ p, ((s.advance (s.life.advance u)).kvs p).received ≤
      ((s.advance (s.life.advance u)).server p).sent.length ∧
      (((s.advance (s.life.advance u)).kvs p).exited = true →
        ((s.advance (s.life.advance u)).server p).batch.length +
          (s.advance (s.life.advance u)).queued p ≤ applyCap) := by
    intro p
    have hrec := h.received p
    have hfits := h.fits p
    simp only [PipeState.queued, PipeState.server] at hrec hfits
    cases step_queue hu p with
    | kept hb hsent he _ => exact h.keep hb hsent he
    | @took n m batch hx hn ht _ hsrv =>
      subst hx
      have he : ((s.life.advance u).base.servers p).epoch = (s.server p).epoch := by
        simp [LifeState.advance, hsrv, PipeState.server]
      obtain ⟨hkv, hq⟩ := PipeState.queued_advance he
      rw [hkv, hq]
      simp only [PipeState.advance, PipeState.server, LifeState.advance, hsrv]
      refine ⟨hrec, fun hex => ?_⟩
      have := ha hex n hn
      rw [Node.applierTake_length ht]
      exact this
    | @gave _ m rest hx _ hb hb' hsent he =>
      subst hx
      obtain ⟨hkv, hq⟩ := PipeState.queued_advance (t := s.life.advance u) he
      rw [hkv, hq]
      simp only [PipeState.advance, PipeState.server, LifeState.advance, hb', hsent,
        List.length_append, List.length_singleton]
      rw [hb, List.length_cons] at hfits
      refine ⟨by omega, fun hex => ?_⟩
      have := hfits hex
      omega
    | fresh hb he =>
      have hkv : (s.advance (s.life.advance u)).kvs p = {} := by
        simp [PipeState.advance, LifeState.advance, PipeState.server, he]
      rw [hkv]
      exact ⟨Nat.zero_le _, by simp⟩
  refine ⟨fun p => (hqueue p).1, fun p m hm hb => ?_, fun p => (hqueue p).2⟩
  simp only [PipeState.advance, PipeState.server, LifeState.advance] at hm hb ⊢
  rw [show u.node p = some m from hm]
  refine Lifetime.applier_next fun n hn => ?_
  cases step_queue hu p with
  | kept hb' _ _ _ => exact h.staffed p n hn (hb' ▸ hb)
  | took hx _ _ _ _ =>
    subst hx
    simpa [LifeState.ready] using hr
  | gave hx _ hb' _ _ _ =>
    subst hx
    simpa [LifeState.ready] using hr
  | fresh hb' _ => exact absurd hb' hb

theorem Flows.setKv {s : PipeState} (h : Flows s) {kv : Consumer}
    (hrec : kv.received ≤ (s.server p).sent.length)
    (hfits : kv.exited = true →
      (s.server p).batch.length + ((s.server p).sent.length - kv.received) ≤ applyCap) :
    Flows (s.setKv p kv) := by
  refine ⟨fun q => ?_, h.staffed, fun q => ?_⟩
  · by_cases hq : q = p
    · subst hq
      simpa [PipeState.setKv, PipeState.server] using hrec
    · simpa [PipeState.setKv, PipeState.server, hq] using h.received q
  · by_cases hq : q = p
    · subst hq
      simpa [PipeState.setKv, PipeState.queued, PipeState.server] using hfits
    · simpa [PipeState.setKv, PipeState.queued, PipeState.server, hq] using h.fits q

theorem Flows.step {s t : PipeState} {a : PipeAction} (h : Flows s) (ha : a.Roomy s)
    (hs : pipeStep cfg s a = some t) : Flows t := by
  cases a with
  | life x =>
    simp only [pipeStep] at hs
    split at hs
    · rename_i hadm
      obtain ⟨u, hu, rfl⟩ := Option.map_eq_some_iff.mp hs
      rcases lifeStep_base hu with ⟨y, v, rfl, hr, hv, rfl⟩ | ⟨y, q, call, rfl, rfl⟩ |
        ⟨q, life, -, rfl, -, hlife, -⟩
      · exact h.act ha hadm hr hv
      · have hsrv : ∀ p, ((s.life.base.nilDeref q call).servers p).batch = (s.server p).batch ∧
            ((s.life.base.nilDeref q call).servers p).sent = (s.server p).sent ∧
            ((s.life.base.nilDeref q call).servers p).epoch = (s.server p).epoch ∧
            ∀ m, ((s.life.base.nilDeref q call).servers p).proc = some m →
              (s.server p).proc = some m := by
          intro p
          by_cases hp : p = q
          · subst hp
            simp [State.nilDeref, State.setServer, Server.die, PipeState.server]
          · simp [State.nilDeref, State.setServer, hp, PipeState.server]
        refine ⟨fun p => ?_, fun p m hm hb => ?_, fun p => ?_⟩
        · exact (h.keep (hsrv p).1 (hsrv p).2.1 (hsrv p).2.2.1).1
        · have hm' := (hsrv p).2.2.2 m hm
          simp only [PipeState.advance, LifeState.advance, State.node]
          rw [show ((s.life.base.nilDeref q call).servers p).proc = some m from hm]
          exact Lifetime.applier_next fun n hn => h.staffed p m hm' ((hsrv p).1 ▸ hb)
        · exact (h.keep (hsrv p).1 (hsrv p).2.1 (hsrv p).2.2.1).2
      · refine ⟨fun p => (h.keep rfl rfl rfl).1, fun p m hm hb => ?_,
          fun p => (h.keep rfl rfl rfl).2⟩
        have hold := h.staffed p m hm hb
        by_cases hp : p = q
        · subst hp
          simpa [PipeState.advance, LifeState.setLife] using hlife hb hold
        · simpa [PipeState.advance, LifeState.setLife, hp] using hold
    · cases hs
  | stop p =>
    simp only [pipeStep] at hs
    split at hs
    · obtain rfl := Option.some.inj hs
      exact h.setKv (h.received p) (h.fits p)
    · cases hs
  | receive p =>
    simp only [pipeStep] at hs
    split at hs
    · rename_i hg
      obtain rfl := Option.some.inj hs
      exact h.setKv hg.2.2 fun hex => by simp [hg.2.1] at hex
    · cases hs
  | exit p =>
    simp only [pipeStep] at hs
    split at hs
    · obtain rfl := Option.some.inj hs
      exact h.setKv (h.received p) fun _ => ha
    · cases hs

/-! ## Steps of one process -/

structure PipeState.At (s : PipeState) (p : ℕ) (srv : Server) (life : Lifetime) (kv : Consumer) :
    Prop where
  server : s.server p = srv
  life : s.life.lives p = life
  kv : s.kvs p = kv

section Process

variable (cfg) {s : PipeState} {srv : Server} {life : Lifetime} {kv : Consumer}

theorem PipeState.At.setKv (h : s.At p srv life kv) (kv' : Consumer) :
    (s.setKv p kv').At p srv life kv' :=
  ⟨h.server, h.life, by simp [PipeState.setKv]⟩

theorem PipeState.At.setLife (h : s.At p srv life kv) (life' : Lifetime) :
    (s.advance (s.life.setLife p life')).At p srv life' kv := by
  refine ⟨h.server, by simp [PipeState.advance, LifeState.setLife], ?_⟩
  simp [PipeState.advance, LifeState.setLife, PipeState.server, h.kv]

/-- A step of the node after which it leads if and only if it led before. -/
theorem PipeState.At.setServer (h : s.At p srv life kv) {srv' : Server} (hn : srv.proc = some n)
    (hm : srv'.proc = some m) (hrole : m.role = n.role) (he : srv'.epoch = srv.epoch) :
    (s.advance (s.life.advance (s.life.base.setServer p srv'))).At p srv' life kv := by
  have hsrv : s.life.base.servers p = srv := h.server
  refine ⟨by simp [PipeState.advance, LifeState.advance, PipeState.server, State.setServer], ?_, ?_⟩
  · simp only [PipeState.advance, LifeState.advance, State.node, State.setServer,
      Function.update_self, hsrv, hn, hm, Lifetime.next, hrole, h.life]
    split
    · rename_i hlead
      exact absurd hlead.2 hlead.1
    · rfl
  · simp [PipeState.advance, LifeState.advance, PipeState.server, State.setServer, hsrv, he, h.kv]

theorem PipeState.At.receive (h : s.At p srv life kv) (hn : srv.proc = some n)
    (hex : kv.exited = false) (hlt : kv.received < srv.sent.length) :
    ∃ t, pipeStep cfg s (.receive p) = some t ∧
      t.At p srv life { kv with received := kv.received + 1 } := by
  refine ⟨_, ?_, h.setKv _⟩
  simp [pipeStep, h.server, h.kv, hn, hex, hlt]

theorem PipeState.At.exit (h : s.At p srv life kv) (hn : srv.proc = some n)
    (hst : kv.stopping = true) (hex : kv.exited = false) :
    ∃ t, pipeStep cfg s (.exit p) = some t ∧ t.At p srv life { kv with exited := true } := by
  refine ⟨_, ?_, h.setKv _⟩
  simp [pipeStep, h.server, h.kv, hn, hst, hex]

theorem PipeState.At.send {m : ApplyMsg} {rest : List ApplyMsg} (h : s.At p srv life kv)
    (hn : srv.proc = some n) (hb : srv.batch = m :: rest) (hth : .applier ∈ life.threads)
    (hroom : srv.sent.length - kv.received < applyCap) :
    ∃ t, pipeStep cfg s (.life (.act (.applierSend p))) = some t ∧
      t.At p { srv with proc := some n, batch := rest, sent := srv.sent ++ [m] } life kv := by
  refine ⟨_, ?_, h.setServer hn rfl rfl rfl⟩
  have hsrv : s.life.base.servers p = srv := h.server
  have hlife := h.life
  have hadm : s.admits (.act (.applierSend p)) = true := by
    simpa [PipeState.admits, PipeState.queued, h.server, h.kv] using hroom
  simp [pipeStep, hadm, lifeStep, KMC.step, State.node, hsrv, hn, hb, LifeState.ready, hlife, hth,
    LifeState.useClosed, Action.effect]

theorem PipeState.At.raftStop (h : s.At p srv life kv) (hn : srv.proc = some n)
    (hst : kv.stopping = true) (hex : kv.exited = true) :
    ∃ t, pipeStep cfg s (.life (.act (.stop p))) = some t ∧
      t.At p { srv with proc := some { n with stopped := true } } life kv := by
  refine ⟨_, ?_, h.setServer hn rfl rfl rfl⟩
  have hsrv : s.life.base.servers p = srv := h.server
  simp [pipeStep, PipeState.admits, h.kv, hst, hex, lifeStep, KMC.step, State.node, hsrv, hn,
    LifeState.ready, LifeState.useClosed, Action.effect]

/-- Every goroutine of a stopped node leaves, the applier when its hand is empty. -/
theorem PipeState.At.leave {th : Thread} (h : s.At p srv life kv) (hn : srv.proc = some n)
    (hst : n.stopped = true) (hb : srv.batch = []) (hth : th ∈ life.threads) :
    ∃ t, pipeStep cfg s (.life (.exit p th)) = some t ∧
      t.At p srv { life with threads := life.threads.erase th } kv := by
  refine ⟨_, ?_, h.setLife _⟩
  have hsrv : s.life.base.servers p = srv := h.server
  have hdone : th.done n [] = true := by
    cases th <;> simp [Thread.done, hst]
  simp [pipeStep, PipeState.admits, lifeStep, State.node, hsrv, hn, h.life, hth, hb, hdone]

theorem PipeState.At.close (h : s.At p srv life kv) (hn : srv.proc = some n)
    (hst : n.stopped = true) (hth : life.threads = []) (hcl : life.closed = false) :
    ∃ t, pipeStep cfg s (.life (.close p)) = some t ∧
      t.At p srv { life with closed := true } kv := by
  refine ⟨_, ?_, h.setLife _⟩
  have hsrv : s.life.base.servers p = srv := h.server
  simp [pipeStep, PipeState.admits, lifeStep, State.node, hsrv, hn, h.life, hth, hcl, hst]

/-! ## A way out -/

/-- The KV applier receives all there is. -/
theorem PipeState.At.drain (hn : srv.proc = some n) {k : ℕ} (h : s.At p srv life kv)
    (hex : kv.exited = false) (hk : kv.received + k = srv.sent.length) :
    ∃ t, Reaches (pipeStep cfg) (fun s a => a.Roomy s) s t ∧
      t.At p srv life { kv with received := srv.sent.length } := by
  induction k generalizing s kv with
  | zero =>
    refine ⟨s, .refl s, ?_⟩
    rw [← hk]
    exact h
  | succ k ih =>
    obtain ⟨u, hu, hat⟩ := h.receive cfg hn hex (by omega)
    obtain ⟨t, ht, hat'⟩ := ih hat hex (by simp only; omega)
    exact ⟨t, ((Reaches.refl s).snoc hu trivial).trans ht, hat'⟩

/-- With the KV applier at work the Raft applier gets rid of all it has in hand. -/
theorem PipeState.At.deliver (h : s.At p srv life kv) (hn : srv.proc = some n)
    (hb : srv.batch = batch) (hex : kv.exited = false) (hrec : kv.received ≤ srv.sent.length)
    (hth : batch ≠ [] → .applier ∈ life.threads) :
    ∃ t srv', Reaches (pipeStep cfg) (fun s a => a.Roomy s) s t ∧
      t.At p srv' life { kv with received := srv'.sent.length } ∧ srv'.batch = [] ∧
      srv'.proc = some n ∧ srv'.epoch = srv.epoch := by
  induction batch generalizing s srv kv with
  | nil =>
    obtain ⟨t, ht, hat⟩ := h.drain cfg hn hex (Nat.add_sub_of_le hrec)
    exact ⟨t, srv, ht, hat, hb, hn, rfl⟩
  | cons m rest ih =>
    obtain ⟨u, hu, hat⟩ := h.drain cfg hn hex (Nat.add_sub_of_le hrec)
    obtain ⟨v, hv, hat⟩ := hat.send cfg hn hb (hth (by simp)) (by simp [applyCap])
    obtain ⟨t, srv', ht, hat, hrest⟩ := ih hat rfl rfl hex (by simp) fun _ => hth (by simp)
    exact ⟨t, srv', (hu.snoc hv trivial).trans ht, hat, hrest⟩

/-- Without the KV applier it does, if there are slots enough. -/
theorem PipeState.At.flush (h : s.At p srv life kv) (hn : srv.proc = some n)
    (hb : srv.batch = batch) (hrec : kv.received ≤ srv.sent.length)
    (hroom : batch.length + (srv.sent.length - kv.received) ≤ applyCap)
    (hth : batch ≠ [] → .applier ∈ life.threads) :
    ∃ t srv', Reaches (pipeStep cfg) (fun s a => a.Roomy s) s t ∧ t.At p srv' life kv ∧
      srv'.batch = [] ∧ srv'.proc = some n ∧ srv'.epoch = srv.epoch := by
  induction batch generalizing s srv with
  | nil => exact ⟨s, srv, .refl s, h, hb, hn, rfl⟩
  | cons m rest ih =>
    rw [List.length_cons] at hroom
    obtain ⟨v, hv, hat⟩ := h.send cfg hn hb (hth (by simp)) (by omega)
    have hlen : (srv.sent ++ [m]).length = srv.sent.length + 1 := by simp
    obtain ⟨t, srv', ht, hat, hrest⟩ := ih hat rfl rfl (by simp only [hlen]; omega)
      (by simp only [hlen]; omega) fun _ => hth (by simp)
    exact ⟨t, srv', ((Reaches.refl s).snoc hv trivial).trans ht, hat, hrest⟩

/-- All goroutines of a stopped node with an empty hand leave. -/
theorem PipeState.At.leaveAll {threads : List Thread} (h : s.At p srv life kv)
    (hn : srv.proc = some n) (hst : n.stopped = true) (hb : srv.batch = [])
    (hth : life.threads = threads) :
    ∃ t, Reaches (pipeStep cfg) (fun s a => a.Roomy s) s t ∧
      t.At p srv { life with threads := [] } kv := by
  induction threads generalizing s life with
  | nil =>
    refine ⟨s, .refl s, ?_⟩
    rw [← hth]
    exact h
  | cons th rest ih =>
    have hmem : th ∈ life.threads := by simp [hth]
    obtain ⟨u, hu, hat⟩ := h.leave cfg hn hst hb hmem
    obtain ⟨t, ht, hat⟩ := ih hat (by simp [hth])
    exact ⟨t, ((Reaches.refl s).snoc hu trivial).trans ht, hat⟩

end Process

theorem pipe_orderly {s : PipeState} {P : PipeState → PipeAction → Prop}
    (h : Reaches (pipeStep cfg) P cfg.pipes s) : Orderly s.life := by
  refine h.invariant (I := fun s => Orderly s.life) (fun s a t hI _ hs => ?_) (orderly_births cfg)
  cases a with
  | life x =>
    simp only [pipeStep] at hs
    split at hs
    · obtain ⟨u, hu, rfl⟩ := Option.map_eq_some_iff.mp hs
      exact hI.step hu
    · cases hs
  | _ =>
    simp only [pipeStep] at hs
    split at hs
    · obtain rfl := Option.some.inj hs
      exact hI
    · cases hs

/-- If what the Raft applier has in hand fits whenever the KV applier is gone, `Stop` can always
return: there is a way on in which both appliers leave and the persister is closed. -/
theorem shutdown_completes {s : PipeState}
    (h : Reaches (pipeStep cfg) (fun s a => a.Roomy s) cfg.pipes s)
    (hn : (s.server p).proc = some n) (hstop : (s.kvs p).stopping = true) :
    ∃ t, Reaches (pipeStep cfg) (fun s a => a.Roomy s) s t ∧
      (t.server p).epoch = (s.server p).epoch ∧ (t.kvs p).exited = true ∧
      (t.life.lives p).threads = [] ∧ (t.life.lives p).closed = true := by
  have hflows : ∀ {u}, Reaches (pipeStep cfg) (fun s a => a.Roomy s) cfg.pipes u → Flows u :=
    fun hu => hu.invariant (I := Flows) (fun _ _ _ hI ha hs => hI.step ha hs) (flows_pipes cfg)
  -- the KV applier leaves
  obtain ⟨u, srv, life, kv, hu, hat, hproc, hep, hst, hex⟩ : ∃ u srv life kv,
      Reaches (pipeStep cfg) (fun s a => a.Roomy s) s u ∧ u.At p srv life kv ∧
      srv.proc = some n ∧ srv.epoch = (s.server p).epoch ∧ kv.stopping = true ∧
      kv.exited = true := by
    cases hex : (s.kvs p).exited with
    | true => exact ⟨s, _, _, _, .refl s, ⟨rfl, rfl, rfl⟩, hn, rfl, hstop, hex⟩
    | false =>
      have hfl := hflows h
      obtain ⟨u, srv, hu, hat, hb, hproc, hep⟩ := PipeState.At.deliver cfg ⟨rfl, rfl, rfl⟩
        hn rfl hex (hfl.received p) (hfl.staffed p n hn)
      obtain ⟨v, hv, hat'⟩ := hat.exit cfg hproc hstop hex
      refine ⟨v, srv, _, _, hu.snoc hv ?_, hat', hproc, hep, hstop, rfl⟩
      simp [PipeAction.Roomy, PipeState.queued, hat.server, hat.kv, hb]
  by_cases hcl : life.closed = true
  · have horder := pipe_orderly (h.trans hu) p (by rw [hat.life, hcl])
    exact ⟨u, hu, by rw [hat.server, hep], by rw [hat.kv, hex], horder.1, by rw [hat.life, hcl]⟩
  -- `Node.Stop` is called and the Raft applier empties its hand
  obtain ⟨v, hv, hatv⟩ := hat.raftStop cfg hproc hst hex
  have hsv : Reaches (pipeStep cfg) (fun s a => a.Roomy s) s v := hu.snoc hv trivial
  have hfl := hflows (h.trans hsv)
  have hrec := hfl.received p
  have hfits := hfl.fits p
  have hstaff := hfl.staffed p
  simp only [PipeState.queued, hatv.server, hatv.kv, hatv.life] at hrec hfits hstaff
  obtain ⟨w, srv', hw, hatw, hb, hproc', hep'⟩ := hatv.flush cfg rfl rfl hrec (hfits hex)
    (hstaff _ rfl)
  -- all goroutines leave, and the wait is over
  obtain ⟨x, hx, hatx⟩ := hatw.leaveAll cfg hproc' rfl hb rfl
  obtain ⟨y, hy, haty⟩ := hatx.close cfg hproc' rfl rfl (by simpa using hcl)
  refine ⟨y, ((hsv.trans hw).trans hx).snoc hy trivial, ?_, ?_, ?_, ?_⟩
  · rw [haty.server, hep', ← hep]
  · rw [haty.kv, hex]
  · rw [haty.life]
  · rw [haty.life]

instance (s : PipeState) : (a : PipeAction) → Decidable (a.Roomy s)
  | .exit p => inferInstanceAs (Decidable ((s.server p).batch.length + s.queued p ≤ applyCap))
  | .life (.act (.applierTake p)) => inferInstanceAs (Decidable ((s.kvs p).exited = true →
      ∀ n ∈ (s.server p).proc, n.backlog + s.queued p ≤ applyCap))
  | .life (.act (.tick ..)) | .life (.act (.stepDown _)) | .life (.act (.deliver ..))
  | .life (.act (.respond ..)) | .life (.act (.propose ..)) | .life (.act (.replicate ..))
  | .life (.act (.heartbeat ..)) | .life (.act (.lease _)) | .life (.act (.applierSend _))
  | .life (.act (.snapshot ..)) | .life (.act (.crash _)) | .life (.act (.restart _))
  | .life (.act (.stop _)) | .life (.exit ..) | .life (.close _) | .stop _ | .receive _ =>
    isTrue trivial

/-- Node 1 of a pair commits a command and its applier picks it up; then it is told to stop. -/
theorem shutdown_completes_pair : ∃ s t,
    Reaches (pipeStep .pair) (fun s a => a.Roomy s) Config.pair.pipes s ∧
    (s.kvs 1).stopping = true ∧ (s.server 1).batch.length = 1 ∧
    Reaches (pipeStep .pair) (fun s a => a.Roomy s) s t ∧ (t.kvs 1).exited = true ∧
    (t.life.lives 1).closed = true := by
  have hs := Reaches.of_exec (pipeStep .pair) (fun s a => a.Roomy s) Config.pair.pipes
    ((firstCommit ++ [Action.applierTake 1]).map (fun a => .life (.act a)) ++ [.stop 1])
    (by decide) rfl
  obtain ⟨t, ht, -, hex, -, hcl⟩ := shutdown_completes (p := 1) hs rfl rfl
  exact ⟨_, t, hs, rfl, rfl, ht, hex, hcl⟩

/-! ## A full channel -/

/-- In process number `epoch` of `p` the KV applier is gone and more is in hand than fits. -/
structure Jammed (p epoch : ℕ) (s : PipeState) : Prop where
  since : epoch ≤ (s.server p).epoch
  opened : (s.server p).epoch = epoch → (s.life.lives p).closed = false
  stuck : ∀ n, (s.server p).epoch = epoch → (s.server p).proc = some n →
    (s.kvs p).exited = true ∧ (s.kvs p).received ≤ (s.server p).sent.length ∧
    s.queued p ≤ applyCap ∧ applyCap < (s.server p).batch.length + s.queued p ∧
    .applier ∈ (s.life.lives p).threads

section Jam

variable {s : PipeState} {E : ℕ}

/-- Nobody receives: what leaves the hand stays in the channel. -/
theorem Jammed.frame (h : Jammed p E s) (hep : (s.server p).epoch ≤ (u.base.servers p).epoch)
    (hcl : (s.server p).epoch = E → (u.base.servers p).epoch = E → (u.lives p).closed = false)
    (hst : ∀ m, (s.server p).epoch = E → (u.base.servers p).epoch = E →
      (u.base.servers p).proc = some m → (s.server p).proc.isSome ∧
      (u.base.servers p).batch.length + (u.base.servers p).sent.length =
        (s.server p).batch.length + (s.server p).sent.length ∧
      (s.server p).sent.length ≤ (u.base.servers p).sent.length ∧
      (u.base.servers p).sent.length - (s.kvs p).received ≤ applyCap ∧
      .applier ∈ (u.lives p).threads) : Jammed p E (s.advance u) := by
  have hsince := h.since
  have hep' : (u.base.servers p).epoch = E → (s.server p).epoch = E := by omega
  refine ⟨h.since.trans hep, fun he => hcl (hep' he) he, fun m he hm => ?_⟩
  obtain ⟨hsome, hsum, hle, hcap, hth⟩ := hst m (hep' he) he hm
  obtain ⟨n, hn⟩ := Option.isSome_iff_exists.mp hsome
  obtain ⟨hex, hrec, -, hover, -⟩ := h.stuck n (hep' he) hn
  obtain ⟨hkv, hq⟩ := PipeState.queued_advance (t := u) (he.trans (hep' he).symm)
  rw [hkv, hq]
  simp only [PipeState.queued] at hover
  simp only [PipeState.advance, PipeState.server] at *
  exact ⟨hex, by omega, hcap, by omega, hth⟩

theorem Jammed.act {x : Action} {v : State} (h : Jammed p E s) (hadm : s.admits (.act x) = true)
    (hv : step cfg s.life.base x = some v) : Jammed p E (s.advance (s.life.advance v)) := by
  have hclosed : (s.server p).epoch = E → ((s.life.advance v).lives p).closed = false := by
    intro he
    have hop := h.opened he
    simp only [LifeState.advance]
    cases v.node p with
    | none => rfl
    | some m =>
      cases s.life.base.node p with
      | none => rfl
      | some n =>
        simp only [Lifetime.next]
        split <;> exact hop
  have hthreads : ∀ m, (s.server p).epoch = E → (s.server p).proc.isSome →
      (v.servers p).proc = some m → .applier ∈ ((s.life.advance v).lives p).threads := by
    intro m he hsome hm
    simp only [LifeState.advance]
    rw [show v.node p = some m from hm]
    exact Lifetime.applier_next fun n hn => (h.stuck n he hn).2.2.2.2
  cases step_queue hv p with
  | kept hb hsent he hsome =>
    refine h.frame he.ge (fun h0 _ => hclosed h0) fun m h0 _ hm => ?_
    have hsome' : (s.server p).proc.isSome := hsome (Option.isSome_iff_exists.mpr ⟨m, hm⟩)
    obtain ⟨n, hn⟩ := Option.isSome_iff_exists.mp hsome'
    have hcap := (h.stuck n h0 hn).2.2.1
    refine ⟨hsome', ?_, ?_, ?_, hthreads m h0 hsome' hm⟩
    · simp only [LifeState.advance, hb, hsent, PipeState.server]
    · simp only [LifeState.advance, hsent, PipeState.server, le_refl]
    · simpa only [LifeState.advance, hsent, PipeState.queued, PipeState.server] using hcap
  | took _ hn _ hb hsrv =>
    have he : (v.servers p).epoch = (s.server p).epoch := by rw [hsrv]; rfl
    refine h.frame he.ge (fun h0 _ => hclosed h0) fun m h0 _ hm => ?_
    -- the hand is not empty
    obtain ⟨-, -, hcap, hover, -⟩ := h.stuck _ h0 hn
    rw [PipeState.server, hb, List.length_nil] at hover
    omega
  | gave hx hn hb hb' hsent he =>
    subst hx
    refine h.frame he.ge (fun h0 _ => hclosed h0) fun m h0 _ hm => ?_
    have hsome' : (s.server p).proc.isSome := Option.isSome_iff_exists.mpr ⟨_, hn⟩
    have hroom : s.queued p < applyCap := by simpa [PipeState.admits] using hadm
    obtain ⟨-, hrec, -⟩ := h.stuck _ h0 hn
    simp only [PipeState.queued, PipeState.server] at hroom hrec
    refine ⟨hsome', ?_, ?_, ?_, hthreads m h0 hsome' hm⟩ <;>
      simp only [LifeState.advance, hb, hb', hsent, PipeState.server, List.length_append,
        List.length_cons, List.length_nil] <;> omega
  | fresh _ he =>
    refine h.frame (by simp only [LifeState.advance, he, PipeState.server]; omega)
      (fun h0 _ => hclosed h0) fun m h0 h1 hm => ?_
    simp only [LifeState.advance, he, PipeState.server] at h0 h1
    omega

/-- A step that leaves the server alone, and closes nothing while the applier is there. -/
theorem Jammed.rest (h : Jammed p E s) (hsrv : u.base.servers p = s.server p)
    (hcl : (u.lives p).closed = true → (s.life.lives p).closed = true ∨
      (s.server p).proc.isSome ∧ .applier ∉ (s.life.lives p).threads)
    (hth : ∀ n, (s.server p).proc = some n → (s.server p).batch ≠ [] →
      .applier ∈ (s.life.lives p).threads → .applier ∈ (u.lives p).threads) :
    Jammed p E (s.advance u) := by
  refine h.frame (by rw [hsrv]) (fun he _ => ?_) fun n he _ hn => ?_
  · by_contra hno
    rcases hcl (by simpa using hno) with hcl | ⟨hsome, hno⟩
    · rw [h.opened he] at hcl
      cases hcl
    · obtain ⟨n, hn⟩ := Option.isSome_iff_exists.mp hsome
      exact hno (h.stuck n he hn).2.2.2.2
  · rw [hsrv] at hn ⊢
    obtain ⟨-, -, hcap, hover, happ⟩ := h.stuck n he hn
    have hb : (s.server p).batch ≠ [] := by
      intro hb
      rw [hb, List.length_nil] at hover
      omega
    exact ⟨Option.isSome_iff_exists.mpr ⟨n, hn⟩, rfl, le_rfl, hcap, hth n hn hb happ⟩

theorem Jammed.life {a : LifeAction} (h : Jammed p E s) (hadm : s.admits a = true)
    (hu : lifeStep cfg s.life a = some u) : Jammed p E (s.advance u) := by
  rcases lifeStep_base hu with ⟨x, v, rfl, -, hv, rfl⟩ | ⟨x, q, call, rfl, rfl⟩ |
    ⟨q, life, n, rfl, hn, hlife, hclose⟩
  · exact h.act hadm hv
  · by_cases hp : p = q
    · subst hp
      refine h.frame ?_ ?_ ?_ <;>
        simp [State.nilDeref, LifeState.advance, State.setServer, Server.die, PipeState.server,
          State.node, Lifetime.next]
    · have hsrv : (s.life.base.nilDeref q call).servers p = s.server p := by
        simp [State.nilDeref, State.setServer, hp, PipeState.server]
      have hnode : (s.life.base.nilDeref q call).node p = s.life.base.node p := by
        rw [State.node, hsrv]
        rfl
      refine h.rest hsrv ?_ fun n hn _ happ => ?_
      · simp only [LifeState.advance, hnode]
        cases s.life.base.node p with
        | none => simp [Lifetime.next]
        | some n =>
          simp only [Lifetime.next, not_and_self_iff, ne_eq, if_false]
          exact .inl
      · simp only [LifeState.advance, hnode]
        rw [show s.life.base.node p = some n from hn]
        exact Lifetime.applier_next fun _ _ => happ
  · by_cases hp : p = q
    · subst hp
      refine h.rest rfl (fun hcl => ?_) fun _ _ hb happ => ?_
      · have hcl' : life.closed = true := by simpa [LifeState.setLife] using hcl
        refine (hclose hcl').imp id fun hno => ⟨Option.isSome_iff_exists.mpr ⟨n, hn⟩, ?_⟩
        simp [hno]
      · simpa [LifeState.setLife] using hlife hb happ
    · refine h.rest rfl (fun hcl => .inl ?_) fun _ _ _ happ => ?_
      · simpa [LifeState.setLife, hp] using hcl
      · simpa [LifeState.setLife, hp] using happ

theorem Jammed.setKv (h : Jammed p E s) {q : ℕ} {kv : Consumer}
    (hkv : q = p → ∀ n, (s.server p).epoch = E → (s.server p).proc = some n →
      kv.exited = true ∧ kv.received = (s.kvs p).received) : Jammed p E (s.setKv q kv) := by
  refine ⟨h.since, h.opened, fun n he hn => ?_⟩
  have hst := h.stuck n he hn
  by_cases hq : q = p
  · subst hq
    obtain ⟨h1, h2⟩ := hkv rfl n he hn
    simpa [PipeState.setKv, PipeState.queued, PipeState.server, h1, h2] using hst.2
  · have hq' : p ≠ q := fun hx => hq hx.symm
    simpa [PipeState.setKv, PipeState.queued, PipeState.server, hq'] using hst

theorem Jammed.step {t : PipeState} {a : PipeAction} (h : Jammed p E s)
    (hs : pipeStep cfg s a = some t) : Jammed p E t := by
  cases a with
  | life x =>
    simp only [pipeStep] at hs
    split at hs
    · rename_i hadm
      obtain ⟨u, hu, rfl⟩ := Option.map_eq_some_iff.mp hs
      exact h.life hadm hu
    · cases hs
  | stop q =>
    simp only [pipeStep] at hs
    split at hs
    · obtain rfl := Option.some.inj hs
      refine h.setKv ?_
      rintro rfl n he hn
      exact ⟨(h.stuck n he hn).1, rfl⟩
    · cases hs
  | receive q =>
    simp only [pipeStep] at hs
    split at hs
    · rename_i hg
      obtain rfl := Option.some.inj hs
      refine h.setKv ?_
      rintro rfl n he hn
      rw [(h.stuck n he hn).1] at hg
      simp at hg
    · cases hs
  | exit q =>
    simp only [pipeStep] at hs
    split at hs
    · obtain rfl := Option.some.inj hs
      refine h.setKv ?_
      rintro rfl n he hn
      exact ⟨rfl, rfl⟩
    · cases hs

end Jam

/-- The KV applier of a process that is to stop has left, and what the Raft applier has in hand does
not fit into the channel. -/
def PipeState.Overfull (s : PipeState) (p : ℕ) : Prop :=
  (s.server p).proc.isSome ∧ (s.kvs p).stopping = true ∧ (s.kvs p).exited = true ∧
  (s.life.lives p).closed = false ∧ (s.kvs p).received ≤ (s.server p).sent.length ∧
  s.queued p ≤ applyCap ∧ applyCap < (s.server p).batch.length + s.queued p ∧
  .applier ∈ (s.life.lives p).threads

instance (s : PipeState) (p : ℕ) : Decidable (s.Overfull p) := by
  unfold PipeState.Overfull
  infer_instance

theorem PipeState.Overfull.jammed {s : PipeState} (h : s.Overfull p) :
    Jammed p (s.server p).epoch s := by
  obtain ⟨-, -, hex, hcl, hrec, hcap, hover, hth⟩ := h
  exact ⟨le_rfl, fun _ => hcl, fun _ _ _ => ⟨hex, hrec, hcap, hover, hth⟩⟩

/-- Node 1 of a pair commits 257 commands, in batches of at most 64. -/
def commitMany : List Action :=
  electFirst ++ (List.range 5).flatMap fun i =>
    [.propose 1 (List.replicate (if i < 4 then 64 else 1) []) {}, .replicate 1 2,
      .deliver (i + 2) false {}, .respond (i + 2) 0 {}]

/-- The applier of node 1 picks up 257 commands, and the KV applier leaves before it gets one. -/
theorem shutdown_jammed : ∃ s, Reaches (pipeStep .pair) (fun _ _ => True) Config.pair.pipes s ∧
    (s.server 1).proc.isSome ∧ (s.kvs 1).stopping = true ∧
    ∀ t, Reaches (pipeStep .pair) (fun _ _ => True) s t →
      (t.server 1).epoch = (s.server 1).epoch → (t.life.lives 1).closed = false := by
  have hexec : ((exec (pipeStep .pair) Config.pair.pipes
      ((commitMany ++ [Action.applierTake 1]).map (fun a => .life (.act a)) ++
        [.stop 1, .exit 1])).any fun s => decide (s.Overfull 1)) = true := by
    decide +kernel
  obtain ⟨s, hs, hfull⟩ := (Option.any_eq_true _ _).mp hexec
  have hfull : s.Overfull 1 := by simpa using hfull
  refine ⟨s, ⟨_, .of_exec (.of_forall (fun _ _ _ => trivial) _) hs⟩, hfull.1, hfull.2.1,
    fun t ht he => ?_⟩
  have hjam : Jammed 1 (s.server 1).epoch t :=
    ht.invariant (I := Jammed 1 _) (fun _ _ _ hI _ hs => hI.step hs) hfull.jammed
  exact hjam.opened he

end KMC
