import KillMyCluster.Raft.Moves
import KillMyCluster.Read.Model
import KillMyCluster.Timed.Clocks

/-! The cluster and its readers with clocks that run at one speed. Where the untimed model lets a
run choose, the clocks decide: whether a leader was heard recently, whether a lease is held,
whether a timer has run out. Leaving the clocks out of a run gives a run of the untimed model. -/

namespace KMC

/-- When each server last heard from a leader, when its last process ended and when its last round
of heartbeats for readers began; and when each RPC was sent. No step depends on it. -/
structure Timeline where
  heardAt : ℕ → Option ℤ := fun _ => none
  downAt : ℕ → Option ℤ := fun _ => none
  roundAt : ℕ → ℤ := fun _ => 0
  sentAt : ℕ → ℤ := fun _ => 0

structure TimedState where
  reads : ReadState
  clocks : ℕ → Clocks := fun _ => {}
  now : ℤ := 0
  history : Timeline := {}

inductive TimedAction
  /-- Time passes. -/
  | pass (d : ℕ)
  /-- A tick of the election timer. -/
  | timer (p : ℕ) (io : Io) (draw : ℕ)
  | read (a : ReadAction) (draw : ℕ)

def Config.timedInit (cfg : Config) : TimedState := { reads := { base := cfg.init } }

/-- A leader's message that the node accepts as one. -/
def Body.contacts (n : Node) (body : Body) : Bool :=
  body.leader.any fun (term, _) => !n.stopped && decide (n.currentTerm ≤ term)

/-- Timeouts and resignations are left to the timer. -/
def Action.ofTimer : Action → Bool
  | .tick .. | .stepDown _ => true
  | _ => false

namespace TimedState

def base (s : TimedState) : State := s.reads.base

def node (s : TimedState) (p : ℕ) : Option Node := s.base.node p

def epoch (s : TimedState) (p : ℕ) : ℕ := (s.base.servers p).epoch

def setClocks (s : TimedState) (p : ℕ) (c : Clocks) : TimedState :=
  { s with clocks := Function.update s.clocks p c }

/-- The choices that an action makes are those of the clocks. -/
def agrees (tm : Timings) (s : TimedState) : ReadAction → Bool
  | .cluster (.deliver k recent _) =>
    s.base.rpcs[k]?.all fun r => recent == (s.clocks r.dst).recent tm s.now
  | .cluster a => !a.ofTimer
  | .call p held | .collect p _ held => held == (s.clocks p).leased s.now
  | _ => true

def clocksAfter (tm : Timings) (draw : ℕ) (s : TimedState) : Action → Option (ℕ → Clocks)
  | .deliver k recent io => do
    let r ← s.base.rpcs[k]?
    let n ← s.node r.dst
    let c ← (s.clocks r.dst).handle tm s.now draw n r.body (KMC.handle io recent n r.body).2
    return Function.update s.clocks r.dst c
  | .respond k j io => do
    let r ← s.base.rpcs[k]?
    let resp ← r.resps[j]?
    let n ← s.node r.src
    let c ← (s.clocks r.src).receive tm s.now draw io.fail n r.dst r.body resp
    return Function.update s.clocks r.src c
  | .lease p => return Function.update s.clocks p ((s.clocks p).renewLease tm s.now)
  | .restart p => do
    let c ← Clocks.start tm s.now draw
    return Function.update s.clocks p c
  | _ => return s.clocks

def hears (s : TimedState) : Action → Option ℕ
  | .deliver k _ _ => do
    let r ← s.base.rpcs[k]?
    let n ← s.node r.dst
    if r.body.contacts n then return r.dst else none
  | _ => none

def advance (s : TimedState) (a : ReadAction) (u : ReadState) (clocks : ℕ → Clocks) :
    TimedState where
  reads := u
  clocks := clocks
  now := s.now
  history :=
    { heardAt := match a.act.bind s.hears with
        | some q => Function.update s.history.heardAt q (some s.now)
        | none => s.history.heardAt
      downAt := fun p =>
        if (s.node p).isSome ∧ (u.base.node p).isNone then some s.now else s.history.downAt p
      roundAt := match a with
        | .confirm p => Function.update s.history.roundAt p s.now
        | _ => s.history.roundAt
      sentAt := fun k => if k < s.base.rpcs.length then s.history.sentAt k else s.now }

end TimedState

def timedStep (cfg : Config) (tm : Timings) (s : TimedState) : TimedAction → Option TimedState
  | .pass d => some { s with now := s.now + d }
  | .timer p io draw => do
    let n ← s.node p
    match (s.clocks p).runElectionTimer tm s.now n with
    | (c, .rest) => return s.setClocks p c
    | (c, .stepDown) =>
      let c ← c.stepDownLocked tm s.now draw n
      let u ← readStep cfg s.reads (.cluster (.stepDown p))
      return s.advance (.cluster (.stepDown p)) u (Function.update s.clocks p c)
    | (c, .poll) =>
      let c ← c.startPreVoteLocked tm s.now draw io.fail n
      let u ← readStep cfg s.reads (.cluster (.tick p io))
      return s.advance (.cluster (.tick p io)) u (Function.update s.clocks p c)
  | .read a draw =>
    if s.agrees tm a then do
      let u ← readStep cfg s.reads a
      let clocks ← a.act.elim (some s.clocks) (s.clocksAfter tm draw)
      return s.advance a u clocks
    else none

/-! ## What a timed step can do -/

inductive TimedMove (cfg : Config) (tm : Timings) (s : TimedState) :
    TimedAction → TimedState → Prop
  | pass {d : ℕ} : TimedMove cfg tm s (.pass d) { s with now := s.now + d }
  | rest {p draw : ℕ} {io : Io} {n : Node} {c : Clocks} : s.node p = some n →
      (s.clocks p).runElectionTimer tm s.now n = (c, .rest) →
      TimedMove cfg tm s (.timer p io draw) (s.setClocks p c)
  | stepDown {p draw : ℕ} {io : Io} {n : Node} {c c' : Clocks} {u : ReadState} :
      s.node p = some n → (s.clocks p).runElectionTimer tm s.now n = (c, .stepDown) →
      c.stepDownLocked tm s.now draw n = some c' →
      readStep cfg s.reads (.cluster (.stepDown p)) = some u →
      TimedMove cfg tm s (.timer p io draw)
        (s.advance (.cluster (.stepDown p)) u (Function.update s.clocks p c'))
  | poll {p draw : ℕ} {io : Io} {n : Node} {c c' : Clocks} {u : ReadState} :
      s.node p = some n → (s.clocks p).runElectionTimer tm s.now n = (c, .poll) →
      c.startPreVoteLocked tm s.now draw io.fail n = some c' →
      readStep cfg s.reads (.cluster (.tick p io)) = some u →
      TimedMove cfg tm s (.timer p io draw)
        (s.advance (.cluster (.tick p io)) u (Function.update s.clocks p c'))
  | reader {a : ReadAction} {draw : ℕ} {u : ReadState} : s.agrees tm a = true → a.act = none →
      readStep cfg s.reads a = some u →
      TimedMove cfg tm s (.read a draw) (s.advance a u s.clocks)
  | cluster {a : ReadAction} {b : Action} {draw : ℕ} {u : ReadState} {clocks : ℕ → Clocks} :
      s.agrees tm a = true → a.act = some b → b.ofTimer = false →
      readStep cfg s.reads a = some u → s.clocksAfter tm draw b = some clocks →
      TimedMove cfg tm s (.read a draw) (s.advance a u clocks)

variable {cfg : Config} {tm : Timings} {s t : TimedState} {a : TimedAction} {p : ℕ}

theorem TimedState.agrees_ofTimer {a : ReadAction} {b : Action} (h : s.agrees tm a = true)
    (hb : a.act = some b) : b.ofTimer = false := by
  cases a with
  | cluster x =>
    obtain rfl := Option.some.inj hb
    cases x <;> first | rfl | simp [agrees, Action.ofTimer] at h
  | beat | ack | confirmed =>
    obtain rfl := Option.some.inj hb
    rfl
  | _ => cases hb

theorem timedStep_cases (h : timedStep cfg tm s a = some t) : TimedMove cfg tm s a t := by
  cases a with
  | pass d =>
    obtain rfl := Option.some.inj h
    exact .pass
  | timer p io draw =>
    simp only [timedStep, Option.bind_eq_bind, Option.bind_eq_some_iff] at h
    obtain ⟨n, hn, h⟩ := h
    split at h
    · rename_i c hturn
      obtain rfl := Option.some.inj h
      exact .rest hn hturn
    · rename_i c hturn
      simp only [Option.bind_eq_some_iff] at h
      obtain ⟨c', hc', u, hu, h⟩ := h
      obtain rfl := Option.some.inj h
      exact .stepDown hn hturn hc' hu
    · rename_i c hturn
      simp only [Option.bind_eq_some_iff] at h
      obtain ⟨c', hc', u, hu, h⟩ := h
      obtain rfl := Option.some.inj h
      exact .poll hn hturn hc' hu
  | read a draw =>
    simp only [timedStep] at h
    split at h
    · rename_i hagree
      simp only [Option.bind_eq_bind, Option.bind_eq_some_iff] at h
      obtain ⟨u, hu, clocks, hclocks, h⟩ := h
      obtain rfl := Option.some.inj h
      cases hb : a.act with
      | none =>
        rw [hb] at hclocks
        obtain rfl := Option.some.inj hclocks
        exact .reader hagree hb hu
      | some b =>
        rw [hb] at hclocks
        exact .cluster hagree hb (TimedState.agrees_ofTimer hagree hb) hu hclocks
    · cases h

theorem readStep_act {s t : ReadState} {a : ReadAction} {b : Action} (ha : a.act = some b)
    (h : readStep cfg s a = some t) : step cfg s.base b = some t.base := by
  cases readStep_cases h with
  | cluster hu => exact Option.some.inj ha ▸ hu
  | beat _ _ hu => exact Option.some.inj ha ▸ hu
  | ack _ _ _ _ hu => exact Option.some.inj ha ▸ hu
  | confirmed _ _ _ hu _ _ => exact Option.some.inj ha ▸ hu
  | deposed hu => exact Option.some.inj ha ▸ hu
  | fail hnone _ _ => exact absurd (hnone.symm.trans ha) (by simp)
  | _ => cases ha

theorem readStep_noact {s t : ReadState} {a : ReadAction} (ha : a.act = none)
    (h : readStep cfg s a = some t) : t.base = s.base := by
  rcases readStep_base h with heq | ⟨b, hb, -⟩
  · exact heq
  · rw [ha] at hb
    cases hb

def TimedAction.Includes : TimedAction → Action → Prop
  | .pass _, _ => False
  | .timer p io _, b => b = .tick p io ∨ b = .stepDown p
  | .read a _, b => a.act = some b

theorem timedStep_base (h : timedStep cfg tm s a = some t) :
    t.base = s.base ∨ ∃ b, a.Includes b ∧ step cfg s.base b = some t.base := by
  cases timedStep_cases h with
  | pass | rest => exact .inl rfl
  | stepDown _ _ _ hu => exact .inr ⟨_, .inr rfl, readStep_act rfl hu⟩
  | poll _ _ _ hu => exact .inr ⟨_, .inl rfl, readStep_act rfl hu⟩
  | reader _ hb hu => exact .inl (readStep_noact hb hu)
  | cluster _ hb _ hu _ => exact .inr ⟨_, hb, readStep_act hb hu⟩

theorem timedStep_now (h : timedStep cfg tm s a = some t) : s.now ≤ t.now := by
  cases timedStep_cases h with
  | pass => exact le_add_of_nonneg_right (Int.natCast_nonneg _)
  | _ => exact le_rfl

def timed (acts : List Action) : List TimedAction := acts.map fun a => .read (.cluster a) 0

end KMC
