import KillMyCluster.Election.Safety
import KillMyCluster.Election.Terms
import KillMyCluster.Timed.Tenure

/-! Followers that stand by a leader. Once a node has accepted a heartbeat of term `T` it neither
votes in a later term nor polls for one until `ElectionTimeoutMin` has passed, unless it hears from
a leader of a later term. The clocks alone do not give this: a process that restarts has forgotten
its leader, and so has one that acts on the answer to a poll it made before. -/

namespace KMC

open Trace

variable {cfg : Config} {tm : Timings} {s t : TimedState} {a : TimedAction} {p v T : ℕ} {U : ℤ}
  {n : Node} {e : Effect} {resp : Response}

/-! ## Terms on the disk -/

section Disk

variable {c : Call} {cs : List Call} {d : Disk}

/-- Calls that write no other term than the present one leave it, however far they get. -/
theorem Disk.term_write (hd : d.hard.1 = T) (hc : ∀ T', c.hardTerm = some T' → T' = T) (r : ℕ) :
    (d.write r c).hard.1 = T := by
  cases c with
  | saveHardState t v =>
    rcases d.write_hardState r t v with hw | hw <;> rw [hw]
    · exact hd
    · rw [d.hard_run_hardState]
      exact hc t rfl
  | appendEntries es => rw [Disk.write_append, Disk.hard_run_append, hd]
  | truncateFrom i =>
    rcases d.write_truncate r i with hw | hw <;> simp [hw, hd]
  | saveSnapshot snap t v keep =>
    rcases d.write_snapshot r snap t v keep with hw | hw | hw <;> rw [hw]
    · exact hd
    · rw [d.hard_setSnap, hd]
    · rw [d.hard_run_snapshot]
      exact hc t rfl

theorem Disk.term_foldl (io : Io) (hd : d.hard.1 = T)
    (hc : ∀ c ∈ cs, ∀ T', c.hardTerm = some T' → T' = T) : (cs.foldl io.apply d).hard.1 = T := by
  induction cs generalizing d with
  | nil => exact hd
  | cons c cs ih =>
    obtain ⟨k, hk⟩ := io.apply_eq_write d c
    refine ih ?_ fun c' h => hc c' (List.mem_cons_of_mem c h)
    rw [hk]
    exact Disk.term_write hd (hc c List.mem_cons_self) k

end Disk

theorem Section.term_stays {s t : State} {b : Action} {io : Io} (h : Section cfg s n b v io e t)
    (hT : (s.hard v).1 = T) (hc : ∀ c ∈ e.calls, ∀ T', c.hardTerm = some T' → T' = T) :
    (t.hard v).1 = T := by
  rcases h.server with ⟨-, hsrv⟩ | ⟨k, r, -, hsrv⟩ <;> rw [State.hard, hsrv]
  · exact Disk.term_foldl io hT hc
  · have htake := Disk.term_foldl io hT fun c hm => hc c (List.mem_of_mem_take (i := k) hm)
    cases hd : (e.calls.drop k).head? with
    | none => exact htake
    | some c =>
      exact Disk.term_write htake (hc c (List.mem_of_mem_drop (List.mem_of_head? hd))) r

/-! ## What the lease relies on -/

def Body.polls : Body → Bool
  | .preVote .. => true
  | _ => false

/-- An answer that can move a follower: to one of its polls, or from a later term. -/
def Rpc.Moves (r : Rpc) (resp : Response) (n : Node) : Prop :=
  r.body.polls = true ∨ n.currentTerm < resp.term

def TimedState.heard (tm : Timings) (s : TimedState) (p : ℕ) : Bool :=
  (s.history.heardAt p).any fun h => decide (s.now < h + tm.electionTimeoutMin.toInt)

/-- Servers stay down for `ElectionTimeoutMin`, and no answer moves a follower that has heard from
a leader meanwhile. -/
def Action.StaysBound (tm : Timings) (s : TimedState) : Action → Prop
  | .restart p => ∀ d ∈ s.history.downAt p, d + tm.electionTimeoutMin.toInt ≤ s.now
  | .respond k j _ => ∀ r ∈ s.base.rpcs[k]?, ∀ resp ∈ r.resps[j]?, ∀ n ∈ s.node r.src,
      n.role = .follower → s.heard tm r.src = true → ¬ r.Moves resp n
  | _ => True

/-- A round of heartbeats is over early enough for the lease to end `ElectionTimeoutMin` after its
beginning, and counts for the term it was for. -/
def ReadAction.WithinLease (tm : Timings) (s : TimedState) : ReadAction → Prop
  | .confirmed p => (ReadAction.confirmed p).OnTerm s.reads ∧
      s.now + tm.electionTimeoutMin.toInt / 3 ≤ s.history.roundAt p + tm.electionTimeoutMin.toInt
  | x => ∀ b ∈ x.act, b.StaysBound tm s

def TimedAction.WithinLease (tm : Timings) (s : TimedState) : TimedAction → Prop
  | .read x _ => x.WithinLease tm s
  | _ => True

/-- What the lease relies on besides the clocks, and that `saveHardState` succeeds or kills the
process. -/
structure Timely (tm : Timings) (s : TimedState) (a : TimedAction) : Prop where
  disk : ∀ b, a.Includes b → b.HardStates
  lease : a.WithinLease tm s

instance (r : Rpc) (resp : Response) (n : Node) : Decidable (r.Moves resp n) :=
  inferInstanceAs (Decidable (_ ∨ _))

instance Action.decidableStaysBound (tm : Timings) (s : TimedState) :
    (b : Action) → Decidable (b.StaysBound tm s)
  | .restart p => inferInstanceAs (Decidable (∀ d ∈ s.history.downAt p,
      d + tm.electionTimeoutMin.toInt ≤ s.now))
  | .respond k j _ => inferInstanceAs (Decidable (∀ r ∈ s.base.rpcs[k]?, ∀ resp ∈ r.resps[j]?,
      ∀ n ∈ s.node r.src, n.role = .follower → s.heard tm r.src = true → ¬ r.Moves resp n))
  | .tick .. | .stepDown _ | .deliver .. | .propose .. | .replicate .. | .heartbeat .. | .lease _
  | .applierTake _ | .applierSend _ | .snapshot .. | .crash _ | .stop _ => isTrue trivial

instance ReadAction.decidableWithinLease (tm : Timings) (s : TimedState) :
    (x : ReadAction) → Decidable (x.WithinLease tm s)
  | .confirmed p => inferInstanceAs (Decidable ((ReadAction.confirmed p).OnTerm s.reads ∧
      s.now + tm.electionTimeoutMin.toInt / 3 ≤
        s.history.roundAt p + tm.electionTimeoutMin.toInt))
  | .cluster b => inferInstanceAs (Decidable (∀ c ∈ (ReadAction.cluster b).act, c.StaysBound tm s))
  | .ack p k j io => inferInstanceAs (Decidable (∀ c ∈ (ReadAction.ack p k j io).act,
      c.StaysBound tm s))
  | .beat .. | .call .. | .collect .. | .confirm _ | .abandon _ | .applied _
  | .appliedLeased .. =>
    isTrue (by simp [ReadAction.WithinLease, ReadAction.act, Action.StaysBound])

instance (tm : Timings) (s : TimedState) : (a : TimedAction) → Decidable (a.WithinLease tm s)
  | .read x _ => inferInstanceAs (Decidable (x.WithinLease tm s))
  | .pass _ | .timer .. => isTrue trivial

theorem ReadAction.WithinLease.act {x : ReadAction} {b : Action} (h : x.WithinLease tm s)
    (hb : x.act = some b) : b.StaysBound tm s := by
  cases x with
  | confirmed q =>
    obtain rfl := Option.some.inj hb
    trivial
  | _ => exact h b hb

theorem Timely.restart {x : ReadAction} {draw : ℕ} (h : Timely tm s (.read x draw))
    (hx : x.act = some (.restart p)) {d : ℤ} (hd : d ∈ s.history.downAt p) :
    d + tm.electionTimeoutMin.toInt ≤ s.now :=
  ReadAction.WithinLease.act h.lease hx d hd

theorem Timely.answer {x : ReadAction} {draw k j : ℕ} {io : Io} {r : Rpc}
    (h : Timely tm s (.read x draw)) (hx : x.act = some (.respond k j io))
    (hr : s.base.rpcs[k]? = some r) (hresp : r.resps[j]? = some resp) (hn : s.node r.src = some n)
    (hrole : n.role = .follower) (hheard : s.heard tm r.src = true) : ¬ r.Moves resp n :=
  ReadAction.WithinLease.act h.lease hx r hr resp hresp n hn hrole hheard

/-! ## Bound nodes -/

/-- Process `n` of server `v` has heard from its leader and does not give it up before `U`. -/
structure Loyal (tm : Timings) (s : TimedState) (v : ℕ) (U : ℤ) (n : Node) : Prop where
  role : n.role = .follower
  leader : n.leaderID ≠ 0
  heard : ∃ h ∈ s.history.heardAt v, U ≤ h + tm.electionTimeoutMin.toInt
  reset : U ≤ (s.clocks v).electionReset + tm.electionTimeoutMin.toInt
  timeout : tm.electionTimeoutMin.toInt ≤ (s.clocks v).electionTimeout

/-- Node `v` follows the leader of term `T` until `U`, or is down until then. -/
structure Bound (tm : Timings) (s : TimedState) (v T : ℕ) (U : ℤ) : Prop where
  near : U ≤ s.now + tm.electionTimeoutMin.toInt
  term : (s.base.hard v).1 = T
  down : s.node v = none → ∃ d ∈ s.history.downAt v, U ≤ d + tm.electionTimeoutMin.toInt
  up : ∀ n, s.node v = some n → Loyal tm s v U n

namespace Bound

theorem frame (h : Bound tm s v T U) (hnow : s.now ≤ t.now)
    (hsrv : t.base.servers v = s.base.servers v) (hclocks : t.clocks v = s.clocks v)
    (hdown : s.node v = none → t.history.downAt v = s.history.downAt v)
    (hheard : t.history.heardAt v = s.history.heardAt v) : Bound tm t v T U := by
  have hnode : t.node v = s.node v := congrArg Server.proc hsrv
  refine ⟨by have := h.near; omega, ?_, fun hn => ?_, fun n hn => ?_⟩
  · rw [State.hard, hsrv]
    exact h.term
  · rw [hnode] at hn
    rw [hdown hn]
    exact h.down hn
  · obtain ⟨h1, h2, h3, h4, h5⟩ := h.up n (hnode ▸ hn)
    exact ⟨h1, h2, hheard ▸ h3, hclocks ▸ h4, hclocks ▸ h5⟩

/-- The election timer of a bound node is not up. -/
theorem rests (h : Bound tm s v T U) (hn : s.node v = some n) (hU : s.now < U) :
    ((s.clocks v).runElectionTimer tm s.now n) = (s.clocks v, .rest) := by
  obtain ⟨hrole, -, -, hreset, htimeout⟩ := h.up n hn
  unfold Clocks.runElectionTimer
  split_ifs with h1 h2 h3
  · rfl
  · exact absurd (hrole.symm.trans h2) (by decide)
  · exact absurd (hrole.symm.trans h2) (by decide)
  · rfl
  · omega

theorem recent (h : Bound tm s v T U) (hn : s.node v = some n) (hU : s.now < U) :
    n.heardLeaderRecentlyLocked ((s.clocks v).recent tm s.now) = true := by
  obtain ⟨-, hlead, -, hreset, -⟩ := h.up n hn
  simp only [Node.heardLeaderRecentlyLocked, Clocks.recent, elapsed, Option.all_some,
    Bool.and_eq_true, bne_iff_ne, Bool.not_eq_true', decide_eq_false_iff_not, not_le]
  exact ⟨hlead, by omega⟩

end Bound

/-! ## Steps on other servers -/

section Advance

variable {x : ReadAction} {b : Action} {u : ReadState} {clocks : ℕ → Clocks}

theorem TimedState.hears_section {q : ℕ} {io : Io} {ub : State}
    (hsec : Section cfg s.base n b q io e ub) (h : s.hears b = some v) : v = q := by
  cases hsec with
  | deliver hr =>
    simp only [hears, hr, Option.bind_eq_bind, Option.bind_some, Option.bind_eq_some_iff] at h
    obtain ⟨m, -, h⟩ := h
    split_ifs at h
    exact (Option.some.inj h).symm
  | _ => cases h

theorem TimedState.hears_change {q : ℕ} {srv : Server} (hch : Change cfg s.base b q srv) :
    s.hears b = none := by
  cases hch <;> rfl

theorem TimedState.advance_heardAt (h : x.act.bind s.hears ≠ some v) :
    (s.advance x u clocks).history.heardAt v = s.history.heardAt v := by
  cases hq : x.act.bind s.hears with
  | none => simp [advance, hq]
  | some q =>
    have hv : v ≠ q := fun hv => h (hv ▸ hq)
    simp [advance, hq, hv]

theorem TimedState.advance_downAt (h : s.node v = none) :
    (s.advance x u clocks).history.downAt v = s.history.downAt v := by
  simp [advance, h]

theorem Bound.elsewhere (h : Bound tm s v T U) (hsrv : u.base.servers v = s.base.servers v)
    (hclocks : clocks v = s.clocks v) (hheard : x.act.bind s.hears ≠ some v) :
    Bound tm (s.advance x u clocks) v T U :=
  h.frame le_rfl hsrv hclocks s.advance_downAt (s.advance_heardAt hheard)

/-! ## Steps of the node -/

/-- A section that keeps the term and, if the process survives it, the bond. -/
theorem Bound.act {io : Io} (h : Bound tm s v T U) (hn : s.node v = some n)
    (hsec : Section cfg s.base n b v io e u.base)
    (hcalls : ∀ c ∈ e.calls, ∀ T', c.hardTerm = some T' → T' = T)
    (hup : Loyal tm (s.advance x u clocks) v U e.node) : Bound tm (s.advance x u clocks) v T U := by
  refine ⟨h.near, hsec.term_stays h.term hcalls, fun hnone => ?_, fun m hm => ?_⟩
  · replace hnone : u.base.node v = none := hnone
    exact ⟨s.now, by simp [TimedState.advance, hn, hnone], h.near⟩
  · replace hm : u.base.node v = some m := hm
    rcases hsec.server with ⟨-, hsrv⟩ | ⟨_, _, -, hsrv⟩ <;> rw [State.node, hsrv] at hm
    · obtain rfl := Option.some.inj hm
      exact hup
    · cases hm

/-- A section that is none of the leader's business. -/
theorem Bound.keep {io : Io} (h : Bound tm s v T U) (hn : s.node v = some n)
    (hhard : n.hard = s.base.hard v) (hsec : Section cfg s.base n b v io e u.base)
    (hears : e.Hears n none) (hrole : e.node.role = n.role) (hlead : e.node.leaderID = n.leaderID)
    (hclocks : clocks v = s.clocks v) (hheard : x.act.bind s.hears ≠ some v) :
    Bound tm (s.advance x u clocks) v T U := by
  obtain ⟨h1, h2, h3, h4, h5⟩ := h.up n hn
  have hT : n.currentTerm = T := (congrArg Prod.fst hhard).trans h.term
  have hterm : e.node.currentTerm = n.currentTerm := hears.term.resolve_right (by simp)
  have hself : (s.advance x u clocks).clocks v = s.clocks v := hclocks
  refine h.act hn hsec (fun c hc T' hT' => ?_) ⟨hrole.trans h1, hlead ▸ h2, ?_, ?_, ?_⟩
  · rcases hears.calls c hc T' hT' with rfl | rfl
    · exact hT
    · exact hterm.trans hT
  · rw [s.advance_heardAt hheard]
    exact h3
  · exact hself.symm ▸ h4
  · exact hself.symm ▸ h5

end Advance

/-! ## Timers -/

namespace Clocks

variable {now : ℤ} {draw : ℕ} {c c' : Clocks}

theorem reset_timer {k : ℕ} (hsane : tm.Sane)
    (h : c.resetElectionTimerLocked tm now draw k = some c') :
    c'.electionReset = now ∧ tm.electionTimeoutMin.toInt ≤ c'.electionTimeout := by
  obtain ⟨d, hd, rfl⟩ := Option.map_eq_some_iff.mp h
  obtain ⟨d', hd', hle, -⟩ := hsane.electionTimeout k draw
  obtain rfl := Option.mem_unique hd hd'
  exact ⟨rfl, hle⟩

theorem hearLeader_timer {term : ℕ} (hsane : tm.Sane) (hs : n.stopped = false)
    (hle : n.currentTerm ≤ term) (h : c.hearLeader tm now draw n term = some c') :
    c'.electionReset = now ∧ tm.electionTimeoutMin.toInt ≤ c'.electionTimeout := by
  unfold hearLeader at h
  rw [hs, if_neg (by decide)] at h
  obtain ⟨d, -, h⟩ := Option.bind_eq_some_iff.mp h
  rw [if_neg (not_lt.mpr hle)] at h
  exact reset_timer hsane h

/-- A vote in the node's own term starts the timer anew, or nothing does. -/
theorem handleRequestVote_timer {req : RequestVoteRequest} {granted : Bool} (hsane : tm.Sane)
    (hno : ¬ n.swayed (c.recent tm now) req)
    (h : c.handleRequestVote tm now draw n req granted = some c') :
    c' = c ∨ c'.electionReset = now ∧ tm.electionTimeoutMin.toInt ≤ c'.electionTimeout := by
  unfold handleRequestVote at h
  split at h
  · exact .inl (Option.some.inj h).symm
  split at h
  · exact .inl (Option.some.inj h).symm
  split at h
  · exact .inl (Option.some.inj h).symm
  rename_i hs hp hg
  have hle : ¬ n.currentTerm < req.term := by
    intro hlt
    refine hno ⟨by simpa using hs, by simpa using hp, hlt, ?_⟩
    simpa [hlt] using hg
  rw [adoptTerm, if_neg hle, Option.bind_eq_bind, Option.bind_some] at h
  split at h
  · exact .inr (reset_timer hsane h)
  · exact .inl (Option.some.inj h).symm

end Clocks

/-- An answer that does not move a follower leaves its clocks alone, too. -/
theorem Clocks.receive_unmoved {now : ℤ} {draw : ℕ} {io : Io} {r : Rpc} {c c' : Clocks}
    (hrole : n.role = .follower) (hno : ¬ r.Moves resp n)
    (he : KMC.receive io n r.dst r.body resp = some e)
    (h : c.receive tm now draw io.fail n r.dst r.body resp = some c') :
    e = { node := n } ∧ c' = c := by
  obtain ⟨hpoll, hnot⟩ := not_or.mp hno
  generalize r.body = body at *
  unfold KMC.receive at he
  split at he <;> cases he
  · exact absurd rfl hpoll
  · simp only [receive, onVoteResponse, Node.onVoteResponse, hrole] at h ⊢
    simp only [Response.term] at hnot
    simp [hnot] at h ⊢
    exact h.symm
  · simp only [receive, onAppendResponse, Node.onAppendResponse, hrole] at h ⊢
    simp only [Response.term] at hnot
    simp [hnot] at h ⊢
    exact h.symm
  · simp only [receive, onHeartbeatResponse, Node.onHeartbeatResponse, hrole] at h ⊢
    simp only [Response.term] at hnot
    simp [hnot] at h ⊢
    exact h.symm
  · simp only [receive, onSnapshotResponse, Node.onSnapshotResponse, hrole] at h ⊢
    simp only [Response.term] at hnot
    simp [hnot] at h ⊢
    exact h.symm

/-! ## Every step -/

def State.Overruled (s : State) (T : ℕ) : Prop :=
  ∃ (k : ℕ) (r : Rpc) (T' l : ℕ), s.rpcs[k]? = some r ∧ r.body.leader = some (T', l) ∧ T < T'

def State.Signed (s : State) : Prop :=
  ∀ (k : ℕ) (r : Rpc) (T' l : ℕ), s.rpcs[k]? = some r → r.body.leader = some (T', l) → l ≠ 0

section Steps

variable {x : ReadAction} {u : ReadState} {clocks : ℕ → Clocks} {io : Io} {k draw : ℕ} {r : Rpc}
  {c : Clocks}

/-- A request for a vote. -/
theorem Bound.vote {req : RequestVoteRequest} {granted recent : Bool} {b : Action}
    (h : Bound tm s v T U) (hn : s.node v = some n) (hhard : n.hard = s.base.hard v)
    (hsane : tm.Sane) (hU : s.now < U) (hrecent : recent = (s.clocks v).recent tm s.now)
    (hsec : Section cfg s.base n b v io (n.handleRequestVote io.fail recent req).1 u.base)
    (hc : (s.clocks v).handleRequestVote tm s.now draw n req granted = some c)
    (hheard : x.act.bind s.hears ≠ some v) :
    Bound tm (s.advance x u (Function.update s.clocks v c)) v T U := by
  have hself : (s.advance x u (Function.update s.clocks v c)).clocks v = c :=
    Function.update_self ..
  have hno : ¬ n.swayed ((s.clocks v).recent tm s.now) req := by
    rintro ⟨-, -, -, hno⟩
    rw [h.recent hn hU] at hno
    cases hno
  obtain ⟨v', hnode⟩ := Node.handleRequestVote_unswayed io.fail (hrecent ▸ hno)
  obtain ⟨h1, h2, h3, h4, h5⟩ := h.up n hn
  have hT : n.currentTerm = T := (congrArg Prod.fst hhard).trans h.term
  refine h.act hn hsec (fun call hcall T' hT' => ?_) ?_
  · rcases (n.handleRequestVote_hears recent req).calls call hcall T' hT' with rfl | rfl
    · exact hT
    · rw [hnode]
      exact hT
  · rw [hnode]
    have hheard' : ∃ h ∈ (s.advance x u (Function.update s.clocks v c)).history.heardAt v,
        U ≤ h + tm.electionTimeoutMin.toInt := s.advance_heardAt hheard ▸ h3
    rcases Clocks.handleRequestVote_timer hsane hno hc with rfl | ⟨hreset, htimeout⟩
    · exact ⟨h1, h2, hheard', hself.symm ▸ h4, hself.symm ▸ h5⟩
    · refine ⟨h1, h2, hheard', ?_, hself.symm ▸ htimeout⟩
      rw [hself, hreset]
      exact h.near

theorem TimedState.hears_deliver {recent : Bool} (hx : x.act = some (.deliver k recent io))
    (hr : s.base.rpcs[k]? = some r) (hn : s.node r.dst = some n) :
    x.act.bind s.hears = if r.body.contacts n then some r.dst else none := by
  simp [hx, hears, hr, hn]

/-- A leader's message, of the node's term or of an earlier one. -/
theorem Bound.leader {recent : Bool} {term l : ℕ} (h : Bound tm s r.dst T U)
    (hn : s.node r.dst = some n) (hhard : n.hard = s.base.hard r.dst) (hsane : tm.Sane)
    (hx : x.act = some (.deliver k recent io)) (hr : s.base.rpcs[k]? = some r)
    (hb : r.body.leader = some (term, l)) (hl : l ≠ 0) (hle : term ≤ T)
    (hsec : Section cfg s.base n (.deliver k recent io) r.dst io (handle io recent n r.body).1
      u.base)
    (hc : (s.clocks r.dst).hearLeader tm s.now draw n term = some c) :
    Bound tm (s.advance x u (Function.update s.clocks r.dst c)) r.dst T U := by
  have hself : (s.advance x u (Function.update s.clocks r.dst c)).clocks r.dst = c :=
    Function.update_self ..
  have hT : n.currentTerm = T := (congrArg Prod.fst hhard).trans h.term
  have hears := s.hears_deliver hx hr hn
  rcases handle_leader io recent n hb with ⟨hcon, hge, hf⟩ | ⟨hno, he⟩
  · obtain rfl : term = T := le_antisymm hle (hT ▸ hge)
    have hs := ((Body.contacts_iff hb).mp hcon).1
    obtain ⟨hreset, htimeout⟩ := Clocks.hearLeader_timer hsane hs hge hc
    have hcalls : (handle io recent n r.body).1.Hears n r.body.realTerm :=
      handle_hears fun _ _ _ hp => by simp [hp, Body.leader] at hb
    refine h.act hn hsec (fun call hcall T' hT' => ?_) ⟨hf.role, hf.leader ▸ hl, ?_, ?_, ?_⟩
    · rcases hcalls.calls call hcall T' hT' with rfl | rfl
      · exact hT
      · exact hf.term
    · rw [if_pos hcon] at hears
      exact ⟨s.now, by simp [TimedState.advance, hears], h.near⟩
    · rw [hself, hreset]
      exact h.near
    · rw [hself]
      exact htimeout
  · -- the message is stale, or the node has been stopped
    rw [if_neg (by simp [hno])] at hears
    have hkeep : c = s.clocks r.dst := by
      unfold Clocks.hearLeader at hc
      split at hc
      · exact (Option.some.inj hc).symm
      · rename_i hs
        have hlt := ((Body.not_contacts_iff hb).mp hno).resolve_left hs
        rw [Clocks.adoptTerm, if_neg (not_lt.mpr hlt.le), Option.bind_eq_bind, Option.bind_some,
          if_pos hlt] at hc
        exact (Option.some.inj hc).symm
    rw [he] at hsec
    refine h.keep hn hhard hsec (.refl n) rfl rfl ?_ (by rw [hears]; simp)
    rw [hkeep, Function.update_eq_self]

theorem Bound.answer {j : ℕ} (h : Bound tm s r.src T U) (hn : s.node r.src = some n)
    (hhard : n.hard = s.base.hard r.src) (hx : x.act = some (.respond k j io))
    (hno : ¬ r.Moves resp n) (he : receive io n r.dst r.body resp = some e)
    (hsec : Section cfg s.base n (.respond k j io) r.src io e u.base)
    (hc : (s.clocks r.src).receive tm s.now draw io.fail n r.dst r.body resp = some c) :
    Bound tm (s.advance x u (Function.update s.clocks r.src c)) r.src T U := by
  obtain ⟨rfl, rfl⟩ := Clocks.receive_unmoved (h.up n hn).role hno he hc
  refine h.keep hn hhard hsec (.refl n) rfl rfl ?_ (by simp [hx, TimedState.hears])
  rw [Function.update_eq_self]

theorem Bound.section {b : Action} (h : Bound tm s v T U) (hn : s.node v = some n)
    (hhard : n.hard = s.base.hard v) (hsane : tm.Sane) (ha : Timely tm s (.read x draw))
    (hU : s.now < U) (hsig : s.base.Signed) (hagree : s.agrees tm x = true) (hx : x.act = some b)
    (hof : b.ofTimer = false) (hsec : Section cfg s.base n b v io e u.base)
    (hclocks : s.clocksAfter tm draw b = some clocks) :
    Bound tm (s.advance x u clocks) v T U ∨ s.base.Overruled T := by
  have hsec' := hsec
  generalize hub : u.base = ub at hsec
  cases hsec with
  | tick => simp [Action.ofTimer] at hof
  | stepDown => simp [Action.ofTimer] at hof
  | @deliver k recent _ r hr =>
    have hrec := TimedState.agrees_deliver hagree hx hr
    simp only [TimedState.clocksAfter, hr, hn, Option.bind_eq_bind, Option.bind_some,
      Option.bind_eq_some_iff] at hclocks
    obtain ⟨c, hc, hcl⟩ := hclocks
    obtain rfl := Option.some.inj hcl
    have hears := s.hears_deliver hx hr hn
    cases hb : r.body.leader with
    | some y =>
      obtain ⟨term, l⟩ := y
      by_cases hle : term ≤ T
      · have hc' : (s.clocks r.dst).hearLeader tm s.now draw n term = some c := by
          cases hbody : r.body <;> simp only [hbody, Body.leader, reduceCtorEq, Option.some.injEq,
            Prod.mk.injEq] at hb <;> simpa only [hbody, Clocks.handle, hb.1] using hc
        exact .inl (h.leader hn hhard hsane hx hr hb (hsig k r term l hr hb) hle hsec' hc')
      · exact .inr ⟨k, r, term, l, hr, hb, by omega⟩
    | none =>
      have hno : r.body.contacts n = false := by simp [Body.contacts, hb]
      have hnot : x.act.bind s.hears ≠ some r.dst := by simp [hears, hno]
      cases hbody : r.body with
      | preVote _ _ req =>
        rw [hbody] at hc hsec'
        exact .inl (h.vote hn hhard hsane hU hrec hsec' hc hnot)
      | vote req =>
        rw [hbody] at hc hsec'
        exact .inl (h.vote hn hhard hsane hU hrec hsec' hc hnot)
      | _ => simp [hbody, Body.leader] at hb
  | @respond k j _ r resp e hr hresp _ _ he =>
    simp only [TimedState.clocksAfter, hr, hresp, hn, Option.bind_eq_bind, Option.bind_some,
      Option.bind_eq_some_iff] at hclocks
    obtain ⟨c, hc, hcl⟩ := hclocks
    obtain rfl := Option.some.inj hcl
    obtain ⟨hrole, -, ⟨y, hy, hle⟩, -, -⟩ := h.up n hn
    have hheard : s.heard tm r.src = true := by
      rw [TimedState.heard, Option.mem_def.mp hy, Option.any_some, decide_eq_true_eq]
      omega
    have hno := ha.answer hx hr hresp hn hrole hheard
    exact .inl (h.answer hn hhard hx hno he hsec' hc)
  | propose =>
    obtain rfl := Option.some.inj hclocks
    obtain ⟨log, hlog⟩ := Node.commitPropBatch_node io.fail n _
    exact .inl (h.keep hn hhard hsec' (n.commitPropBatch_hears _) (by rw [hlog]) (by rw [hlog]) rfl
      (by simp [hx, TimedState.hears]))
  | replicate _ he =>
    obtain rfl := Option.some.inj hclocks
    obtain ⟨snap, hs⟩ := Node.replicateOnce_idle he
    exact .inl (h.keep hn hhard hsec' (Node.replicateOnce_hears he) (by rw [hs]) (by rw [hs]) rfl
      (by simp [hx, TimedState.hears]))
  | heartbeat _ he =>
    obtain rfl := Option.some.inj hclocks
    have hh := Node.heartbeatAck_hears he
    obtain ⟨-, -, -, rfl⟩ := Node.heartbeatAck_cases he
    exact .inl (h.keep hn hhard hsec' hh rfl rfl rfl (by simp [hx, TimedState.hears]))
  | lease =>
    obtain rfl := Option.some.inj hclocks
    obtain ⟨h1, h2, h3, h4, h5⟩ := h.up n hn
    have hnot : x.act.bind s.hears ≠ some v := by simp [hx, TimedState.hears]
    have hself : (s.advance x u (Function.update s.clocks v
        ((s.clocks v).renewLease tm s.now))).clocks v = (s.clocks v).renewLease tm s.now :=
      Function.update_self ..
    refine .inl (h.act hn hsec' (by simp) ⟨h1, h2, ?_, hself.symm ▸ h4, hself.symm ▸ h5⟩)
    rw [s.advance_heardAt hnot]
    exact h3
  | snapshot =>
    obtain rfl := Option.some.inj hclocks
    obtain ⟨log, snap, hs⟩ := Node.snapshot_node io.fail n _ _
    exact .inl (h.keep hn hhard hsec' (n.snapshot_hears _ _) (by rw [hs]) (by rw [hs]) rfl
      (by simp [hx, TimedState.hears]))

theorem Bound.change {b : Action} {srv : Server} (h : Bound tm s v T U)
    (ha : Timely tm s (.read x draw)) (hU : s.now < U) (hx : x.act = some b)
    (hch : Change cfg s.base b v srv) (hset : u.base = s.base.setServer v srv)
    (hclocks : s.clocksAfter tm draw b = some clocks) :
    Bound tm (s.advance x u clocks) v T U := by
  have hnot : x.act.bind s.hears ≠ some v := by simp [hx, s.hears_change hch]
  have hsrv : (s.advance x u clocks).base.servers v = srv := by
    rw [show (s.advance x u clocks).base = s.base.setServer v srv from hset]
    simp [State.setServer]
  -- a server that is down until `U` does not restart before
  have hdown : s.node v = none → srv.proc = none := by
    intro hn
    cases hch with
    | restart =>
      obtain ⟨d, hd, hle⟩ := h.down hn
      have := ha.restart hx hd
      omega
    | crash => rfl
    | applierTake hn' | applierSend hn' | stop hn' => cases hn.symm.trans hn'
  refine ⟨h.near, ?_, fun hnone => ?_, fun m hm => ?_⟩
  · rw [State.hard, hsrv, hch.disk]
    exact h.term
  · cases hn : s.node v with
    | none =>
      rw [s.advance_downAt hn]
      exact h.down hn
    | some n =>
      replace hnone : u.base.node v = none := hnone
      exact ⟨s.now, by simp [TimedState.advance, hn, hnone], h.near⟩
  · replace hm : srv.proc = some m := (congrArg Server.proc hsrv).symm.trans hm
    rcases hch.proc hm with ⟨n, hn, -, _, _, _, rfl⟩ | ⟨-, hn, -, -⟩
    · have hself : (s.advance x u clocks).clocks v = s.clocks v :=
        hch.clocks hclocks (.inr (Option.ne_none_iff_exists'.mpr ⟨n, hn⟩))
      obtain ⟨h1, h2, h3, h4, h5⟩ := h.up n hn
      exact ⟨h1, h2, (s.advance_heardAt hnot).symm ▸ h3, hself.symm ▸ h4, hself.symm ▸ h5⟩
    · rw [hdown hn] at hm
      cases hm

end Steps

/-- A node that is bound stays so until the time is up, or a later leader has spoken. -/
theorem Bound.step {b : Ballots} (h : Bound tm s v T U) (hE : Elect cfg b s.base)
    (hsane : tm.Sane) (hsig : s.base.Signed) (ha : Timely tm s a) (hU : s.now < U)
    (hs : timedStep cfg tm s a = some t) : Bound tm t v T U ∨ s.base.Overruled T := by
  have hother : ∀ {x : ReadAction} {u : ReadState} {c : Clocks} {b : Action} {q : ℕ},
      x.act = some b → s.hears b = none → v ≠ q → u.base.servers v = s.base.servers v →
      Bound tm (s.advance x u (Function.update s.clocks q c)) v T U :=
    fun hx hno hv hsrv => h.elsewhere hsrv (Function.update_of_ne hv _ _) (by simp [hx, hno])
  cases timedStep_cases hs with
  | pass => exact .inl (h.frame (timedStep_now hs) rfl rfl (fun _ => rfl) rfl)
  | @rest p' _ _ n c hn hturn =>
    refine .inl (h.frame le_rfl rfl ?_ (fun _ => rfl) rfl)
    by_cases hv : v = p'
    · subst hv
      rw [h.rests hn hU] at hturn
      obtain ⟨rfl, -⟩ := Prod.mk.inj hturn
      exact congrFun (Function.update_eq_self v s.clocks) v
    · exact Function.update_of_ne hv _ _
  | @stepDown p' _ _ n c c' u hn hturn _ hu =>
    have hstep : KMC.step cfg s.base (.stepDown p') = some u.base := readStep_act rfl hu
    obtain ⟨n', e, hn', he, hfin⟩ := State.local_some hstep
    by_cases hv : v = p'
    · subst hv
      rw [h.rests hn hU] at hturn
      cases hturn
    · have hsec : Section cfg s.base n' (.stepDown p') p' {} e (s.base.finish p' {} e) :=
        .stepDown he
      exact .inl (hother rfl rfl hv ((congrArg (State.servers · v) hfin).trans (hsec.other hv)))
  | @poll p' _ io n c c' u hn hturn _ hu =>
    have hstep : KMC.step cfg s.base (.tick p' io) = some u.base := readStep_act rfl hu
    obtain ⟨n', e, hn', he, hfin⟩ := State.local_some hstep
    by_cases hv : v = p'
    · subst hv
      rw [h.rests hn hU] at hturn
      cases hturn
    · have hsec : Section cfg s.base n' (.tick p' io) p' io e (s.base.finish p' io e) := .tick he
      exact .inl (hother rfl rfl hv ((congrArg (State.servers · v) hfin).trans (hsec.other hv)))
  | reader _ hx hu =>
    refine .inl (h.elsewhere (congrArg (State.servers · v) (readStep_noact hx hu)) rfl ?_)
    simp [hx]
  | @cluster x b draw u clocks hagree hx hof hu hclocks =>
    rcases step_cases (readStep_act hx hu) with ⟨q, io, n, e, hn, hsec⟩ | ⟨q, srv, hch, hset⟩
    · by_cases hv : v = q
      · subst hv
        exact h.section hn (hE.proc v n hn).2.2.2 hsane ha hU hsig hagree hx hof hsec hclocks
      · refine .inl (h.elsewhere (hsec.other hv) (s.clocksAfter_other hclocks hsec hv) ?_)
        rw [hx]
        exact fun hh => hv (s.hears_section hsec hh)
    · by_cases hv : v = q
      · subst hv
        exact .inl (h.change ha hU hx hch hset hclocks)
      · have hnot : x.act.bind s.hears ≠ some v := by simp [hx, s.hears_change hch]
        refine .inl (h.elsewhere ?_ (hch.clocks hclocks (.inl hv)) hnot)
        exact (congrArg (State.servers · v) hset).trans (Function.update_of_ne hv _ _)

end KMC
