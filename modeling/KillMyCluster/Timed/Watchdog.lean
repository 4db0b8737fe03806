import KillMyCluster.Lib.History
import KillMyCluster.Timed.Tenure

/-! The leader's watch over itself along whole timed runs. A leader that the commit-stall watchdog
deposes has stood still for all of `CommitStallTimeout` while a majority answered; a leader that
stands still that long is deposed; and so is one that less than a majority has answered for two
election timeouts. -/

namespace KMC

open Trace

variable {cfg : Config} {tm : Timings} {P : TimedState → TimedAction → Prop} {s t u : TimedState}
  {acts acts' : List TimedAction} {p q : ℕ} {n m : Node} {heard : List ℕ}

def TimedState.Leads (s : TimedState) (p term commit : ℕ) : Prop :=
  ∃ n, s.node p = some n ∧ n.role = .leader ∧ n.currentTerm = term ∧ n.commitIndex = commit

/-- On the run, `p` handled an answer of `q` at instant `τ`. -/
def AnsweredAt (cfg : Config) (tm : Timings) (acts : List TimedAction) (p q : ℕ) (τ : ℤ) : Prop :=
  ∃ u a, Takes (timedStep cfg tm) cfg.timedInit acts u a ∧ a.answer u = some (p, q) ∧ u.now = τ

/-- The clocks of a leader are set, and show nothing that is still to come. -/
structure Watching (s : TimedState) (p : ℕ) (n : Node) : Prop where
  contact : ∀ q, ∀ τ ∈ (s.clocks p).lastContact q, τ ≤ s.now
  check : ∃ τ ≤ s.now, (s.clocks p).lastQuorumCheck = some τ
  progress : ∃ τ ≤ s.now, (s.clocks p).lastCommitProgress = some τ
  index : (s.clocks p).lastProgressIndex = n.commitIndex

theorem run_watched (h : Run (timedStep cfg tm) P cfg.timedInit acts s) (hn : s.node p = some n)
    (hl : n.role = .leader) : Watching s p n := by
  induction h generalizing n with
  | nil => cases hn
  | snoc _ _ hs ih =>
    have hnow := timedStep_now hs
    cases timedStep_tenure hs hn hl with
    | elected _ hseed =>
      refine ⟨fun q τ hτ => ?_, ⟨_, le_rfl, hseed.check⟩, ⟨_, le_rfl, hseed.progress⟩, hseed.index⟩
      rw [hseed.contact q] at hτ
      split at hτ
      · exact (Option.some.inj hτ).symm.le
      · cases hτ
    | kept hn' hl' _ _ _ hk _ =>
      obtain ⟨hc, ⟨τ, hτ, hcheck⟩, ⟨τ', hτ', hprog⟩, hidx⟩ := ih hn' hl'
      refine ⟨fun q σ hσ => ?_, ?_, ?_, ?_⟩
      · rcases hk.contact q with heq | ⟨heq, -⟩ <;> rw [heq] at hσ
        · exact (hc q σ hσ).trans hnow
        · exact (Option.some.inj hσ).symm.le
      · rcases hk.check with heq | ⟨heq, -⟩
        · exact ⟨τ, hτ.trans hnow, heq.trans hcheck⟩
        · exact ⟨_, le_rfl, heq⟩
      · rcases hk.progress with ⟨heq, -, -⟩ | ⟨-, heq, -⟩
        · exact ⟨_, le_rfl, heq⟩
        · exact ⟨τ', hτ'.trans hnow, heq.trans hprog⟩
      · rcases hk.progress with ⟨-, heq, -⟩ | ⟨hsame, -, heq⟩
        · exact heq
        · rw [heq, hidx, hsame]

/-! ## What the watchdog has seen -/

theorem timedStep_answer_now {a : TimedAction} {x : ℕ × ℕ} (h : timedStep cfg tm s a = some t)
    (ha : a.answer s = some x) : t.now = s.now := by
  cases timedStep_cases h with
  | pass => cases ha
  | _ => rfl

theorem stepDown_node {v w : ReadState} (hn : v.base.node p = some n)
    (h : readStep cfg v (.cluster (.stepDown p)) = some w) :
    w.base.node p = some n.stepDownLocked := by
  have hs : step cfg v.base (.stepDown p) = some w.base := readStep_act rfl h
  obtain ⟨n', e, hn', he, hfin⟩ := State.local_some hs
  obtain rfl := Option.mem_unique hn hn'
  obtain ⟨-, rfl⟩ := Node.resign_some he
  rw [hfin]
  simp [State.node, State.finish]

/-- With nothing to commit, a tick of a leader's watchdog sets the stall clock, unless it deposes
the leader. -/
theorem Clocks.runElectionTimer_idle (c : Clocks) (now : ℤ) (hl : n.role = .leader)
    (hstop : n.stopped = false) (hon : ¬ tm.commitStallTimeout < 0)
    (hidle : n.log.lastIndex ≤ n.commitIndex) :
    (c.runElectionTimer tm now n).2 = .stepDown ∨
      (c.runElectionTimer tm now n).2 = .rest ∧
        (c.runElectionTimer tm now n).1.lastCommitProgress = some now := by
  have hnote : ∀ d : Clocks, d.checkCommitStallLocked tm now n =
      (d.noteCommitProgressLocked now n, .rest) := fun d => by
    rw [checkCommitStallLocked, if_neg hon, if_pos hidle]
  unfold runElectionTimer
  rw [hstop, if_neg (by decide), if_pos hl]
  split_ifs with hcheck
  · simp only
    split_ifs
    · rw [hnote]
      exact .inr ⟨rfl, rfl⟩
    · exact .inl rfl
  · rw [hnote]
    exact .inr ⟨rfl, rfl⟩

theorem timer_idle {io : Io} {draw : ℕ} (h : timedStep cfg tm s (.timer p io draw) = some t)
    (hn : s.node p = some n) (hl : n.role = .leader) (hstop : n.stopped = false)
    (hon : ¬ tm.commitStallTimeout < 0) (hidle : n.log.lastIndex ≤ n.commitIndex) :
    (t.clocks p).lastCommitProgress = some s.now ∨ t.node p = some n.stepDownLocked := by
  have hturn := (s.clocks p).runElectionTimer_idle s.now hl hstop hon hidle
  cases timedStep_cases h with
  | @rest _ _ _ n' c hn' heq =>
    obtain rfl := Option.mem_unique hn hn'
    rw [heq] at hturn
    have hself : (s.setClocks p c).clocks p = c := Function.update_self ..
    rw [hself]
    rcases hturn with hturn | hturn
    · cases hturn
    · exact .inl hturn.2
  | @stepDown _ _ _ n' c c' u hn' _ _ hu =>
    obtain rfl := Option.mem_unique hn hn'
    exact .inr (stepDown_node hn hu)
  | @poll _ _ _ n' c c' u hn' heq _ _ =>
    obtain rfl := Option.mem_unique hn hn'
    rw [heq] at hturn
    rcases hturn with hturn | hturn
    · cases hturn
    · cases hturn.1

/-- A tick of the node's timer finds entries waiting; the timer of a stopped node has none. -/
def TimedState.Pending (s : TimedState) (p : ℕ) : Prop :=
  ∃ n, s.node p = some n ∧ (n.stopped = false → n.commitIndex < n.log.lastIndex)

/-- Since `lastCommitProgress` the node has led its term and its commit index has not moved; the
contacts noted since are answers, and the ticks since have found entries waiting. -/
structure Standing (cfg : Config) (tm : Timings) (acts : List TimedAction) (p : ℕ) (n : Node)
    (c : Clocks) (τ : ℤ) : Prop where
  progress : c.lastCommitProgress = some τ
  still : ∀ u, Visits (timedStep cfg tm) cfg.timedInit acts u → τ < u.now →
    u.Leads p n.currentTerm n.commitIndex
  contact : ∀ q, ∀ σ ∈ c.lastContact q, τ < σ → AnsweredAt cfg tm acts p q σ
  ticks : ¬ tm.commitStallTimeout < 0 → ∀ u io draw,
    Takes (timedStep cfg tm) cfg.timedInit acts u (.timer p io draw) → τ < u.now → u.Pending p

theorem run_standing (h : Run (timedStep cfg tm) P cfg.timedInit acts s) (hn : s.node p = some n)
    (hl : n.role = .leader) : ∃ τ, Standing cfg tm acts p n (s.clocks p) τ := by
  induction h generalizing n with
  | nil => cases hn
  | @snoc acts r s a hrun hP hs ih =>
    have hsnoc := hrun.snoc hP hs
    have hfresh : ∀ u, Visits (timedStep cfg tm) cfg.timedInit (acts ++ [a]) u → ¬ s.now < u.now :=
      fun u hu => not_lt.mpr
        (hsnoc.visits_le (f := TimedState.now) (fun _ _ _ => timedStep_now) hu)
    -- nothing of the run is later than a clock that has just been set
    have hnew (heq : (s.clocks p).lastCommitProgress = some s.now) :
        Standing cfg tm (acts ++ [a]) p n (s.clocks p) s.now := by
      refine ⟨heq, fun u hu hlt => absurd hlt (hfresh u hu), fun q σ hσ hlt => ?_,
        fun _ u _ _ hu hlt => absurd hlt (hfresh u hu.visits)⟩
      exact absurd hlt (not_lt.mpr ((run_watched hsnoc hn hl).contact q σ hσ))
    cases timedStep_tenure hs hn hl with
    | elected _ hseed => exact ⟨s.now, hnew hseed.progress⟩
    | @kept n' hn' hl' hterm _ _ hk _ =>
      obtain ⟨τ, hst⟩ := ih hn' hl'
      rcases hk.progress with ⟨heq, -, -⟩ | ⟨hsame, heq, -⟩
      · exact ⟨s.now, hnew heq⟩
      refine ⟨τ, heq.trans hst.progress, fun u hu hlt => ?_, fun q σ hσ hlt => ?_,
        fun hon u io draw hu hlt => ?_⟩
      · rcases hrun.visits_snoc hs hu with hu | rfl
        · rw [hterm, hsame]
          exact hst.still u hu hlt
        · exact ⟨n, hn, hl, rfl, rfl⟩
      · rcases hk.contact q with heq | ⟨heq, hans⟩ <;> rw [heq] at hσ
        · obtain ⟨u, b, hb, h1, h2⟩ := hst.contact q σ hσ hlt
          exact ⟨u, b, hb.snoc, h1, h2⟩
        · obtain rfl := Option.some.inj hσ
          exact ⟨r, a, hrun.takes, hans, (timedStep_answer_now hs hans).symm⟩
      · rcases hrun.takes_snoc hu with hu | ⟨rfl, rfl⟩
        · exact hst.ticks hon u io draw hu hlt
        refine ⟨n', hn', fun hstop => ?_⟩
        by_contra hidle
        rcases timer_idle hs hn' hl' hstop hon (not_lt.mp hidle) with hset | hdown
        · exact hlt.ne (Option.some.inj ((heq.trans hst.progress).symm.trans hset))
        · obtain rfl := Option.mem_unique hn hdown
          cases hl

/-! ## Resignations -/

namespace Clocks

variable {now : ℤ} {draw : ℕ} {fail : Call → Bool} {c c' : Clocks}

theorem elapsed_some {τ : ℤ} {d : Duration} :
    elapsed now (some τ) d = true ↔ d.toInt ≤ now - τ := by
  simp [elapsed]

/-- The counter goes up when a leader is deposed that has stood still while a quorum was active. -/
theorem runElectionTimer_stalls
    (h : (c.runElectionTimer tm now n).1.commitStallStepdowns ≠ c.commitStallStepdowns) :
    n.role = .leader ∧ ¬ tm.commitStallTimeout < 0 ∧ n.commitIndex < n.log.lastIndex ∧
      elapsed now c.lastCommitProgress tm.commitStallTimeout = true ∧
      c.quorumActiveLocked tm now n = true ∧ (c.runElectionTimer tm now n).2 = .stepDown := by
  have hstall : ∀ d : Clocks, d.lastContact = c.lastContact →
      d.lastCommitProgress = c.lastCommitProgress →
      (d.checkCommitStallLocked tm now n).1.commitStallStepdowns ≠ d.commitStallStepdowns →
      ¬ tm.commitStallTimeout < 0 ∧ n.commitIndex < n.log.lastIndex ∧
        elapsed now c.lastCommitProgress tm.commitStallTimeout = true ∧
        c.quorumActiveLocked tm now n = true ∧
        (d.checkCommitStallLocked tm now n).2 = .stepDown := by
    intro d h1 h2 h
    unfold checkCommitStallLocked at h ⊢
    split_ifs at h ⊢ with g1 g2 g3 g4 g5 <;> first | exact absurd rfl h | skip
    simp only [Bool.not_eq_false] at g4 g5
    refine ⟨g1, not_le.mp g2, h2 ▸ g4, ?_, rfl⟩
    rwa [quorumActiveLocked, h1] at g5
  unfold runElectionTimer at h ⊢
  simp only at h ⊢
  split_ifs at h ⊢ with g1 g2 g3 g4 <;> first | exact absurd rfl h | skip
  · exact ⟨g2, hstall _ rfl rfl h⟩
  · exact ⟨g2, hstall _ rfl rfl h⟩

theorem reset_stepdowns {k : ℕ} (h : c.resetElectionTimerLocked tm now draw k = some c') :
    c'.commitStallStepdowns = c.commitStallStepdowns := by
  obtain ⟨d, -, rfl⟩ := Option.map_eq_some_iff.mp h
  rfl

theorem startElection_stepdowns (h : c.startElectionLocked tm now draw fail n = some c') :
    c'.commitStallStepdowns = c.commitStallStepdowns := by
  obtain ⟨d, hd, h⟩ := Option.bind_eq_some_iff.mp h
  obtain rfl := Option.some.inj h
  rw [← reset_stepdowns hd]
  split_ifs <;> rfl

theorem startPreVote_stepdowns (h : c.startPreVoteLocked tm now draw fail n = some c') :
    c'.commitStallStepdowns = c.commitStallStepdowns := by
  obtain ⟨d, hd, h⟩ := Option.bind_eq_some_iff.mp h
  split_ifs at h
  · exact (startElection_stepdowns h).trans (reset_stepdowns hd)
  · exact Option.some.inj h ▸ reset_stepdowns hd

end Clocks

/-- A leader whose timer says so does resign. -/
theorem timer_resigns (hsane : tm.Sane) (hn : s.node p = some n) (hl : n.role = .leader)
    (hstop : n.stopped = false) (hturn : ((s.clocks p).runElectionTimer tm s.now n).2 = .stepDown)
    (io : Io) (draw : ℕ) :
    ∃ t, timedStep cfg tm s (.timer p io draw) = some t ∧ t.node p = some n.stepDownLocked := by
  obtain ⟨u, hu⟩ : ∃ u, readStep cfg s.reads (.cluster (.stepDown p)) = some u := by
    have hn' : s.reads.base.node p = some n := hn
    simp [readStep, Action.ofReader, step, State.local, hn', Node.resign, hstop, hl]
  generalize hr : (s.clocks p).runElectionTimer tm s.now n = r at hturn
  obtain ⟨c, turn⟩ := r
  obtain rfl : turn = .stepDown := hturn
  obtain ⟨d, hd, -, -⟩ := hsane.electionTimeout n.electionAttempts draw
  refine ⟨s.advance (.cluster (.stepDown p)) u (Function.update s.clocks p
    { c with readLeaseUntil := none, electionReset := s.now, electionTimeout := d.toInt }), ?_,
    stepDown_node hn hu⟩
  simp [timedStep, hn, hr, hu, Clocks.stepDownLocked, Clocks.leaveOffice,
    Clocks.resetElectionTimerLocked, hd]

/-! ## The commit-stall watchdog -/

/-- The leader has not committed anything for `CommitStallTimeout` though every tick found entries
waiting, and nodes that make a majority with it have answered all the same. -/
structure Stalled (cfg : Config) (tm : Timings) (acts : List TimedAction) (s : TimedState) (p : ℕ)
    (n : Node) : Prop where
  leads : n.role = .leader
  pending : n.commitIndex < n.log.lastIndex
  still : ∀ u, Visits (timedStep cfg tm) cfg.timedInit acts u →
    s.now - u.now < tm.commitStallTimeout.toInt → u.Leads p n.currentTerm n.commitIndex
  ticks : ∀ u io draw, Takes (timedStep cfg tm) cfg.timedInit acts u (.timer p io draw) →
    s.now - u.now < tm.commitStallTimeout.toInt → u.Pending p
  answered : tm.electionTimeoutMax.toInt ≤ tm.commitStallTimeout.toInt →
    ∃ voters : List ℕ, voters.Sublist n.peers ∧ n.majority ≤ 1 + voters.length ∧
      ∀ q ∈ voters, ∃ τ, s.now - τ < tm.electionTimeoutMax.toInt ∧ AnsweredAt cfg tm acts p q τ

theorem Standing.stalled {τ : ℤ} (h : Standing cfg tm acts p n (s.clocks p) τ)
    (hl : n.role = .leader) (hon : ¬ tm.commitStallTimeout < 0)
    (hpend : n.commitIndex < n.log.lastIndex) (hlong : tm.commitStallTimeout.toInt ≤ s.now - τ)
    (hact : (s.clocks p).quorumActiveLocked tm s.now n = true) :
    Stalled cfg tm acts s p n := by
  refine ⟨hl, hpend, fun u hu hlt => h.still u hu (by omega),
    fun u io draw hu hlt => h.ticks hon u io draw hu (by omega), fun hmax => ?_⟩
  simp only [Clocks.quorumActiveLocked, decide_eq_true_eq, List.countP_eq_length_filter] at hact
  refine ⟨_, List.filter_sublist, hact, fun q hq => ?_⟩
  have hrecent := (List.mem_filter.mp hq).2
  -- a contact within the last election timeout was noted after the stall began
  cases hc : (s.clocks p).lastContact q with
  | none => simp [hc, elapsed] at hrecent
  | some σ =>
    simp only [hc, elapsed, Option.all_some, Bool.not_eq_true', decide_eq_false_iff_not,
      not_le] at hrecent
    exact ⟨σ, hrecent, h.contact q σ hc (by omega)⟩

def Timings.brisk : Timings :=
  { electionTimeoutMin := 2, electionTimeoutMax := 4, commitStallTimeout := 10 }

theorem Timings.sane_brisk : Timings.brisk.Sane := ⟨by decide, by decide, by decide⟩

def timedElect : List TimedAction :=
  timed [.restart 1, .restart 2] ++ [.pass 4, .timer 1 {} 0] ++
    timed [.deliver 0 false {}, .respond 0 0 {}, .deliver 1 false {}, .respond 1 0 {}]

def timedPropose : List TimedAction :=
  timedElect ++ timed [.replicate 1 2, .deliver 2 true {}, .propose 1 [[7]] {}]

def proposed : TimedState :=
  (exec (timedStep .pair .brisk) Config.pair.timedInit timedPropose).get rfl

/-- The answer comes eight instants later, after a tick, and is the last. -/
def lateAnswer : List TimedAction :=
  [.pass 3, .timer 1 {} 0, .pass 5] ++ timed [.respond 2 0 {}] ++ [.pass 2]

/-- What a tick leaves of the counter, and of a leader that it deposes. -/
theorem timer_stepdowns {io : Io} {draw : ℕ}
    (h : timedStep cfg tm s (.timer p io draw) = some t) :
    ∃ n, s.node p = some n ∧
      (t.clocks p).commitStallStepdowns =
        ((s.clocks p).runElectionTimer tm s.now n).1.commitStallStepdowns ∧
      (((s.clocks p).runElectionTimer tm s.now n).2 = .stepDown →
        t.node p = some n.stepDownLocked) := by
  cases timedStep_cases h with
  | @rest _ _ _ n c hn hturn =>
    have hself : (s.setClocks p c).clocks p = c := Function.update_self ..
    exact ⟨n, hn, by rw [hself, hturn], by rw [hturn]; simp⟩
  | @stepDown _ _ _ n c c' u hn hturn hc hu =>
    have hself : (s.advance (.cluster (.stepDown p)) u (Function.update s.clocks p c')).clocks p =
        c' := Function.update_self ..
    exact ⟨n, hn, by rw [hself, hturn, Clocks.reset_stepdowns hc], fun _ => stepDown_node hn hu⟩
  | @poll _ _ _ n c c' u hn hturn hc hu =>
    have hself : (s.advance (.cluster (.tick p io)) u (Function.update s.clocks p c')).clocks p =
        c' := Function.update_self ..
    exact ⟨n, hn, by rw [hself, hturn, Clocks.startPreVote_stepdowns hc],
      by rw [hturn]; simp⟩

/-- The watchdog deposes no leader that it should have left in office. -/
theorem commit_stall_justified {io : Io} {draw : ℕ}
    (hs : Run (timedStep cfg tm) P cfg.timedInit acts s)
    (ht : timedStep cfg tm s (.timer p io draw) = some t)
    (hcount : (s.clocks p).commitStallStepdowns < (t.clocks p).commitStallStepdowns) :
    ∃ n, s.node p = some n ∧ Stalled cfg tm acts s p n ∧ t.node p = some n.stepDownLocked := by
  obtain ⟨n, hn, heq, hnode⟩ := timer_stepdowns ht
  rw [heq] at hcount
  obtain ⟨hl, hon, hpend, hlong, hact, hturn⟩ := Clocks.runElectionTimer_stalls hcount.ne'
  obtain ⟨τ, hst⟩ := run_standing hs hn hl
  rw [hst.progress, Clocks.elapsed_some] at hlong
  exact ⟨n, hn, hst.stalled hl hon hpend hlong hact, hnode hturn⟩

theorem commit_stall_justified_late : ∃ s t n,
    Run (timedStep .pair .brisk) (fun _ _ => True) Config.pair.timedInit
      (timedPropose ++ lateAnswer) s ∧
    timedStep .pair .brisk s (.timer 1 {} 0) = some t ∧
    (t.clocks 1).commitStallStepdowns = 1 ∧ s.node 1 = some n ∧
    Stalled .pair .brisk (timedPropose ++ lateAnswer) s 1 n ∧ t.node 1 = some n.stepDownLocked := by
  have hs := Run.get (timedStep .pair .brisk) (fun _ _ => True) Config.pair.timedInit
    (timedPropose ++ lateAnswer) (.of_forall (fun _ _ _ => trivial) _) rfl
  have ht := (Option.some_get (x := timedStep .pair .brisk ((exec (timedStep .pair .brisk)
    Config.pair.timedInit (timedPropose ++ lateAnswer)).get rfl) (.timer 1 {} 0)) rfl).symm
  obtain ⟨n, hn, hst, hnode⟩ := commit_stall_justified hs ht (by decide)
  exact ⟨_, _, n, hs, ht, rfl, hn, hst, hnode⟩

def TimedState.Waits (s : TimedState) (p k : ℕ) : Prop :=
  ∃ n, s.node p = some n ∧ n.role = .leader ∧ n.commitIndex = k ∧ k < n.log.lastIndex

/-- As long as entries wait behind the same commit index the stall clock is not set anew. -/
theorem stall_clock_stands {k : ℕ} (hu : Run (timedStep cfg tm) P cfg.timedInit acts u)
    (h : Run (timedStep cfg tm) P u acts' s)
    (hwait : ∀ v, Visits (timedStep cfg tm) u acts' v → v.Waits p k) :
    ∃ τ ≤ u.now, (s.clocks p).lastCommitProgress = some τ ∧
      (s.clocks p).lastProgressIndex = k := by
  induction h with
  | nil =>
    obtain ⟨n, hn, hl, hk, -⟩ := hwait u (.start u _)
    obtain ⟨-, -, ⟨τ, hτ, hprog⟩, hidx⟩ := run_watched hu hn hl
    exact ⟨τ, hτ, hprog, hidx.trans hk⟩
  | @snoc acts' r s a hrun hP hs ih =>
    obtain ⟨τ, hτ, hprog, hidx⟩ := ih fun v hv => hwait v hv.snoc
    obtain ⟨n, hn, hl, hk, hlt⟩ := hwait r hrun.visits.snoc
    obtain ⟨m, hm, hl', hk', -⟩ := hwait s (hrun.snoc hP hs).visits
    cases timedStep_tenure hs hm hl' with
    | elected hno _ => exact absurd hl (hno n hn)
    | kept hn' _ _ _ _ hkeep _ =>
      obtain rfl := Option.mem_unique hn hn'
      rcases hkeep.progress with ⟨-, -, hmoved | hnew⟩ | ⟨-, h1, h2⟩
      · exact absurd (hk'.trans hk.symm) hmoved
      · rcases hnew with hdone | hnone | hother
        · omega
        · rw [hprog] at hnone
          cases hnone
        · exact absurd (hk.trans hidx.symm) hother
      · exact ⟨τ, hτ, h1.trans hprog, h2.trans hidx⟩

/-- A leader that a majority answers but that does not commit what it has is deposed. -/
theorem stalled_leader_steps_down {k : ℕ} (hsane : tm.Sane)
    (hon : 0 ≤ tm.commitStallTimeout.toInt)
    (hu : Run (timedStep cfg tm) P cfg.timedInit acts u) (h : Run (timedStep cfg tm) P u acts' s)
    (hwait : ∀ v, Visits (timedStep cfg tm) u acts' v → v.Waits p k)
    (hlong : tm.commitStallTimeout.toInt ≤ s.now - u.now) (hn : s.node p = some n)
    (hstop : n.stopped = false) (hact : (s.clocks p).quorumActiveLocked tm s.now n = true)
    (io : Io) (draw : ℕ) :
    ∃ t, timedStep cfg tm s (.timer p io draw) = some t ∧ t.node p = some n.stepDownLocked := by
  obtain ⟨τ, hτ, hprog, hidx⟩ := stall_clock_stands hu h hwait
  obtain ⟨n', hn', hl, hk, hlt⟩ := hwait s h.visits
  obtain rfl := Option.mem_unique hn hn'
  refine timer_resigns hsane hn hl hstop ?_ io draw
  have hstall : ∀ c : Clocks, c.lastContact = (s.clocks p).lastContact →
      c.lastCommitProgress = some τ → c.lastProgressIndex = k →
      (c.checkCommitStallLocked tm s.now n).2 = .stepDown := by
    intro c h1 h2 h3
    have hneg : ¬ tm.commitStallTimeout < 0 := by
      rw [Int64.lt_iff_toInt_lt]
      exact not_lt.mpr hon
    rw [Clocks.checkCommitStallLocked, if_neg hneg, if_neg (by omega),
      if_neg (by simp [h2, h3, hk]), if_neg, if_neg]
    · rwa [Clocks.quorumActiveLocked, h1, Bool.not_eq_false]
    · rw [h2, Bool.not_eq_false, Clocks.elapsed_some]
      omega
  unfold Clocks.runElectionTimer
  rw [hstop, if_neg (by decide), if_pos hl]
  split_ifs with h1
  · simp only
    rw [if_pos (by exact hact)]
    exact hstall _ rfl hprog hidx
  · exact hstall _ rfl hprog hidx

theorem stalled_leader_steps_down_late : ∃ s t n,
    Run (timedStep .pair .brisk) (fun _ _ => True) Config.pair.timedInit timedPropose proposed ∧
    Run (timedStep .pair .brisk) (fun _ _ => True) proposed lateAnswer s ∧
    (∀ v, Visits (timedStep .pair .brisk) proposed lateAnswer v → v.Waits 1 0) ∧
    s.now - proposed.now = 10 ∧ s.node 1 = some n ∧
    timedStep .pair .brisk s (.timer 1 {} 0) = some t ∧ t.node 1 = some n.stepDownLocked := by
  have hu := Run.get (timedStep .pair .brisk) (fun _ _ => True) Config.pair.timedInit timedPropose
    (.of_forall (fun _ _ _ => trivial) _) rfl
  have hs := Run.get (timedStep .pair .brisk) (fun _ _ => True) proposed lateAnswer
    (.of_forall (fun _ _ _ => trivial) _) rfl
  have hwait : ∀ v, Visits (timedStep .pair .brisk) proposed lateAnswer v → v.Waits 1 0 := by
    intro v hv
    have htest := hv.test (Q := fun v => (v.node 1).any fun n =>
      n.role = .leader ∧ n.commitIndex = 0 ∧ 0 < n.log.lastIndex) (by decide)
    simpa only [TimedState.Waits, Option.any_eq_true, decide_eq_true_eq] using htest
  obtain ⟨t, ht, hnode⟩ := stalled_leader_steps_down (p := 1) Timings.sane_brisk (by decide) hu hs
    hwait (by decide) rfl rfl rfl {} 0
  exact ⟨_, t, _, hu, hs, hwait, rfl, rfl, ht, hnode⟩

/-! ## CheckQuorum -/

/-- Since `u` the node has led, and only peers in `heard` have answered it. -/
def HeardBy (cfg : Config) (tm : Timings) (u : TimedState) (acts : List TimedAction) (p : ℕ)
    (heard : List ℕ) : Prop :=
  (∀ v, Visits (timedStep cfg tm) u acts v → ∃ n, v.node p = some n ∧ n.role = .leader) ∧
    ∀ v a q, Takes (timedStep cfg tm) u acts v a → a.answer v = some (p, q) → q ∈ heard

theorem HeardBy.of_snoc {a : TimedAction} (h : HeardBy cfg tm u (acts ++ [a]) p heard) :
    HeardBy cfg tm u acts p heard :=
  ⟨fun v hv => h.1 v hv.snoc, fun v b q hb => h.2 v b q hb.snoc⟩

structure Unheard (tm : Timings) (u s : TimedState) (p : ℕ) (heard : List ℕ) : Prop where
  contact : ∀ q ∉ heard, ∀ τ ∈ (s.clocks p).lastContact q, τ ≤ u.now
  check : ∃ τ < u.now + tm.electionTimeoutMax.toInt, (s.clocks p).lastQuorumCheck = some τ

/-- With too few answers, an election timeout later no quorum is active. -/
theorem quorumActive_of_unheard {c : Clocks} {now since : ℤ}
    (hcontact : ∀ q ∉ heard, ∀ τ ∈ c.lastContact q, τ ≤ since)
    (hfew : 1 + n.peers.countP (· ∈ heard) < n.majority)
    (hlong : tm.electionTimeoutMax.toInt ≤ now - since) :
    c.quorumActiveLocked tm now n = false := by
  rw [Clocks.quorumActiveLocked, decide_eq_false_iff_not, not_le]
  refine lt_of_le_of_lt ?_ hfew
  refine Nat.add_le_add_left (List.countP_mono_left fun q _ hq => ?_) 1
  by_contra hno
  rw [decide_eq_true_eq] at hno
  cases hc : c.lastContact q with
  | none => simp [hc, elapsed] at hq
  | some τ =>
    have hle := hcontact q hno τ hc
    simp only [hc, elapsed, Option.all_some, Bool.not_eq_true', decide_eq_false_iff_not,
      not_le] at hq
    omega

theorem run_unheard (hsane : tm.Sane) (hu : Run (timedStep cfg tm) P cfg.timedInit acts u)
    (h : Run (timedStep cfg tm) P u acts' s) (hheard : HeardBy cfg tm u acts' p heard)
    (hn : s.node p = some n) (hfew : 1 + n.peers.countP (· ∈ heard) < n.majority) :
    Unheard tm u s p heard := by
  induction h generalizing n with
  | nil =>
    obtain ⟨n', hn', hl⟩ := hheard.1 u (.start u _)
    obtain ⟨hcontact, ⟨τ, hτ, hcheck⟩, -, -⟩ := run_watched hu hn' hl
    have hpos := hsane.floor.trans hsane.spread
    exact ⟨fun q _ σ hσ => hcontact q σ hσ, τ, by omega, hcheck⟩
  | @snoc acts' r s a hrun hP hs ih =>
    obtain ⟨n', hn', hl'⟩ := hheard.1 r hrun.visits.snoc
    obtain ⟨m, hm, hl⟩ := hheard.1 s (hrun.snoc hP hs).visits
    obtain rfl := Option.mem_unique hn hm
    cases timedStep_tenure hs hm hl with
    | elected hno _ => exact absurd hl' (hno n' hn')
    | kept hr _ _ hpeers _ hk _ =>
      obtain rfl := Option.mem_unique hn' hr
      have hfew' : 1 + n'.peers.countP (· ∈ heard) < n'.majority := by
        rwa [Node.majority, hpeers] at hfew
      obtain ⟨hcontact, τ, hτ, hcheck⟩ := ih hheard.of_snoc hn' hfew'
      refine ⟨fun q hq σ hσ => ?_, ?_⟩
      · rcases hk.contact q with heq | ⟨-, hans⟩
        · exact hcontact q hq σ (heq ▸ hσ)
        · exact absurd (hheard.2 r a q hrun.takes hans) hq
      · rcases hk.check with heq | ⟨heq, hact⟩
        · exact ⟨τ, hτ, heq.trans hcheck⟩
        · refine ⟨s.now, ?_, heq⟩
          by_contra hlong
          rw [quorumActive_of_unheard hcontact hfew' (by omega)] at hact
          cases hact

/-- A leader that less than a majority has answered for two election timeouts is deposed. -/
theorem unheard_leader_steps_down {heard : List ℕ} (hsane : tm.Sane)
    (hu : Run (timedStep cfg tm) P cfg.timedInit acts u) (h : Run (timedStep cfg tm) P u acts' s)
    (hheard : HeardBy cfg tm u acts' p heard) (hn : s.node p = some n)
    (hfew : 1 + n.peers.countP (· ∈ heard) < n.majority)
    (hlong : 2 * tm.electionTimeoutMax.toInt ≤ s.now - u.now) (hstop : n.stopped = false)
    (io : Io) (draw : ℕ) :
    ∃ t, timedStep cfg tm s (.timer p io draw) = some t ∧ t.node p = some n.stepDownLocked := by
  obtain ⟨n', hn', hl⟩ := hheard.1 s h.visits
  obtain rfl := Option.mem_unique hn hn'
  obtain ⟨hcontact, τ, hτ, hcheck⟩ := run_unheard hsane hu h hheard hn hfew
  have hpos := hsane.floor.trans hsane.spread
  refine timer_resigns hsane hn hl hstop ?_ io draw
  unfold Clocks.runElectionTimer
  rw [hstop, if_neg (by decide), if_pos hl, hcheck, if_pos (Clocks.elapsed_some.mpr (by omega))]
  simp only
  have hidle : ¬ Clocks.quorumActiveLocked tm s.now n
      { s.clocks p with lastQuorumCheck := some s.now } = true :=
    Bool.eq_false_iff.mp (quorumActive_of_unheard hcontact hfew (by omega))
  rw [if_neg hidle]

/-- A leader of a pair that the other node does not answer. -/
theorem unheard_leader_steps_down_pair : ∃ s t n,
    Run (timedStep .pair .brisk) (fun _ _ => True) Config.pair.timedInit timedPropose proposed ∧
    Run (timedStep .pair .brisk) (fun _ _ => True) proposed [.pass 8] s ∧
    HeardBy .pair .brisk proposed [.pass 8] 1 [] ∧ s.node 1 = some n ∧
    timedStep .pair .brisk s (.timer 1 {} 0) = some t ∧ t.node 1 = some n.stepDownLocked := by
  have hu := Run.get (timedStep .pair .brisk) (fun _ _ => True) Config.pair.timedInit timedPropose
    (.of_forall (fun _ _ _ => trivial) _) rfl
  have hs := Run.get (timedStep .pair .brisk) (fun _ _ => True) proposed [.pass 8]
    (.of_forall (fun _ _ _ => trivial) _) rfl
  have hheard : HeardBy .pair .brisk proposed [.pass 8] 1 [] := by
    refine ⟨fun v hv => ?_, fun v a q ha hans => ?_⟩
    · have htest := hv.test (Q := fun v => (v.node 1).any fun n => n.role = .leader) (by decide)
      simpa only [Option.any_eq_true, decide_eq_true_eq] using htest
    · obtain rfl := List.mem_singleton.mp ha.mem
      cases hans
  obtain ⟨t, ht, hnode⟩ := unheard_leader_steps_down Timings.sane_brisk hu hs hheard rfl
    (by decide) (by decide) rfl {} 0
  exact ⟨_, t, _, hu, hs, hheard, rfl, ht, hnode⟩

end KMC
