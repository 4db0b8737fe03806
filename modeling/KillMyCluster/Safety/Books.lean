import KillMyCluster.Durable.Recorded
import KillMyCluster.Raft.Leads
import KillMyCluster.Safety.CommitRule
import KillMyCluster.Sim.Run

/-! The books of a leader: where each peer's next request starts, how far it matches, and what
may be committed because of it. As long as the disk keeps nothing of a failed batch of proposals,
they stay within the leader's own log. -/

namespace KMC

open LeaderLog Trace

variable {cfg : Config} {s t : State} {a : Action} {p : ℕ} {io : Io} {n : Node} {e : Effect}

/-! ## Failed proposals -/

/-- No persister call returns an error, but that of a batch of proposals may return one with
nothing written. -/
def Action.Clean : Action → Prop
  | .propose _ _ io => ∀ c, ∀ k ∈ io.fault c, k = 0
  | a => a.Reliable

/-- A section that ends as it began. -/
theorem State.finish_same (hn : s.node p = some n) (hc : io.crash = none) {calls : List Call}
    (hd : calls.foldl io.apply (s.servers p).disk = (s.servers p).disk) :
    s.finish p io { node := n, calls := calls } = s := by
  have hsrv : { s.servers p with proc := some n } = s.servers p := by
    rw [← show (s.servers p).proc = some n from hn]
  unfold State.finish
  simp only [hc, hd, rpcsOf, List.map_nil, List.append_nil, hsrv, Function.update_eq_self]

section Batch

variable (fail : Call → Bool) {batch : List Bytes} (hl : n.role = .leader)
include hl

theorem Node.commitPropBatch_ok
    (hf : fail (.appendEntries (newEntries n.currentTerm n.log.lastIndex batch)) = false) :
    (n.commitPropBatch fail batch).1 =
      { node := { n with
          log := n.log.append (newEntries n.currentTerm n.log.lastIndex batch) }
        calls := [.appendEntries (newEntries n.currentTerm n.log.lastIndex batch)] } := by
  simp [Node.commitPropBatch, hl, hf]

theorem Node.commitPropBatch_failed (hwf : n.log.WF)
    (hf : fail (.appendEntries (newEntries n.currentTerm n.log.lastIndex batch)) = true) :
    (n.commitPropBatch fail batch).1 =
      { node := n
        calls := [.appendEntries (newEntries n.currentTerm n.log.lastIndex batch)] } := by
  rw [Node.commitPropBatch, if_neg (by simp [hl])]
  simp only [hf, if_true, hwf.truncate_append]

end Batch

/-- A batch that fails without a trace might as well not have been proposed, or have met its
crash before its call. -/
theorem step_clean (hwf : ∀ p n, s.node p = some n → n.log.WF) (ha : a.Clean)
    (hs : step cfg s a = some t) : t = s ∨ ∃ b : Action, b.Reliable ∧ step cfg s b = some t := by
  cases a with
  | propose p batch io =>
    obtain ⟨n, e, hn, he, rfl⟩ := State.local_some hs
    obtain rfl := Option.some.inj he
    have hdies : ∀ d, d = (s.servers p).disk → ∃ b : Action, b.Reliable ∧
        step cfg s b = some (s.setServer p ((s.servers p).die d)) := by
      rintro d rfl
      exact ⟨.crash p, rfl, by simp [step, hn]⟩
    by_cases hl : n.role = .leader
    swap
    · rw [Node.commitPropBatch, if_pos hl]
      cases hc : io.crash with
      | none => exact .inl (State.finish_same hn hc rfl)
      | some kr =>
        simp only [State.finish, hc, List.drop_nil, List.head?_nil, Option.elim_none]
        exact .inr (hdies _ (by simp))
    set call := Call.appendEntries (Node.newEntries n.currentTerm n.log.lastIndex batch) with hcall
    cases hfault : io.fault call with
    | none =>
      have hrun : ∀ d, io.apply d call = Io.apply { io with fault := fun _ => none } d call :=
        fun d => by simp [Io.apply, hfault]
      refine .inr ⟨.propose p batch { io with fault := fun _ => none }, rfl, ?_⟩
      rw [Node.commitPropBatch_ok io.fail hl (by rw [Io.fail, ← hcall, hfault]; rfl)]
      simp only [step, State.local, hn, Option.bind_eq_bind, Option.bind_some,
        Node.commitPropBatch_ok (Io.fail { io with fault := fun _ => none }) hl rfl]
      cases hc : io.crash with
      | none => simp [State.finish, hc, hrun, ← hcall]
      | some kr =>
        obtain ⟨k, r⟩ := kr
        cases k <;> simp [State.finish, hc, hrun, ← hcall]
    | some k =>
      obtain rfl : k = 0 := ha call k hfault
      have hkeep : ∀ d, io.apply d call = d := by
        intro d
        rw [Io.apply, hfault]
        simp [hcall, Disk.write]
      have hfail : io.fail call = true := by rw [Io.fail, hfault]; rfl
      rw [Node.commitPropBatch_failed io.fail hl (hwf p n hn) hfail, ← hcall]
      cases hc : io.crash with
      | none => exact .inl (State.finish_same hn hc (by simp [hkeep]))
      | some kr =>
        obtain ⟨k, r⟩ := kr
        cases k with
        | zero =>
          refine .inr ⟨.propose p batch { crash := some (0, r) }, rfl, ?_⟩
          simp [step, State.local, hn, State.finish, hc, hcall,
            Node.commitPropBatch_ok (Io.fail { crash := some (0, r) }) hl rfl]
        | succ k =>
          simp only [State.finish, hc]
          exact .inr (hdies _ (by simp [hkeep]))
  | _ => exact .inr ⟨_, ha, hs⟩

def Config.plain (cfg : Config) : Setting := ⟨cfg, fun _ => [], False, False, False⟩

theorem plain_sim (h : Reaches (step cfg) (fun _ a => a.Reliable) cfg.init s) :
    ∃ g, cfg.plain.Sim g s := by
  obtain ⟨_, h⟩ := h
  obtain ⟨g, -, hsim⟩ := cfg.plain.sim_init.run
    (h.imp fun s a ha => ⟨ha, False.elim, False.elim, False.elim⟩)
  exact ⟨g, hsim⟩

theorem Setting.Sim.wf {K : Setting} {g : Ghost} (h : K.Sim g s) :
    ∀ p n, s.node p = some n → n.log.WF := fun p n hn => (h.rel.up p n hn).core.log.wf

/-- Runs with failed batches reach what runs without errors reach. -/
theorem clean_reaches (h : Reaches (step cfg) (fun _ a => a.Clean) cfg.init s) :
    Reaches (step cfg) (fun _ a => a.Reliable) cfg.init s :=
  h.absorb (fun _ ht => (plain_sim ht).choose_spec.wf) fun _ _ _ hwf ha hs => step_clean hwf ha hs

/-! ## Where the next request starts -/

@[simp] theorem Node.raiseMatch_next (n : Node) (q q' i : ℕ) :
    (n.raiseMatch q i).nextIndex q' =
      if q' = q then max (n.nextIndex q) (i + 1) else n.nextIndex q' := by
  simp [Node.raiseMatch, Function.update_apply]

theorem Leads.next_pos (h : Leads s n a e)
    (hn : n.role = .leader → ∀ q ∈ n.peers, 1 ≤ n.nextIndex q) :
    ∀ q ∈ e.node.peers, 1 ≤ e.node.nextIndex q := by
  cases h with
  | elected _ _ _ he =>
    rw [he]
    intro q hq
    have hq' : q ∈ (Node.peers _) := hq
    simp only [Node.becomeLeaderLocked] at hq' ⊢
    rw [if_pos hq']
    omega
  | idle hl hi =>
    intro q hq
    rw [hi.nextIndex]
    exact hn hl q (hi.peers ▸ hq)
  | @proposed _ batch io hl =>
    obtain ⟨log, hlog⟩ := Node.commitPropBatch_node io.fail n batch
    rw [hlog]
    exact hn hl
  | @compacted _ index data io hl =>
    obtain ⟨log, snap, hs⟩ := Node.snapshot_node io.fail n index data
    rw [hs]
    exact hn hl
  | @acked _ _ _ r req _ hl =>
    obtain ⟨ci, hci⟩ := (n.raiseMatch r.dst
      (req.prevLogIndex + req.entries.length)).maybeAdvanceCommit_node
    rw [hci]
    intro q hq
    have := hn hl q hq
    simp only [Node.raiseMatch_next]
    split <;> omega
  | @refused _ _ _ r _ resp hl =>
    intro q hq
    have := hn hl q hq
    simp only [Function.update_apply]
    split
    · exact le_max_right _ _
    · exact this
  | installed hl =>
    intro q hq
    have := hn hl q hq
    simp only [Node.raiseMatch_next]
    split <;> omega

/-- Whatever fails, the next request of a leader starts at index 1 or later. -/
theorem next_pos {P : State → Action → Prop} (h : Reaches (step cfg) P cfg.init s) :
    ∀ p n, s.node p = some n → n.role = .leader → ∀ q ∈ n.peers, 1 ≤ n.nextIndex q := by
  refine h.invariant (I := fun s => ∀ p n, s.node p = some n → n.role = .leader →
    ∀ q ∈ n.peers, 1 ≤ n.nextIndex q) (fun s a t ih _ hs => ?_) (by simp [Config.init, State.node])
  refine step_servers (I := fun _ srv => ∀ m, srv.proc = some m → m.role = .leader →
    ∀ q ∈ m.peers, 1 ≤ m.nextIndex q) hs ih ?_ ?_ ?_
  · intro p io n e hn hsec _ m hm hl
    obtain rfl := Option.some.inj hm
    exact (hsec.leads hl).next_pos (ih p n hn)
  · intro p io n e k r _ _ _ m hm
    cases hm
  · intro p srv hch m hm hl
    obtain ⟨n, hn, -, _, _, _, rfl⟩ | ⟨-, -, -, rfl⟩ := hch.proc hm
    · exact ih p n hn hl
    · cases hl

/-! ## The books stay within the log -/

theorem Node.appendRequest_prevTerm (hwf : n.log.WF) {next : ℕ} (h1 : n.log.firstIndex < next)
    (h2 : next ≤ n.log.lastIndex + 1) (es : List LogEntry) :
    n.log.term (n.appendRequest next es).prevLogIndex =
      some (n.appendRequest next es).prevLogTerm := by
  simp only [Node.appendRequest]
  obtain ⟨t, ht⟩ := hwf.term_held (i := next - 1) (by omega) (by omega)
  rw [ht]
  rfl

/-- The books of a leader name indexes of its log, and what it builds requests from is there. -/
theorem books_in_log (h : Reaches (step cfg) (fun _ a => a.Clean) cfg.init s)
    (hn : s.node p = some n) (hl : n.role = .leader) {q : ℕ} (hq : q ∈ cfg.peers p) :
    1 ≤ n.nextIndex q ∧ n.nextIndex q ≤ n.log.lastIndex + 1 ∧ n.matchIndex q ≤ n.log.lastIndex ∧
    ∀ e q' req, n.replicateOnce (s.servers p).disk.snap q = some e ∨ n.heartbeatAck q = some e →
      (q', .replicate req) ∈ e.sends ∨ (q', .heartbeat req) ∈ e.sends →
      n.log.firstIndex < n.nextIndex q ∧ req.prevLogIndex = n.nextIndex q - 1 ∧
        n.log.term req.prevLogIndex = some req.prevLogTerm := by
  obtain ⟨g, hsim⟩ := plain_sim (clean_reaches h)
  have hup := hsim.rel.up p n hn
  have hlead := hup.lead hl
  have hpeer : q ∈ n.peers := by rw [hup.peers]; exact hq
  have hnext := hlead.next q hpeer
  have hmatch := (hlead.matched q hpeer).le
  rw [hlead.tlog, ← hup.core.log.lastIndex] at hmatch
  refine ⟨next_pos h p n hn hl q hpeer, hnext, hmatch, fun e q' req he hsend => ?_⟩
  have hbuilt : ∀ es, n.log.firstIndex < n.nextIndex q →
      req = n.appendRequest (n.nextIndex q) es → n.log.firstIndex < n.nextIndex q ∧
        req.prevLogIndex = n.nextIndex q - 1 ∧
        n.log.term req.prevLogIndex = some req.prevLogTerm := by
    rintro es hfirst rfl
    exact ⟨hfirst, rfl, Node.appendRequest_prevTerm hup.core.log.wf hfirst hnext es⟩
  rcases he with he | he
  · obtain ⟨-, -, rfl | ⟨snap, -, -, rfl⟩ | ⟨hfirst, rfl⟩⟩ := Node.replicateOnce_cases he
    · simp at hsend
    · simp at hsend
    · simp only [List.mem_singleton, Prod.mk.injEq, Body.replicate.injEq, reduceCtorEq, and_false,
        or_false] at hsend
      exact hbuilt _ hfirst hsend.2
  · obtain ⟨-, -, hfirst, rfl⟩ := Node.heartbeatAck_cases he
    simp only [List.mem_singleton, Prod.mk.injEq, Body.heartbeat.injEq, reduceCtorEq, and_false,
      false_or] at hsend
    exact hbuilt _ hfirst hsend.2

theorem books_in_log_pair : ∃ s n, Reaches (step .pair) (fun _ a => a.Clean) Config.pair.init s ∧
    s.node 1 = some n ∧ n.role = .leader ∧ n.nextIndex 2 = 2 ∧ n.matchIndex 2 = 1 ∧
    1 ≤ n.nextIndex 2 ∧ n.nextIndex 2 ≤ n.log.lastIndex + 1 ∧
    n.matchIndex 2 ≤ n.log.lastIndex := by
  have hs := Reaches.of_exec (step .pair) (fun _ a => a.Clean) Config.pair.init
    (electFirst ++ [.propose 1 [[6]] { fault := fun _ => some 0 }, .propose 1 [[7]] {},
      .replicate 1 2, .deliver 2 false {}, .respond 2 0 {}])
    (.of_forall (by simp [electFirst, Action.Clean, Action.Reliable, Action.io]) _) rfl
  obtain ⟨h1, h2, h3, -⟩ := books_in_log (p := 1) (q := 2) hs rfl rfl (by decide)
  exact ⟨_, _, hs, rfl, rfl, rfl, rfl, h1, h2, h3⟩

/-- Node 1 of a pair fails to sync three entries, writes another one over them and restarts: its
log holds four entries and ends at index 1. It is elected again and sends all four. -/
def brokenLog : List Action :=
  electFirst ++ [.propose 1 [[1], [2], [3]] { fault := fun _ => some 3 }, .propose 1 [[4]] {},
    .crash 1, .restart 1, .tick 1 {}, .deliver 2 false {}, .respond 2 0 {}, .deliver 3 false {},
    .respond 3 0 {}, .replicate 1 2, .deliver 4 false {}, .respond 4 0 {}, .replicate 1 2,
    .deliver 5 false {}, .respond 5 0 {}]

theorem books_out_of_log : ∃ s n, Reaches (step .pair) (fun _ _ => True) Config.pair.init s ∧
    s.node 1 = some n ∧ n.role = .leader ∧ 2 ∈ n.peers ∧ n.log.lastIndex = 1 ∧
    n.matchIndex 2 = 4 ∧ n.nextIndex 2 = 5 := by
  have hs := Reaches.of_exec (step .pair) (fun _ _ => True) Config.pair.init brokenLog
    (.of_forall (fun _ _ _ => trivial) _) rfl
  exact ⟨_, _, hs, rfl, rfl, by decide, rfl, rfl, rfl⟩

end KMC
