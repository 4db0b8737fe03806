import KillMyCluster.Kv.Runs

/-! Reads and the machine. `ReadIndex` waits for Raft's `lastApplied`, which is moved when the
applier picks a batch up; the messages may still be in the batch, in the channel, or in the hands
of the goroutine behind it when the wait ends. If none of those matter to the read, the machine has
been given everything through the index that is returned. -/

namespace KMC

open LeaderLog Trace

def ReadState.awaited (s : ReadState) : ReadAction → Option (ℕ × ℕ)
  | .applied p => match (s.readers p).phase with
    | .waiting readIndex _ => some (p, readIndex)
    | _ => none
  | .appliedLeased p i => (s.readers p).leased[i]?.map fun x => (p, x.2)
  | _ => none

theorem readStep_cluster_results {cfg : Config} {s t : ReadState} {x : Action}
    (h : readStep cfg s (.cluster x) = some t) : t.results = s.results := by
  simp only [readStep] at h
  split at h
  · cases h
  obtain ⟨u, -, rfl⟩ := Option.map_eq_some_iff.mp h
  rfl

/-- Only the end of a wait returns `true`, with an index at or below `lastApplied`. -/
theorem readStep_served {cfg : Config} {s t : ReadState} {a : ReadAction} {res : ReadResult}
    (h : readStep cfg s a = some t) (hres : res ∈ t.results.drop s.results.length)
    (hok : res.ok = true) :
    ∃ p n, s.base.node p = some n ∧ s.awaited a = some (p, res.index) ∧
      res.index ≤ n.lastApplied ∧ t.base = s.base := by
  have hsame : t.results = s.results → False := by
    intro heq
    rw [heq, List.drop_length] at hres
    cases hres
  have hfail : ∀ (u : ReadState) {p : ℕ} {b : Reader}, u.results = s.results →
      t = u.failReads p b → False := by
    rintro u p b heq rfl
    simp only [ReadState.failReads, ReadState.answer, ReadState.setReader, heq,
      List.drop_left, List.mem_map] at hres
    obtain ⟨_, -, rfl⟩ := hres
    cases hok
  cases readStep_cases h with
  | cluster _ => exact (hsame rfl).elim
  | call _ => exact (hsame rfl).elim
  | collect _ => exact (hsame rfl).elim
  | confirm _ => exact (hsame rfl).elim
  | beat _ _ _ => exact (hsame rfl).elim
  | ack _ _ _ _ _ => exact (hsame rfl).elim
  | confirmed _ _ _ _ _ _ => exact (hsame rfl).elim
  | @deposed p u _ => exact (hfail (s.advance u) rfl rfl).elim
  | fail _ _ _ => exact (hfail s rfl rfl).elim
  | @applied p i round hph =>
    simp only [readStep, Option.bind_eq_bind, Option.bind_eq_some_iff, hph] at h
    obtain ⟨n, hn, h⟩ := h
    split at h
    · rename_i hle
      simp only [ReadState.answer, ReadState.setReader, List.drop_left, List.mem_map] at hres
      obtain ⟨_, -, rfl⟩ := hres
      exact ⟨p, n, hn, by simp [ReadState.awaited, hph], hle, rfl⟩
    · cases h
  | @appliedLeased p j _ _ _ =>
    simp only [readStep, Option.bind_eq_bind, Option.bind_eq_some_iff] at h
    obtain ⟨n, hn, ⟨c', i'⟩, hc, h⟩ := h
    simp only at h
    split at h
    · rename_i hle
      have hnew := congrArg ReadState.results (Option.some.inj h)
      simp only [List.append_cancel_left_eq, List.cons.injEq, and_true] at hnew
      simp only [List.drop_left, List.mem_singleton] at hres
      obtain rfl := hres.trans hnew.symm
      exact ⟨p, n, hn, by simp [ReadState.awaited, hc], hle, rfl⟩
    · cases h

/-! ## What is on its way -/

namespace KvState

def awaited (s : KvState) : KvAction → Option (ℕ × ℕ)
  | .reads b => s.reads.awaited b
  | _ => none

/-- What the node of server `p` counts as applied and its machine has not been given: in the
channel or just out of it, in the applier's batch, or a snapshot not picked up. -/
def inFlight (s : KvState) (p : ℕ) : List ApplyMsg :=
  (s.raft.servers p).sent.drop (s.kvs p).taken ++ (s.raft.servers p).batch ++
    ((s.raft.node p).bind Node.pendingSnapshot).toList.map .snapshot

/-- The machine of server `p` has applied every command through `r` or restored a snapshot that
covers it. -/
def AppliedThrough (s : KvState) (p r : ℕ) : Prop :=
  ∀ i, 1 ≤ i → i ≤ r → (∃ e, .command e ∈ s.given p ∧ e.index = i) ∨
    ∃ snap, .snapshot snap ∈ s.given p ∧ i ≤ snap.index

end KvState

/-- No persister error, and when a wait for `r` ends only commands above `r` are in flight. -/
def ReliableDrained (s : KvState) (a : KvAction) : Prop :=
  a.Reliable ∧ ∀ p r, s.awaited a = some (p, r) →
    ∀ m ∈ s.inFlight p, ∃ e, m = .command e ∧ r < e.index

theorem InOrder.covers {ms : List ApplyMsg} {j i : ℕ} (h : InOrder ms j) (h1 : 1 ≤ i)
    (hij : i ≤ j) : (∃ e, .command e ∈ ms ∧ e.index = i) ∨
      ∃ snap, .snapshot snap ∈ ms ∧ i ≤ snap.index := by
  have hkeep : ∀ {ms : List ApplyMsg} {m : ApplyMsg},
      ((∃ e, .command e ∈ ms ∧ e.index = i) ∨ ∃ snap, .snapshot snap ∈ ms ∧ i ≤ snap.index) →
      (∃ e, .command e ∈ ms ++ [m] ∧ e.index = i) ∨
        ∃ snap, .snapshot snap ∈ ms ++ [m] ∧ i ≤ snap.index := by
    rintro ms m (⟨e, he, hi⟩ | ⟨snap, hs, hi⟩)
    · exact .inl ⟨e, List.mem_append_left _ he, hi⟩
    · exact .inr ⟨snap, List.mem_append_left _ hs, hi⟩
  induction h with
  | nil => omega
  | @command ms j e _ he ih =>
    rcases hij.lt_or_eq with hlt | rfl
    · exact hkeep (ih (by omega))
    · exact .inl ⟨e, by simp, he⟩
  | @snapshot ms j snap _ _ ih => exact .inr ⟨snap, by simp, hij⟩

variable {cfg : KvConfig} {s t : KvState} {a : KvAction} {p : ℕ}

/-- What is not in flight has been given to the machine. -/
theorem SendsAll.appliedThrough {n : Node} (h : SendsAll s.raft) (hn : s.raft.node p = some n)
    {r : ℕ} (hr : r ≤ n.lastApplied)
    (hfree : ∀ m ∈ s.inFlight p, ∃ e, m = .command e ∧ r < e.index) : s.AppliedThrough p r := by
  intro i h1 hi
  obtain ⟨j, hord, -, hnone, -⟩ := h.up p n hn
  have hpending : n.pendingSnapshot = none := by
    by_contra hne
    obtain ⟨snap, hs⟩ := Option.ne_none_iff_exists'.mp hne
    obtain ⟨e, he, -⟩ := hfree (.snapshot snap) (by simp [KvState.inFlight, hn, hs])
    cases he
  obtain rfl := hnone hpending
  have hsplit : ∀ m ∈ (s.raft.servers p).sent ++ (s.raft.servers p).batch,
      m ∈ s.given p ∨ m ∈ s.inFlight p := by
    intro m hm
    rw [← List.take_append_drop (s.kvs p).taken (s.raft.servers p).sent] at hm
    simp only [List.mem_append, KvState.given, KvState.inFlight] at hm ⊢
    tauto
  rcases hord.covers h1 (hi.trans hr) with ⟨e, he, hidx⟩ | ⟨snap, hs, hidx⟩
  · rcases hsplit _ he with hg | hf
    · exact .inl ⟨e, hg, hidx⟩
    · obtain ⟨e', he', hlt⟩ := hfree _ hf
      obtain rfl := ApplyMsg.command.inj he'
      omega
  · rcases hsplit _ hs with hg | hf
    · exact .inr ⟨snap, hg, hidx⟩
    · obtain ⟨e', he', -⟩ := hfree _ hf
      cases he'

/-- When `ReadIndex` returns an index, the machine of that node has applied everything through it,
and is what it was given makes of an empty machine. -/
theorem served_read_applied {res : ReadResult}
    (hs : Reaches (kvStep cfg) ReliableDrained cfg.init s) (ha : ReliableDrained s a)
    (ht : kvStep cfg s a = some t)
    (hres : res ∈ t.reads.results.drop s.reads.results.length) (hok : res.ok = true) :
    ∃ p, s.awaited a = some (p, res.index) ∧ t.AppliedThrough p res.index ∧
      newMachine.feed cfg.gob (t.given p) = some (t.kvs p).machine := by
  obtain ⟨g, hsim, hfed⟩ := KvSim.invariant (I := fun _ s => Fed cfg s) (fun _ _ h => h.1)
    (fed_init cfg) (fun _ _ _ _ _ _ _ _ h _ => h.step) hs
  have hfed' := hfed.step ht
  have hnone : ∀ {x : Action}, readStep cfg.raft s.reads (.cluster x) = some t.reads → False := by
    intro x hx
    rw [readStep_cluster_results hx, List.drop_length] at hres
    cases hres
  cases kvStep_cases ht with
  | @reads b u _ hu =>
    obtain ⟨p, n, hn, haw, hle, hbase⟩ := readStep_served hu hres hok
    have hthrough := hsim.sends.appliedThrough hn hle (ha.2 p _ haw)
    have hgiven : (s.advance u).given p = s.given p := by
      simp only [KvState.given, KvState.advance, KvState.raft, hbase, if_true]
    refine ⟨p, haw, ?_, hfed'.machine p⟩
    rw [KvState.AppliedThrough, hgiven]
    exact hthrough
  | propose _ hr => exact (hnone hr).elim
  | panics hr => exact (hnone hr).elim
  | compact _ _ _ hr => exact (hnone hr).elim
  | _ =>
    -- no other step answers a read
    exfalso
    change res ∈ s.reads.results.drop s.reads.results.length at hres
    rw [List.drop_length] at hres
    cases hres

def readPair : List KvAction :=
  [.reads (.call 1 false), .reads (.collect 1 0 false), .reads (.confirm 1), .reads (.beat 1 2),
    .reads (.cluster (.deliver 3 false {})), .reads (.ack 1 3 0 {}), .reads (.confirmed 1)]

theorem readPair_reliable : ∀ a ∈ readPair, a.Reliable := by
  simp [readPair, KvAction.Reliable, ReadAction.Reliable, ReadAction.act, Action.Reliable,
    Action.io]

/-- The put is committed and applied before a read. -/
def appliedRead : List KvAction :=
  firstPut ++ onNodes [.applierTake 1, .applierSend 1] ++ [.take 1, .apply 1] ++ readPair

theorem served_read_applied_pair : ∃ s t,
    Reaches (kvStep .pair) ReliableDrained KvConfig.pair.init s ∧
    kvStep .pair s (.reads (.applied 1)) = some t ∧
    t.reads.results = [⟨0, 1, true, true⟩] ∧ t.AppliedThrough 1 1 := by
  have hs := Reaches.of_exec (kvStep .pair) ReliableDrained KvConfig.pair.init appliedRead
    (.of_forall (by simp [appliedRead, readPair, firstPut, electFirst, onNodes, ReliableDrained,
      KvAction.Reliable, ReadAction.Reliable, ReadAction.act, Action.Reliable, Action.io,
      KvState.awaited, ReadState.awaited]) _) rfl
  have ht := (Option.some_get (x := kvStep .pair ((exec (kvStep .pair) KvConfig.pair.init
    appliedRead).get rfl) (.reads (.applied 1))) rfl).symm
  have hmem : (⟨0, 1, true, true⟩ : ReadResult) ∈ [(⟨0, 1, true, true⟩ : ReadResult)] :=
    List.mem_singleton.mpr rfl
  obtain ⟨p, haw, hthrough, -⟩ := served_read_applied hs
    ⟨by simp [KvAction.Reliable, ReadAction.Reliable, ReadAction.act], fun p r haw m hm => by
      obtain ⟨rfl, rfl⟩ := Prod.mk.inj (Option.some.inj haw)
      cases hm⟩ ht hmem rfl
  obtain ⟨rfl, -⟩ := Prod.mk.inj (Option.some.inj haw)
  exact ⟨_, _, hs, ht, rfl, hthrough⟩

/-- The put is committed and picked up by Raft's applier before a read. -/
def earlyRead : List KvAction := firstPut ++ onNodes [.applierTake 1] ++ readPair

theorem earlyRead_reliable : ∀ a ∈ earlyRead, a.Reliable := by
  simp only [earlyRead, List.forall_mem_append]
  refine ⟨⟨firstPut_reliable, reliable_onNodes ?_⟩, readPair_reliable⟩
  simp [Action.Reliable, Action.io]

/-- The read returns index 1 while the machine is still empty. -/
theorem served_read_not_applied : ∃ s t,
    Reaches (kvStep .pair) (fun _ a => a.Reliable) KvConfig.pair.init s ∧
    kvStep .pair s (.reads (.applied 1)) = some t ∧ t.reads.results = [⟨0, 1, true, true⟩] ∧
    ((t.raft.node 1).map fun n => n.log.entry 1) =
      some (some ⟨1, 1, Command.encode ⟨opPut, [1], 5, [7], some [1], none⟩⟩) ∧
    (t.kvs 1).machine.get [7] = (none, false) ∧ ¬ t.AppliedThrough 1 1 := by
  have hs := Reaches.of_exec (kvStep .pair) (fun _ a => a.Reliable) KvConfig.pair.init earlyRead
    (.of_forall (fun _ => earlyRead_reliable) _) rfl
  have ht := (Option.some_get (x := kvStep .pair ((exec (kvStep .pair) KvConfig.pair.init
    earlyRead).get rfl) (.reads (.applied 1))) rfl).symm
  refine ⟨_, _, hs, ht, rfl, rfl, rfl, fun h => ?_⟩
  rcases h 1 le_rfl le_rfl with ⟨e, he, -⟩ | ⟨snap, hsnap, -⟩
  · cases he
  · cases hsnap

end KMC
