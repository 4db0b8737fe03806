import KillMyCluster.Raft.Moves
import KillMyCluster.Safety.Delivery
import KillMyCluster.Safety.Leaders

/-! The order of the messages on `applyCh`. `lastApplied` is moved before a batch is sent, and a
snapshot may overtake it; what a process sends is still one sequence of growing indexes, and only
a snapshot jumps. -/

namespace KMC

open LeaderLog Trace

inductive InOrder : List ApplyMsg → ℕ → Prop
  | nil : InOrder [] 0
  | command {ms : List ApplyMsg} {i : ℕ} {e : LogEntry} : InOrder ms i → e.index = i + 1 →
      InOrder (ms ++ [.command e]) (i + 1)
  | snapshot {ms : List ApplyMsg} {i : ℕ} {snap : Snapshot} : InOrder ms i → i < snap.index →
      InOrder (ms ++ [.snapshot snap]) snap.index

variable {ms batch : List ApplyMsg} {i j k : ℕ} {n m : Node} {e : Effect} {K : Setting} {g : Ghost}

def lastSent (ms : List ApplyMsg) : ℕ := (ms.getLast?.map ApplyMsg.index).getD 0

theorem InOrder.lastSent (h : InOrder ms i) : lastSent ms = i := by
  cases h with
  | nil => rfl
  | command _ he => simpa [KMC.lastSent, ApplyMsg.index] using he
  | snapshot _ _ => simp [KMC.lastSent, ApplyMsg.index]

theorem InOrder.index_le (h : InOrder ms i) : ∀ m ∈ ms, m.index ≤ i := by
  induction h with
  | nil => simp
  | command _ he ih =>
    intro m hm
    rcases List.mem_append.mp hm with hm | hm
    · exact (ih m hm).trans (Nat.le_succ _)
    · obtain rfl := List.mem_singleton.mp hm
      exact he.le
  | snapshot _ hlt ih =>
    intro m hm
    rcases List.mem_append.mp hm with hm | hm
    · exact (ih m hm).trans hlt.le
    · obtain rfl := List.mem_singleton.mp hm
      exact le_rfl

/-- What was sent before. -/
theorem InOrder.take (h : InOrder ms i) (k : ℕ) : ∃ j, InOrder (ms.take k) j := by
  induction h with
  | nil => exact ⟨0, by simpa using .nil⟩
  | @command ms i e h₀ he ih =>
    by_cases hk : k ≤ ms.length
    · rw [List.take_append_of_le_length hk]
      exact ih
    · rw [List.take_of_length_le (by simp; omega)]
      exact ⟨_, h₀.command he⟩
  | @snapshot ms i snap h₀ hlt ih =>
    by_cases hk : k ≤ ms.length
    · rw [List.take_append_of_le_length hk]
      exact ih
    · rw [List.take_of_length_le (by simp; omega)]
      exact ⟨_, h₀.snapshot hlt⟩

theorem getElem_concat {α : Type*} {xs : List α} {x y : α} (h : (xs ++ [x])[k]? = some y) :
    k < xs.length ∧ xs[k]? = some y ∨ k = xs.length ∧ y = x := by
  rcases lt_trichotomy k xs.length with hk | hk | hk
  · rw [List.getElem?_append_left hk] at h
    exact .inl ⟨hk, h⟩
  · subst hk
    simp only [List.getElem?_concat_length, Option.some.injEq] at h
    exact .inr ⟨rfl, h.symm⟩
  · rw [List.getElem?_eq_none (by simp; omega)] at h
    cases h

theorem InOrder.command_at (h : InOrder ms i) {e : LogEntry} (he : ms[k]? = some (.command e)) :
    e.index = KMC.lastSent (ms.take k) + 1 := by
  induction h with
  | nil => simp at he
  | command h₀ hidx ih =>
    rcases getElem_concat he with ⟨hk, he⟩ | ⟨rfl, hx⟩
    · rw [List.take_append_of_le_length hk.le]
      exact ih he
    · obtain rfl := ApplyMsg.command.inj hx
      rw [List.take_left, h₀.lastSent, hidx]
  | snapshot h₀ _ ih =>
    rcases getElem_concat he with ⟨hk, he⟩ | ⟨rfl, hx⟩
    · rw [List.take_append_of_le_length hk.le]
      exact ih he
    · cases hx

theorem InOrder.snapshot_at (h : InOrder ms i) {snap : Snapshot} {m : ApplyMsg} (hjk : j < k)
    (hm : ms[j]? = some m) (hs : ms[k]? = some (.snapshot snap)) : m.index < snap.index := by
  induction h with
  | nil => simp at hs
  | command h₀ _ ih =>
    rcases getElem_concat hs with ⟨hk, hs⟩ | ⟨rfl, hx⟩
    · rw [List.getElem?_append_left (hjk.trans hk)] at hm
      exact ih hm hs
    · cases hx
  | snapshot h₀ hlt ih =>
    rcases getElem_concat hs with ⟨hk, hs⟩ | ⟨rfl, hx⟩
    · rw [List.getElem?_append_left (hjk.trans hk)] at hm
      exact ih hm hs
    · obtain rfl := ApplyMsg.snapshot.inj hx
      rw [List.getElem?_append_left hjk] at hm
      exact (h₀.index_le m (List.mem_of_getElem? hm)).trans_lt hlt

/-! ## One process -/

theorem InOrder.collectBatch {l : RaftLog} (hwf : l.WF) (k : ℕ) (hi : l.firstIndex ≤ i)
    (h : InOrder ms i) (hb : Node.collectBatch l i k = some batch) :
    InOrder (ms ++ batch) (i + k) := by
  induction k generalizing i ms batch with
  | zero =>
    obtain rfl := Option.some.inj hb
    simpa using h
  | succ k ih =>
    simp only [Node.collectBatch, Option.bind_eq_bind, Option.bind_eq_some_iff, Option.pure_def,
      Option.some.injEq] at hb
    obtain ⟨e, he, rest, hrest, rfl⟩ := hb
    rw [RaftLog.WF.entry_real (by omega)] at he
    have hidx := hwf _ e he
    have h1 := ih (by omega) (h.command (e := e) (by omega)) hrest
    rw [List.append_assoc, List.singleton_append] at h1
    rwa [show i + (k + 1) = i + 1 + k by omega]

def Node.Sends (n : Node) (ms : List ApplyMsg) : Prop :=
  ∃ i, InOrder ms i ∧ i ≤ n.lastApplied ∧ (n.pendingSnapshot = none → i = n.lastApplied) ∧
    ∀ snap, n.pendingSnapshot = some snap → i < snap.index ∧ snap.index = n.lastApplied

/-- A section leaves the applier's cursor alone, or it moves it to a snapshot beyond what is
committed. -/
theorem Moves.applied {s : State} {file : Option Snapshot} {a : Action} {io : Io}
    (h : Moves s file n a io e) :
    e.node.lastApplied = n.lastApplied ∧ e.node.pendingSnapshot = n.pendingSnapshot ∨
    ∃ snap, n.commitIndex < snap.index ∧ e.node.lastApplied = snap.index ∧
      e.node.pendingSnapshot = some snap := by
  have hgrows : ∀ {e : Effect}, e.Grows n →
      e.node.lastApplied = n.lastApplied ∧ e.node.pendingSnapshot = n.pendingSnapshot :=
    fun hg => ⟨hg.applied, hg.pending⟩
  cases h with
  | stays hq => exact .inl (hgrows hq.grows)
  | ship _ => exact .inl ⟨rfl, rfl⟩
  | commit hm _ => exact .inl ⟨hm.lastApplied, hm.pendingSnapshot⟩
  | merge _ _ _ _ hm hs _ => exact .inl (hgrows ((Node.mergeEntries_grows _ _).after hm hs))
  | install _ _ _ hm _ hci =>
    rw [← hm.commitIndex] at hci
    unfold Node.installLocked
    rw [if_neg (by omega)]
    simp only
    split
    · exact .inl ⟨hm.lastApplied, hm.pendingSnapshot⟩
    · exact .inr ⟨_, hm.commitIndex ▸ hci, rfl, rfl⟩
  | propose _ => exact .inl (hgrows (n.commitPropBatch_grows _))
  | snapshot =>
    left
    unfold Node.snapshot
    split
    · exact ⟨rfl, rfl⟩
    split
    · exact ⟨rfl, rfl⟩
    split
    · exact ⟨rfl, rfl⟩
    simp only
    split <;> exact ⟨rfl, rfl⟩

theorem Node.Sends.move (h : n.Sends ms) (hle : n.lastApplied ≤ n.commitIndex) {snap : Snapshot}
    (hci : n.commitIndex < snap.index) (ha : m.lastApplied = snap.index)
    (hp : m.pendingSnapshot = some snap) : m.Sends ms := by
  obtain ⟨i, hi, hia, -⟩ := h
  refine ⟨i, hi, by omega, by simp [hp], fun snap' hs => ?_⟩
  obtain rfl := Option.mem_unique hp hs
  exact ⟨by omega, ha.symm⟩

theorem Node.Sends.take {n' : Node} (h : n.Sends ms) (hwf : n.log.WF)
    (hf : n.log.firstIndex ≤ n.lastApplied) (hle : n.lastApplied ≤ n.commitIndex)
    (ht : n.applierTake = some (n', batch)) : n'.Sends (ms ++ batch) := by
  obtain ⟨i, hi, -, hnone, hsome⟩ := h
  rcases Node.applierTake_cases ht with ⟨snap, hs, rfl, rfl⟩ | ⟨hn, rfl, hb⟩
  · obtain ⟨hlt, heq⟩ := hsome snap hs
    exact ⟨snap.index, hi.snapshot hlt, heq.le, fun _ => heq, by simp⟩
  · obtain rfl := hnone hn
    have hord := hi.collectBatch hwf _ hf hb
    rw [Nat.add_sub_cancel' hle] at hord
    refine ⟨n.commitIndex, hord, le_rfl, fun _ => rfl, fun snap hs => ?_⟩
    rw [show n.pendingSnapshot = some snap from hs] at hn
    cases hn

theorem newNode_sends (id : ℕ) (peers : List ℕ) (retain : ℤ) (st : PersistedState) :
    (newNode id peers retain st).Sends [] := by
  refine ⟨0, .nil, Nat.zero_le _, fun h => ?_, fun snap h => ?_⟩
  · simp only [newNode, ite_eq_right_iff, reduceCtorEq, imp_false, not_lt, Nat.le_zero] at h ⊢
    exact h.symm
  · simp only [newNode, Option.ite_none_right_eq_some] at h ⊢
    obtain ⟨hpos, hs⟩ := h
    obtain rfl := Option.some.inj hs
    exact ⟨hpos, rfl⟩

/-! ## Runs -/

variable {cfg : Config} {s t : State} {a : Action} {p q : ℕ}

structure SendsAll (s : State) : Prop where
  up : ∀ p n, s.node p = some n → n.Sends ((s.servers p).sent ++ (s.servers p).batch)
  sent : ∀ p, ∃ i, InOrder (s.servers p).sent i

theorem Setting.Sim.sends (h : K.Sim g s) (ho : SendsAll s) (hs : KMC.step K.cfg s a = some t) :
    SendsAll t where
  up := by
    refine step_servers (I := fun _ srv => ∀ m, srv.proc = some m → m.Sends (srv.sent ++ srv.batch))
      hs ho.up (fun p io n e hn hsec _ m hm => ?_) (fun _ _ _ _ _ _ _ _ _ m hm => by cases hm)
      (fun p srv hch m hm => ?_)
    · obtain rfl := Option.some.inj hm
      rcases hsec.moves.applied with ⟨ha, hp⟩ | ⟨snap, hci, ha, hp⟩
      · unfold Node.Sends
        rw [ha, hp]
        exact ho.up p n hn
      · exact (ho.up p n hn).move (h.rel.up p n hn).applied_le hci ha hp
    · cases hch with
      | @applierTake _ n n' batch hn htake hb =>
        obtain rfl := Option.some.inj hm
        have hup := h.rel.up p n hn
        have := (ho.up p n hn).take hup.core.log.wf hup.first_le hup.applied_le htake
        rwa [hb, List.append_nil] at this
      | @applierSend _ n m rest hn hb =>
        obtain rfl := Option.some.inj hm
        simpa [hb] using ho.up p n hn
      | crash _ => cases hm
      | restart _ _ =>
        obtain rfl := Option.some.inj hm
        exact newNode_sends ..
      | @stop _ n hn =>
        obtain rfl := Option.some.inj hm
        exact ho.up p n hn
  sent := by
    refine step_servers (I := fun _ srv => ∃ i, InOrder srv.sent i) hs ho.sent
      (fun p _ _ _ _ _ _ => ho.sent p) (fun p _ _ _ _ _ _ _ _ => ho.sent p) (fun p srv hch => ?_)
    cases hch with
    | applierTake _ _ _ => exact ho.sent p
    | @applierSend _ n m rest hn hb =>
      -- the next message is the head of the batch
      obtain ⟨i, hi, -⟩ := ho.up p n hn
      obtain ⟨j, hj⟩ := hi.take ((s.servers p).sent ++ [m]).length
      rw [hb, ← List.singleton_append (l := rest), ← List.append_assoc, List.take_left] at hj
      exact ⟨j, hj⟩
    | crash _ => exact ho.sent p
    | restart _ _ => exact ⟨0, .nil⟩
    | stop _ => exact ho.sent p

/-- A run from a state whose log relation and deliveries are known. -/
theorem Setting.Sim.sends_run (h : K.Sim g s) (ho : SendsAll s) {acts : List Action}
    (hr : Run (KMC.step K.cfg) K.Allowed s acts t) : SendsAll t := by
  have key : ∃ g', K.Sim g' t ∧ SendsAll t := by
    induction hr with
    | nil => exact ⟨g, h, ho⟩
    | snoc _ ha hs ih =>
      obtain ⟨g₁, h₁, ho₁⟩ := ih
      obtain ⟨g₂, -, h₂⟩ := h₁.step ha hs
      exact ⟨g₂, h₂, h₁.sends ho₁ hs⟩
  exact key.choose_spec.2

theorem Setting.Delivered.committed {T : ℕ} (h : K.Delivered g T ms i) {e : LogEntry}
    (he : .command e ∈ ms) : ∃ L, Committed g T L ∧ 1 ≤ e.index ∧ L[e.index - 1]? = some e := by
  induction h with
  | nil => simp at he
  | @command ms i L e' _ hc hlen hidx ih =>
    rcases List.mem_append.mp he with he | he
    · exact ih he
    · obtain rfl := ApplyMsg.command.inj (List.mem_singleton.mp he)
      exact ⟨_, hc, by omega, by simp [hidx, ← hlen]⟩
  | snapshot _ _ ih =>
    rcases List.mem_append.mp he with he | he
    · exact ih he
    · cases List.mem_singleton.mp he

theorem OneRun.sent {P : State → Action → Prop} {a b : State} (hP : ∀ s x, P s x → K.Allowed s x)
    (h : OneRun K.cfg P a b) :
    SendsAll a ∧ ∃ g g', K.Sim g a ∧ K.Sent g a ∧ K.Sim g' b ∧ (Grew g g' ∨ Grew g' g) := by
  have hsent : K.Sent State.init K.cfg.init := fun p => ⟨0, 0, .nil⟩
  have hinit : SendsAll K.cfg.init := ⟨by simp [Config.init, State.node], fun p => ⟨0, .nil⟩⟩
  rcases h with ⟨⟨_, ha⟩, _, hb⟩ | ⟨⟨_, hb⟩, _, ha⟩
  · obtain ⟨g, -, h, hs⟩ := hsent.run K.sim_init (ha.imp hP)
    obtain ⟨g', hg, h'⟩ := h.run (hb.imp hP)
    exact ⟨K.sim_init.sends_run hinit (ha.imp hP), g, g', h, hs, h', .inl hg.grew⟩
  · obtain ⟨g', -, h', hs'⟩ := hsent.run K.sim_init (hb.imp hP)
    obtain ⟨g, hg, h, hs⟩ := hs'.run h' (ha.imp hP)
    exact ⟨h'.sends_run (K.sim_init.sends_run hinit (hb.imp hP)) (ha.imp hP), g, g', h, hs, h',
      .inr hg⟩

/-- What a process has sent on `applyCh`: commands follow without a gap, a snapshot only jumps
ahead, and a command is the entry that any node, at any time of the run, has committed at its
index. -/
theorem delivery_in_order {a b : State} (hab : OneRun cfg (fun _ x => x.Reliable) a b) (p : ℕ) :
    (∀ (k : ℕ) (e : LogEntry), (a.servers p).sent[k]? = some (.command e) →
      e.index = lastSent ((a.servers p).sent.take k) + 1) ∧
    (∀ (j k : ℕ) (m : ApplyMsg) (snap : Snapshot), j < k → (a.servers p).sent[j]? = some m →
      (a.servers p).sent[k]? = some (.snapshot snap) → m.index < snap.index) ∧
    ∀ e, .command e ∈ (a.servers p).sent →
      (∀ n, a.node p = some n → e.index ≤ n.commitIndex) ∧
      ∀ q n, b.node q = some n → n.log.firstIndex < e.index → e.index ≤ n.commitIndex →
        n.log.entry e.index = some e := by
  let K : Setting := ⟨cfg, fun _ => [], False, False, False⟩
  obtain ⟨hsends, g, g', h, hsent, h', hg⟩ := OneRun.sent (K := K)
    (fun s x hx => ⟨hx, False.elim, False.elim, False.elim⟩) hab
  obtain ⟨i, hi⟩ := hsends.sent p
  refine ⟨fun k e he => hi.command_at he, fun j k m snap hjk hm hs => hi.snapshot_at hjk hm hs,
    fun e he => ⟨fun n hn => ?_, fun q n hn hf hci => ?_⟩⟩
  · obtain ⟨j, hj, hle, -⟩ := hsends.up p n hn
    exact ((hj.index_le _ (List.mem_append_left _ he)).trans hle).trans
      (h.rel.up p n hn).applied_le
  · obtain ⟨T, j, hd⟩ := hsent p
    obtain ⟨L, hL, h1, heL⟩ := hd.committed he
    obtain ⟨L', e', hL', heL', hholds⟩ := (h'.rel.up q n hn).holds_committed h'.rel.inv h1 hci
    -- both are committed in the longer of the two abstract logs
    have heq : e' = e := by
      rcases hg with hg | hg
      · exact h'.rel.inv.committed_unique hL' (hL.mono h.rel.inv hg le_rfl) heL' heL
      · exact h.rel.inv.committed_unique (hL'.mono h'.rel.inv hg le_rfl) hL heL' heL
    rcases hholds with ⟨-, hent⟩ | ⟨hle, -⟩
    · exact heq ▸ hent
    · omega

/-- Node 3 of a trio loads the snapshot of node 1 and goes on with the next command. -/
def snapshotDelivers : List Action :=
  trioCommit ++ [.snapshot 1 1 [9] {}, .replicate 1 3, .deliver 5 false {}, .respond 5 0 {},
    .propose 1 [[8]] {}, .applierTake 3, .replicate 1 3, .deliver 6 false {}, .respond 6 0 {},
    .replicate 1 3, .applierSend 3, .deliver 7 false {}, .applierTake 3, .applierSend 3]

theorem delivery_in_order_trio : ∃ a,
    OneRun .trio (fun _ x => x.Reliable) a a ∧
    (a.servers 3).sent = [.snapshot ⟨1, 1, [9]⟩, .command ⟨2, 1, [8]⟩] ∧
    ∀ (k : ℕ) (e : LogEntry), (a.servers 3).sent[k]? = some (.command e) →
      e.index = lastSent ((a.servers 3).sent.take k) + 1 := by
  have ha := Reaches.of_exec (step .trio) (fun _ x => x.Reliable) Config.trio.init
    snapshotDelivers
    (.of_forall (by simp [snapshotDelivers, trioCommit, Action.Reliable, Action.io]) _) rfl
  exact ⟨_, Or.inl ⟨ha, [], .nil⟩, rfl, (delivery_in_order (Or.inl ⟨ha, [], .nil⟩) 3).1⟩

end KMC
