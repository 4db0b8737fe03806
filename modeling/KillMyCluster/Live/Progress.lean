import KillMyCluster.Live.Spread

/-! The cluster is never beyond recovery. From every state it can get into while disks do not fail,
the servers of any majority, restarted after a power failure and left to themselves, elect a leader
that takes a new command, commits it with them and has all of them deliver it. -/

namespace KMC

open LeaderLog Trace

variable {cfg : Config} {S : Finset ℕ} {T : ℕ} {log : RaftLog} {p q i : ℕ} {s t : State}
  {n m : Node} {e : LogEntry}

/-! ## The applier -/

/-- Everything that was picked up is sent. -/
theorem drain (cfg : Config) (S : Finset ℕ) (hn : s.node q = some n) : ∃ t, Alone cfg S s t ∧
    t.node q = some n ∧ (t.servers q).batch = [] ∧
    (t.servers q).sent = (s.servers q).sent ++ (s.servers q).batch ∧
    ∀ x, x ≠ q → t.servers x = s.servers x := by
  generalize hb : (s.servers q).batch = batch
  induction batch generalizing s with
  | nil => exact ⟨s, .refl s, hn, hb, by simp, fun _ _ => rfl⟩
  | cons msg rest ih =>
    set srv : Server :=
      { s.servers q with proc := some n, batch := rest, sent := (s.servers q).sent ++ [msg] }
    have hs : step cfg s (.applierSend q) = some (s.setServer q srv) := by
      simp [step, hn, hb, srv]
    have hsrv : (s.setServer q srv).servers q = srv := by simp [State.setServer]
    obtain ⟨t, hst, ht, hempty, hsent, hothers⟩ :=
      ih (s := s.setServer q srv) (congrArg Server.proc hsrv) (congrArg Server.batch hsrv)
    refine ⟨t, Reaches.trans ((Reaches.refl s).snoc hs ⟨rfl, by simp⟩) hst, ht, hempty, ?_,
      fun x hx => (hothers x hx).trans (by simp [State.setServer, hx])⟩
    rw [hsent, hsrv]
    simp [srv]

/-- The applier picks something up and sends it. -/
theorem take_and_drain (cfg : Config) (S : Finset ℕ) {batch : List ApplyMsg}
    (hn : s.node q = some n) (hb : (s.servers q).batch = [])
    (ht : n.applierTake = some (m, batch)) : ∃ t, Alone cfg S s t ∧ t.node q = some m ∧
    (t.servers q).batch = [] ∧ (t.servers q).sent = (s.servers q).sent ++ batch ∧
    ∀ x, x ≠ q → t.servers x = s.servers x := by
  set srv : Server := { s.servers q with proc := some m, batch := batch }
  have hs : step cfg s (.applierTake q) = some (s.setServer q srv) := by
    simp [step, hn, ht, hb, srv]
  have hsrv : (s.setServer q srv).servers q = srv := by simp [State.setServer]
  obtain ⟨t, hst, hm, hempty, hsent, hothers⟩ :=
    drain cfg S (s := s.setServer q srv) (congrArg Server.proc hsrv)
  refine ⟨t, Reaches.trans ((Reaches.refl s).snoc hs ⟨rfl, by simp⟩) hst, hm, hempty, ?_,
    fun x hx => (hothers x hx).trans (by simp [State.setServer, hx])⟩
  rw [hsent, hsrv]

/-- What is in the log is collected. -/
theorem collectBatch_held (hwf : log.WF) (k : ℕ) (hf : log.firstIndex ≤ i)
    (hl : i + k ≤ log.lastIndex) : ∃ batch, Node.collectBatch log i k = some batch ∧
      ∀ j e, i < j → j ≤ i + k → log.entry j = some e → .command e ∈ batch := by
  induction k generalizing i with
  | zero => exact ⟨[], rfl, fun j _ h1 h2 => by omega⟩
  | succ k ih =>
    have hlen := hwf.lastIndex
    obtain ⟨e₀, he₀⟩ : ∃ e₀, log.entry (i + 1) = some e₀ := by
      rw [RaftLog.WF.entry_real (by omega)]
      exact exists_getElem (by omega)
    obtain ⟨rest, hrest, hmem⟩ := ih (i := i + 1) (by omega) (by omega)
    refine ⟨.command e₀ :: rest, by simp [Node.collectBatch, he₀, hrest], fun j e h1 h2 he => ?_⟩
    rcases Nat.eq_or_lt_of_le (show i + 1 ≤ j from h1) with rfl | h1
    · obtain rfl := Option.mem_unique he₀ he
      exact List.mem_cons_self
    · exact List.mem_cons_of_mem _ (hmem j e h1 (by omega) he)

def Ready (e : LogEntry) (srv : Server) : Prop :=
  ∃ n, srv.proc = some n ∧ n.stopped = false ∧ n.log.WF ∧ n.log.firstIndex ≤ n.lastApplied ∧
    n.commitIndex ≤ n.log.lastIndex ∧ n.lastApplied < e.index ∧ e.index ≤ n.commitIndex ∧
    n.log.entry e.index = some e

theorem Ready.delivers (h : Ready e (s.servers q)) (cfg : Config) (S : Finset ℕ) :
    ∃ t, Alone cfg S s t ∧ .command e ∈ (t.servers q).sent ∧
      ∀ x, x ≠ q → t.servers x = s.servers x := by
  obtain ⟨n, hn, hst, hwf, hf, hl, happ, hci, he⟩ := h
  obtain ⟨t, hst₁, hn₁, hb₁, -, hx₁⟩ := drain cfg S (s := s) hn
  -- a snapshot goes first
  obtain ⟨u, n', hst₂, hn₂, hb₂, hx₂, hsame⟩ : ∃ u n', Alone cfg S t u ∧ u.node q = some n' ∧
      (u.servers q).batch = [] ∧ (∀ x, x ≠ q → u.servers x = t.servers x) ∧
      n' = { n with pendingSnapshot := none } := by
    cases hp : n.pendingSnapshot with
    | none => exact ⟨t, n, .refl t, hn₁, hb₁, fun _ _ => rfl, by rw [← hp]⟩
    | some snap =>
      have htake : n.applierTake = some ({ n with pendingSnapshot := none }, [.snapshot snap]) := by
        simp [Node.applierTake, hst, hp]
      obtain ⟨u, h1, h2, h3, -, h4⟩ := take_and_drain cfg S hn₁ hb₁ htake
      exact ⟨u, _, h1, h2, h3, h4, rfl⟩
  obtain ⟨batch, hbatch, hmem⟩ := collectBatch_held hwf (n.commitIndex - n.lastApplied) hf
    (by omega)
  have htake : n'.applierTake = some ({ n' with lastApplied := n.commitIndex }, batch) := by
    simp [Node.applierTake, hsame, hst, hbatch, show n.commitIndex ≠ n.lastApplied by omega]
  obtain ⟨v, hst₃, -, -, hsent, hx₃⟩ := take_and_drain cfg S hn₂ hb₂ htake
  refine ⟨v, (hst₁.trans hst₂).trans hst₃, ?_, fun x hx => ?_⟩
  · rw [hsent]
    exact List.mem_append_right _ (hmem e.index e happ (by omega) he)
  · rw [hx₃ x hx, hx₂ x hx, hx₁ x hx]

theorem deliver_all (cfg : Config) (S : Finset ℕ) {l : List ℕ} (hnd : l.Nodup)
    (h : ∀ q ∈ l, Ready e (s.servers q)) :
    ∃ t, Alone cfg S s t ∧ (∀ q ∈ l, .command e ∈ (t.servers q).sent) ∧
      ∀ x ∉ l, t.servers x = s.servers x := by
  induction l generalizing s with
  | nil => exact ⟨s, .refl s, by simp, fun _ _ => rfl⟩
  | cons q l ih =>
    obtain ⟨hq, hnd⟩ := List.nodup_cons.mp hnd
    obtain ⟨hready, hl⟩ := List.forall_mem_cons.mp h
    obtain ⟨t, hst, hsent, hothers⟩ := hready.delivers cfg S
    obtain ⟨u, htu, hall, hrest⟩ := ih hnd fun x hx => by
      rw [hothers x fun hxq => hq (hxq ▸ hx)]
      exact hl x hx
    refine ⟨u, hst.trans htu, List.forall_mem_cons.mpr ⟨hrest q hq ▸ hsent, hall⟩, fun x hx => ?_⟩
    obtain ⟨hxq, hxl⟩ := List.ne_and_not_mem_of_not_mem_cons hx
    exact (hrest x hxl).trans (hothers x hxq)

/-! ## A new command -/

/-- Everybody has committed the end of the leader's log: its entry is ready to be delivered. -/
theorem Team.ready (h : Team cfg S T log p s) (he : log.entry log.lastIndex = some e)
    (hidx : e.index = log.lastIndex) (hq : q ∈ S) (hci : log.lastIndex ≤ s.commitAt q) :
    Ready e (s.servers q) := by
  obtain ⟨n, hn, hld, rfl, happ, -⟩ := h.lead
  obtain ⟨hst, hrole, hT⟩ := Node.leads_iff.mp hld
  obtain ⟨g, hsim⟩ := plain_sim h.reach
  have hi := hsim.rel.inv
  have hup := hsim.rel.up p n hn
  have hlead := hup.lead hrole
  have hled : g.leader T ≠ none := by simp [← hT, hlead.leader]
  obtain ⟨m, hm, hst', hT', happ'⟩ : ∃ m, s.node q = some m ∧ m.stopped = false ∧
      m.currentTerm ≤ T ∧ m.lastApplied < n.log.lastIndex := by
    by_cases hqp : q = p
    · exact ⟨n, hqp ▸ hn, hst, hT.le, happ⟩
    · exact h.follow q hq hqp
  have hupq := hsim.rel.up q m hm
  simp only [State.commitAt, hm, Option.map_some, Option.getD_some] at hci
  obtain ⟨c, hb, hlen⟩ := hupq.core.base
  have hle := hb.le_length hupq.core.log
  have hlast := hupq.core.log.lastIndex
  have hfirst := hupq.first_le
  have hcaught := (hupq.caught hi hT' hled (.inl hci)).2.2 (by omega)
  have hentry : n.log.entry n.log.lastIndex = (g.tlog T)[n.log.lastIndex - 1]? := by
    have hf := hup.first_le
    rw [← hT, hlead.tlog]
    exact hup.core.log.entry (by omega)
  refine ⟨m, hm, hst', hupq.core.log.wf, hfirst, by omega, by omega, by omega, ?_⟩
  rw [hidx, hcaught, ← hentry, he]

/-- The leader takes a command. Nobody has committed more than the log that it is appended to. -/
theorem Led.propose (hreach : Reaches (step cfg) (fun _ a => a.Reliable) cfg.init s)
    (h2 : 2 ≤ cfg.ids.length) (hS : S ⊆ cfg.ids.toFinset) (hp : p ∈ S) (h : Led S T p s)
    (data : Bytes) : ∃ t log e, Alone cfg S s t ∧ Team cfg S T log p t ∧ e.data = data ∧
      e.index = log.lastIndex ∧ log.entry log.lastIndex = some e ∧
      log.term log.lastIndex = some T := by
  obtain ⟨n, hn, hld⟩ := h.leader
  obtain ⟨hst, hrole, rfl⟩ := Node.leads_iff.mp hld
  obtain ⟨g, hsim⟩ := plain_sim hreach
  have hi := hsim.rel.inv
  have hup := hsim.rel.up p n hn
  have hlead := hup.lead hrole
  have hwf := hup.core.log.wf
  -- what anybody has committed is in the leader's log
  have hcommit : ∀ q m, s.node q = some m → m.currentTerm ≤ n.currentTerm →
      m.lastApplied ≤ m.commitIndex ∧ m.commitIndex ≤ n.log.lastIndex := by
    intro q m hm hT
    have hupq := hsim.rel.up q m hm
    obtain ⟨c, hb, hlen⟩ := hupq.core.base
    have hpre : c <+: g.tlog n.currentTerm :=
      hi.committed_tlog (hb.committed.mono hi (Grows.refl g) hT) (by simp [hlead.leader])
    have hle := hpre.length_le
    rw [hlead.tlog, ← hup.core.log.lastIndex] at hle
    exact ⟨hupq.applied_le, by omega⟩
  set e : LogEntry := ⟨n.log.lastIndex + 1, n.currentTerm, data⟩ with he
  set log := n.log.append [e] with hlog
  have hwf' : log.WF := hwf.append fun k x hx => by
    cases k with
    | zero => exact Option.some.inj hx ▸ rfl
    | succ k => simp at hx
  have hlast : log.lastIndex = n.log.lastIndex + 1 := by
    rw [hwf'.lastIndex, hwf.lastIndex, hlog, RaftLog.append_firstIndex, RaftLog.append_reals]
    simp [Nat.add_assoc]
  have hentry : log.entry log.lastIndex = some e := by
    have := hwf.entry_append_new [e] 0
    rwa [Nat.add_zero, ← hlast] at this
  have hfirst : log.firstIndex < log.lastIndex := by
    rw [hlast, hlog, RaftLog.append_firstIndex, hwf.lastIndex]
    omega
  set eff : Effect := { node := { n with log := log }, calls := [.appendEntries [e]] } with heff
  have hstep : step cfg s (.propose p [data] {}) = some (s.finish p {} eff) := by
    have hok : (n.commitPropBatch ({} : Io).fail [data]).1 = eff :=
      Node.commitPropBatch_ok _ hrole rfl
    simp only [step, State.local, hn, Option.bind_eq_bind, Option.bind_some, hok]
    rfl
  have hrun : Alone cfg S s (s.finish p {} eff) := (Reaches.refl s).snoc hstep ⟨rfl, by simp⟩
  obtain ⟨happ, hci⟩ := hcommit p n hn le_rfl
  refine ⟨s.finish p {} eff, log, e, hrun, ⟨hreach.trans hrun.reliable, hS, hp,
    ⟨eff.node, State.finish_proc .., hld, rfl, ?_, ?_⟩, fun q hq hqp => ?_, fun q hq => ?_⟩, rfl,
    hlast.symm, hentry, ?_⟩
  · change n.lastApplied < _
    omega
  · have hcache := (reliable_settled h2 hreach).shipments.cache p n hn
    have hfile : ∀ snap ∈ (s.servers p).disk.snap, snap.index ≤ n.commitIndex := by
      intro snap hsnap
      have := hup.core.disk.le_commit
      rwa [Disk.image, Option.mem_def.mp hsnap] at this
    have hship := Node.shipped_le hcache hfile
    have hdisk : ((s.finish p {} eff).servers p).disk.snap = (s.servers p).disk.snap := by
      simp [State.finish, heff, Io.apply, Disk.run]
    rw [hdisk]
    change (n.shipped (s.servers p).disk.snap).index < _
    omega
  · obtain ⟨m, hm, hst', hT⟩ := h.others q hq hqp
    obtain ⟨happ', hci'⟩ := hcommit q m hm hT
    exact ⟨m, (s.finish_proc_ne eff hqp).trans hm, hst', hT, by omega⟩
  · have hqp : q ≠ p := fun hqp => hq (hqp ▸ hp)
    exact (s.finish_proc_ne eff hqp).trans (h.down q hq)
  · rw [hwf'.term_entry hfirst, hentry]
    rfl

/-- From every state that a cluster of two or more nodes gets into while disks do not fail: all
servers may go down, and once those of a majority are back they commit any new command and deliver
it, without anybody else. -/
theorem majority_recovers (h2 : 2 ≤ cfg.ids.length)
    (hs : Reaches (step cfg) (fun _ a => a.Reliable) cfg.init s) (hS : S ⊆ cfg.ids.toFinset)
    (hmaj : cfg.ids.length < 2 * S.card) (data : Bytes) :
    ∃ t e, Alone cfg S s t ∧ e.data = data ∧ (∀ q ∈ S, .command e ∈ (t.servers q).sent) ∧
      ∀ q ∉ S, t.node q = none := by
  have hI := (requested_init cfg).reaches hs
  obtain ⟨s₁, hrun₁, hpres, hrole⟩ := come_back hI.enrolled hS
  have hs₁ := hs.trans hrun₁.reliable
  obtain ⟨s₂, p, T, hrun₂, hp, hled⟩ :=
    hpres.elects (hI.reaches hrun₁) hmaj hrole
  have hrun₂ := hrun₂.alone S
  have hs₂ := hs₁.trans hrun₂.reliable
  obtain ⟨s₃, log, e, hrun₃, hteam, hdata, hidx, hentry, hterm⟩ := hled.propose hs₂ h2 hS hp data
  obtain ⟨s₄, hrun₄, hteam, hknown⟩ := hteam.settle h2 hmaj hterm
  obtain ⟨s₅, hrun₅, hsent, hrest⟩ := deliver_all cfg S (l := S.toList) S.nodup_toList
    fun q hq => hteam.ready hentry hidx (Finset.mem_toList.mp hq)
      (hknown q (Finset.mem_toList.mp hq))
  refine ⟨s₅, e, (((hrun₁.trans hrun₂).trans hrun₃).trans hrun₄).trans hrun₅, hdata,
    fun q hq => hsent q (Finset.mem_toList.mpr hq), fun q hq => ?_⟩
  rw [State.node, hrest q (by simpa using hq)]
  exact hteam.down q hq

/-- After a split vote, which timers and messages alone do not resolve, the two nodes of a pair
commit a command nevertheless. -/
theorem majority_recovers_pair : ∃ s t e,
    Reaches (step .pair) (fun _ a => a.Reliable) Config.pair.init s ∧
    (∀ p n, s.node p = some n → n.role = .candidate) ∧ Alone .pair {1, 2} s t ∧ e.data = [7] ∧
    .command e ∈ (t.servers 1).sent ∧ .command e ∈ (t.servers 2).sent := by
  have hs := Reaches.of_exec (step .pair) (fun _ a => a.Reliable) Config.pair.init splitVote
    (.of_forall (by simp [splitVote, Action.Reliable, Action.io]) _) rfl
  obtain ⟨t, e, hrun, hdata, hsent, -⟩ := majority_recovers (S := {1, 2}) (by decide) hs
    (by decide) (by decide) [7]
  exact ⟨_, t, e, hs, fun p n hn => ((splitVote_stuck (Option.some_get _).symm).node p n hn).role,
    hrun, hdata, hsent 1 (by decide), hsent 2 (by decide)⟩

end KMC
