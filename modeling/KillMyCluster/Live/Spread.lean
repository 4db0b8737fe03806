import KillMyCluster.Live.Elect
import KillMyCluster.Safety.CatchUp
import KillMyCluster.Safety.Settled
import KillMyCluster.Timed.Contact

/-! A majority on its own, continued: the leader brings the others up to its log, one pass of
`replicateOnce` after the other, and hands on its commit index. The applier of each of them is
still before the end of that log. -/

namespace KMC

open LeaderLog Trace

variable {cfg : Config} {S : Finset ℕ} {T : ℕ} {log : RaftLog} {p q next : ℕ} {g : Ghost}
  {s t u : State} {n m : Node} {body : Body}

/-! ## What a pass does to the two nodes -/

theorem Node.adoptTerm_applied (n : Node) (term : ℕ) :
    (n.adoptTerm term).node.lastApplied = n.lastApplied := by
  unfold Node.adoptTerm
  split <;> rfl

/-- An AppendEntries leaves the applier alone. -/
theorem Node.handleAppendEntries_applied (fail : Call → Bool) (n : Node)
    (req : AppendEntriesRequest) :
    (n.handleAppendEntries fail req).1.node.lastApplied = n.lastApplied := by
  obtain ⟨log, ci, h⟩ := appendLocked_node fail
    ((n.adoptTerm req.term).node.followLeader req.leaderId) req
  unfold Node.handleAppendEntries
  split
  · rfl
  simp only
  split
  · exact n.adoptTerm_applied _
  · rw [Effect.after_node, h]
    exact n.adoptTerm_applied _

theorem Node.handleInstallSnapshot_applied (fail : Call → Bool) (n : Node)
    (req : InstallSnapshotRequest) :
    (n.handleInstallSnapshot fail req).1.node.lastApplied = n.lastApplied ∨
      (n.handleInstallSnapshot fail req).1.node.lastApplied = req.lastIncludedIndex := by
  unfold Node.handleInstallSnapshot
  split
  · exact .inl rfl
  simp only
  split
  · exact .inl (n.adoptTerm_applied _)
  rw [Effect.after_node]
  unfold Node.installLocked
  split
  · exact .inl (n.adoptTerm_applied _)
  simp only
  split
  · exact .inl (n.adoptTerm_applied _)
  · exact .inr rfl

theorem Node.advanceCommit_ge (n : Node) (req : AppendEntriesRequest) :
    min req.leaderCommit (req.prevLogIndex + req.entries.length) ≤
      (n.advanceCommit req).commitIndex := by
  unfold Node.advanceCommit
  split
  · simp only
    omega
  · omega

theorem Node.appendNew_ge {fail : Call → Bool} {req : AppendEntriesRequest} {new : List LogEntry}
    (h : (n.appendNew fail req new).2.success = true) :
    min req.leaderCommit (req.prevLogIndex + req.entries.length) ≤
      (n.appendNew fail req new).1.node.commitIndex := by
  unfold Node.appendNew at h ⊢
  split
  · exact n.advanceCommit_ge req
  · rename_i hne
    simp only [hne, if_false] at h ⊢
    split
    · rename_i hf
      simp [hf] at h
    · exact Node.advanceCommit_ge _ req

/-- A follower that acknowledges an AppendEntries has committed what the leader has, as far as the
request went. -/
theorem Node.handleAppendEntries_ge {fail : Call → Bool} {req : AppendEntriesRequest}
    (h : (n.handleAppendEntries fail req).2.success = true) :
    min req.leaderCommit (req.prevLogIndex + req.entries.length) ≤
      (n.handleAppendEntries fail req).1.node.commitIndex := by
  unfold Node.handleAppendEntries at h ⊢
  split
  · rename_i hst
    simp [hst] at h
  rename_i hst
  simp only [hst] at h ⊢
  split
  · rename_i hlt
    simp [hlt] at h
  rename_i hlt
  simp only [hlt, if_false] at h
  rw [Effect.after_node]
  unfold Node.appendLocked at h ⊢
  split
  · rename_i hshort
    simp [hshort] at h
  rename_i hshort
  simp only [hshort, if_false] at h
  split
  · rename_i hc
    rw [if_pos hc] at h
    simp [Node.conflict] at h
  rename_i hc
  rw [if_neg hc] at h
  unfold Node.mergeEntries at h ⊢
  split
  · rename_i hloop
    simp only [hloop] at h
    exact Node.appendNew_ge h
  · rename_i hloop
    simp only [hloop] at h ⊢
    split
    · rename_i hf
      simp [hf] at h
    · rename_i hf
      simp only [hf, Bool.false_eq_true, if_false] at h
      exact Node.appendNew_ge h

structure Fires (n : Node) (file : Option Snapshot) (body : Body) (e : Effect) : Prop where
  calls : e.calls = []
  applied : e.node.lastApplied = n.lastApplied
  image : e.node.shipped file = n.shipped file
  matched : e.node.matchIndex = n.matchIndex
  commit : ∀ req, body = .replicate req → req.leaderCommit = n.commitIndex
  ships : ∀ req, body = .snapshot req → req.lastIncludedIndex = (n.shipped file).index

theorem Node.replicateOnce_fires {file : Option Snapshot} {e : Effect} {x : ℕ}
    (h : n.replicateOnce file q = some e) (hb : (x, body) ∈ e.sends) : Fires n file body e := by
  obtain ⟨-, -, rfl | ⟨snap, hne, hsnap, rfl⟩ | ⟨-, rfl⟩⟩ := Node.replicateOnce_cases h
  · cases hb
  · obtain ⟨-, rfl⟩ := Prod.mk.inj (List.mem_singleton.mp hb)
    have himage : n.shipped file = snap := hsnap.symm
    refine ⟨rfl, rfl, ?_, rfl, by simp, fun req hreq => ?_⟩
    · rw [himage, Node.shipped_cache hne]
    · obtain rfl := Body.snapshot.inj hreq
      rw [himage]
  · obtain ⟨-, rfl⟩ := Prod.mk.inj (List.mem_singleton.mp hb)
    refine ⟨rfl, rfl, rfl, rfl, fun req hreq => ?_, by simp⟩
    obtain rfl := Body.replicate.inj hreq
    rfl

/-- What an answer does to the books of the leader. -/
theorem Replied.books {closing : Prop} {ci : ℕ} {resp : Response} {e : Effect}
    (h : Replied T log closing ci body resp) (hsent : Sent T log next body)
    (hld : n.leads T = true) (he : receive {} n q body resp = some e) :
    e.calls = [] ∧ e.node.lastApplied = n.lastApplied ∧ e.node.snapCache = n.snapCache ∧
      ∀ x, n.matchIndex x ≤ e.node.matchIndex x := by
  have hraise : ∀ i x, n.matchIndex x ≤ (n.raiseMatch q i).matchIndex x := by
    intro i x
    simp only [Node.raiseMatch, Function.update_apply]
    split
    · rename_i hx
      exact hx ▸ le_max_left _ _
    · exact le_rfl
  cases hsent with
  | @append req _ hreq _ _ =>
    subst hreq
    cases resp with
    | append ra =>
      obtain rfl := Option.some.inj he
      rw [Node.onAppendResponse_leads hld h.1.le]
      split
      · obtain ⟨ci, hci⟩ := Node.maybeAdvanceCommit_node
          (n.raiseMatch q (req.prevLogIndex + req.entries.length))
        rw [hci]
        exact ⟨rfl, rfl, rfl, hraise _⟩
      · exact ⟨rfl, rfl, rfl, fun _ => le_rfl⟩
    | _ => exact h.elim
  | @snapshot req _ hreq _ =>
    subst hreq
    cases resp with
    | install ri =>
      obtain rfl := Option.some.inj he
      rw [Node.onSnapshotResponse_leads hld h.1.le]
      exact ⟨rfl, rfl, rfl, hraise _⟩
    | _ => exact h.elim

/-! ## A pass whose request is delivered and answered at once -/

structure Shot (cfg : Config) (S : Finset ℕ) (T : ℕ) (log : RaftLog) (p q : ℕ) (n m : Node)
    (s t : State) (rd : Round) : Prop where
  run : Alone cfg S s t
  pass : Pass cfg T log p q s t rd
  sent : Sent T log rd.next rd.body
  leader : ∃ n', t.node p = some n' ∧ n'.lastApplied = n.lastApplied ∧
    n'.shipped (t.servers p).disk.snap = n.shipped (s.servers p).disk.snap ∧
    n.commitIndex ≤ n'.commitIndex ∧ ∀ x, n.matchIndex x ≤ n'.matchIndex x
  callee : t.node q = some (handle {} false m rd.body).1.node
  rises : m.commitIndex ≤ (handle {} false m rd.body).1.node.commitIndex
  resp : rd.resp = (handle {} false m rd.body).2
  others : ∀ x, x ≠ p → x ≠ q → t.node x = s.node x
  commit : ∀ req, rd.body = .replicate req → req.leaderCommit = n.commitIndex
  ships : ∀ req, rd.body = .snapshot req →
    req.lastIncludedIndex = (n.shipped (s.servers p).disk.snap).index

theorem Chasing.shot (h : Chasing cfg T log p q next g s) (h1 : 1 ≤ next)
    (hn : s.node p = some n) (hm : s.node q = some m) (S : Finset ℕ) :
    ∃ t rd, rd.next = next ∧ Shot cfg S T log p q n m s t rd := by
  obtain ⟨s₁, body, hs₁, hsent, hr, hsv₁, hq₁⟩ := h.sends h1
  obtain ⟨g₁, -, hchase⟩ := h.advance (show Action.Reliable (.replicate p q) from rfl) hs₁ hsv₁
  have hqp : q ≠ p := (Config.mem_peers.mp h.peer).2
  obtain ⟨n₀, e₁, hn₀, he₁, rfl⟩ : ∃ n e, s.node p = some n ∧
      n.replicateOnce (s.servers p).disk.snap q = some e ∧ s₁ = s.finish p {} e := by
    simp only [step, h.peer, if_true] at hs₁
    exact State.local_some hs₁
  obtain rfl := Option.mem_unique hn hn₀
  have hfires : Fires n (s.servers p).disk.snap body e₁ := by
    rcases getElem_append_rpcs hr with hold | ⟨-, x, b, hx, heq⟩
    · have := (List.getElem?_eq_some_iff.mp hold).1
      omega
    · obtain ⟨-, -, -, rfl, -⟩ := Rpc.mk.inj heq
      exact Node.replicateOnce_fires he₁ (List.mem_of_getElem? hx)
  obtain ⟨m', hm₁, hst, hT⟩ := hsv₁.follower
  obtain rfl := Option.some.inj ((hq₁ ▸ hm).symm.trans hm₁)
  obtain ⟨n₁, hn₁, hld, hlog, hnext⟩ := hsv₁.leader
  obtain rfl := Option.some.inj ((s.finish_proc p e₁).symm.trans hn₁)
  set s₁ := s.finish p {} e₁ with hs₁def
  set k := s.rpcs.length with hkdef
  have hk := (List.getElem?_eq_some_iff.mp hr).1
  have hans : Replied T log False _ body _ := hchase.answered hsent hr rfl rfl hm₁ False.elim
    (show ({} : Io).fault = fun _ => none from rfl) false
  obtain ⟨hst₂, hT₂⟩ := hsent.handled hst hT false
  set e := handle {} false m body with he
  set s₂ := (s₁.finish q {} e.1).answer k {} e.2 with hs₂
  have hstep₂ : step cfg s₁ (.deliver k false {}) = some s₂ := by
    simp [step, hr, hm₁, hs₂, he]
  have hn₂ : s₂.node p = some e₁.node := by
    simpa [hs₂, State.answer, State.finish, State.node, hqp.symm] using hn₁
  have hm₂ : s₂.node q = some e.1.node := by
    simp [hs₂, State.answer, State.finish, State.node]
  have hsv₂ : Serves T log p q next s₂ :=
    ⟨⟨e₁.node, hn₂, hld, hlog, hnext⟩, ⟨_, hm₂, hst₂, hT₂⟩⟩
  have hr₂ : s₂.rpcs[k]? = some ⟨p, q, (s.servers p).epoch, body, [e.2], false⟩ := by
    simp only [hs₂, State.answer, State.finish, List.getElem?_modify]
    rw [List.getElem?_append_left hk, hr]
    simp
  obtain ⟨e₃, he₃, hld₃, hlog₃⟩ := hans.received (n := e₁.node) (q := q) hsent hld
  obtain ⟨hcalls, happ, hcache, hmatch⟩ := hans.books hsent hld he₃
  have hdisk₂ : (s₂.servers p).disk = (s.servers p).disk := by
    simp [hs₂, hs₁def, State.answer, State.finish, hqp.symm, hfires.calls]
  set t := (s₂.markHandled k).finish p {} e₃ with ht
  have hdisk : (t.servers p).disk = (s.servers p).disk := by
    rw [← hdisk₂]
    simp [ht, State.markHandled, State.finish, hcalls]
  have htp : t.node p = some e₃.node := State.finish_proc ..
  have htq : t.node q = some e.1.node := by
    simpa [ht, State.finish, State.node, State.markHandled, hqp] using hm₂
  have hstep₃ : step cfg s₂ (.respond k 0 {}) = some t := by
    have hep₂ : (s₂.servers p).epoch = (s.servers p).epoch := by
      simp [hs₂, hs₁def, State.answer, State.finish, hqp.symm]
    have hn₃ : (s₂.markHandled k).node p = some e₁.node := hn₂
    simp [step, hr₂, hep₂, State.local, hn₃, he₃, ht]
  refine ⟨t, ⟨next, body, e.2, e₃.node.nextIndex q⟩, rfl, ?_, .direct (j := 0) false h.serves hs₁ hr
    hstep₂ hsv₂ hr₂ rfl rfl hstep₃ ⟨⟨e₃.node, htp, hld₃, hlog₃.trans hlog, rfl⟩, _, htq, hst₂, hT₂⟩,
    hsent, ⟨e₃.node, htp, happ.trans hfires.applied, ?_, ?_, fun x => ?_⟩, htq,
    step_commit_le hstep₂ hm₁ hm₂, rfl, fun x hxp hxq => ?_, hfires.commit, hfires.ships⟩
  · exact (((Reaches.refl s).snoc hs₁ ⟨rfl, by simp⟩).snoc hstep₂ ⟨rfl, by simp⟩).snoc hstep₃
      ⟨rfl, by simp⟩
  · rw [hdisk, ← hfires.image]
    simp only [Node.shipped, hcache]
  · exact (step_commit_le hs₁ hn hn₁).trans (step_commit_le hstep₃ hn₂ htp)
  · rw [← hfires.matched]
    exact hmatch x
  · simp [ht, hs₂, hs₁def, State.finish, State.node, State.markHandled, State.answer, hxp, hxq]

/-- The applier of the follower moves only with an image of the leader's. -/
theorem Shot.late {rd : Round} {i : ℕ} (h : Shot cfg S T log p q n m s t rd)
    (hship : (n.shipped (s.servers p).disk.snap).index < i) (hm : m.lastApplied < i) :
    (handle {} false m rd.body).1.node.lastApplied < i := by
  have hships := h.ships
  have hsent := h.sent
  obtain ⟨next, body, resp, next'⟩ := rd
  cases hsent with
  | @append req _ _ _ _ => exact (m.handleAppendEntries_applied _ req).trans_lt hm
  | @snapshot req _ _ _ =>
    rcases m.handleInstallSnapshot_applied (Io.fail {}) req with heq | heq
    · exact heq.trans_lt hm
    · exact heq.trans_lt ((hships req rfl).trans_lt hship)

/-- A pass that is accepted hands on the commit index. -/
theorem Shot.handed {rd : Round} (h : Shot cfg S T log p q n m s t rd) (hrej : rd.rejected = false)
    (hsh : rd.shipped = false)
    (hnext : rd.next' = rd.next + min maxAppendEntries (log.lastIndex + 1 - rd.next)) :
    min n.commitIndex (rd.next' - 1) ≤ (handle {} false m rd.body).1.node.commitIndex := by
  have hcommit := h.commit
  have hresp := h.resp
  have hsent := h.sent
  obtain ⟨next, body, resp, next'⟩ := rd
  cases hsent with
  | snapshot => simp [Round.shipped] at hsh
  | @append req _ _ hprev hlen =>
    simp only [handle] at hresp hprev hlen hnext ⊢
    have hok : (m.handleAppendEntries (Io.fail {}) req).2.success = true := by
      simpa [Round.rejected, hresp] using hrej
    have hge := Node.handleAppendEntries_ge hok
    rw [hcommit req rfl] at hge
    omega

/-! ## A leader and its majority -/

def State.commitAt (s : State) (x : ℕ) : ℕ := ((s.node x).map Node.commitIndex).getD 0

def State.matchAt (s : State) (p x : ℕ) : ℕ := ((s.node p).map (·.matchIndex x)).getD 0

structure Onward (p : ℕ) (s t : State) : Prop where
  commit : ∀ x, s.commitAt x ≤ t.commitAt x
  matched : ∀ x, s.matchAt p x ≤ t.matchAt p x

theorem Onward.refl (p : ℕ) (s : State) : Onward p s s := ⟨fun _ => le_rfl, fun _ => le_rfl⟩

theorem Onward.trans (h : Onward p s t) (h' : Onward p t u) : Onward p s u :=
  ⟨fun x => (h.commit x).trans (h'.commit x), fun x => (h.matched x).trans (h'.matched x)⟩

/-- `p` leads term `T` with `log`; the others of `S` run in terms that are not above, and nobody's
applier, nor the image that `p` ships, has come to the end of `log`. -/
structure Team (cfg : Config) (S : Finset ℕ) (T : ℕ) (log : RaftLog) (p : ℕ) (s : State) :
    Prop where
  reach : Reaches (step cfg) (fun _ a => a.Reliable) cfg.init s
  within : S ⊆ cfg.ids.toFinset
  member : p ∈ S
  lead : ∃ n, s.node p = some n ∧ n.leads T = true ∧ n.log = log ∧
    n.lastApplied < log.lastIndex ∧ (n.shipped (s.servers p).disk.snap).index < log.lastIndex
  follow : ∀ q ∈ S, q ≠ p → ∃ m, s.node q = some m ∧ m.stopped = false ∧ m.currentTerm ≤ T ∧
    m.lastApplied < log.lastIndex
  down : ∀ q ∉ S, s.node q = none

theorem reliable_ships (h : Reaches (step cfg) (fun _ a => a.Reliable) cfg.init s) :
    ∀ p n, s.node p = some n → n.Shippable (s.servers p).disk.snap :=
  h.invariant (I := fun s => ∀ p n, s.node p = some n → n.Shippable (s.servers p).disk.snap)
    (fun s _ _ h ha hs => step_shippable hs (ha.shipping s) h)
    (by intro p n hn; simp [Config.init, State.node] at hn)

theorem Team.chasing (h : Team cfg S T log p s) (hq : q ∈ S) (hqp : q ≠ p)
    (hn : s.node p = some n) :
    1 ≤ n.nextIndex q ∧ ∃ g, Chasing cfg T log p q (n.nextIndex q) g s := by
  obtain ⟨n', hn', hld, hlog, -⟩ := h.lead
  obtain rfl := Option.mem_unique hn hn'
  obtain ⟨m, hm, hst, hT, -⟩ := h.follow q hq hqp
  have hpeer : q ∈ cfg.peers p := Config.mem_peers.mpr ⟨List.mem_toFinset.mp (h.within hq), hqp⟩
  obtain ⟨g, hsim⟩ := plain_sim h.reach
  refine ⟨next_pos h.reach p n hn (Node.leads_iff.mp hld).2.1 q ?_, g, hpeer, hsim,
    reliable_ships h.reach, ⟨n, hn, hld, hlog, rfl⟩, m, hm, hst, hT⟩
  exact (hsim.rel.up p n hn).peers ▸ hpeer

/-- What a pass comes to: nothing is lost, and one that asks for no other has matched the log and
has handed on the commit index. -/
structure Team.After (cfg : Config) (S : Finset ℕ) (T : ℕ) (log : RaftLog) (p q : ℕ) (s t : State)
    (done : Prop) : Prop where
  run : Alone cfg S s t
  team : Team cfg S T log p t
  onward : Onward p s t
  done : done → log.lastIndex ≤ t.matchAt p q ∧ min (s.commitAt p) log.lastIndex ≤ t.commitAt q

theorem Team.shoot (h : Team cfg S T log p s) (hq : q ∈ S) (hqp : q ≠ p) :
    ∃ t rd, Pass cfg T log p q s t rd ∧
      Team.After cfg S T log p q s t (rd.again log.lastIndex = false) := by
  obtain ⟨n, hn, hld, hlog, happ, hship⟩ := h.lead
  obtain ⟨m, hm, hst, hT, hmapp⟩ := h.follow q hq hqp
  obtain ⟨h1, g, hchase⟩ := h.chasing hq hqp hn
  obtain ⟨t, rd, hnext, hshot⟩ := hchase.shot h1 hn hm S
  rw [← hnext] at h1 hchase
  obtain ⟨g', hchase', hfares⟩ : ∃ g', Chasing cfg T log p q rd.next' g' t ∧
      Fares T log p q False g' t rd := hchase.pass h1 False.elim hshot.pass
  obtain ⟨n', hn', happ', himage, hci, hmatch⟩ := hshot.leader
  obtain ⟨n₁, hn₁, hld', hlog', -⟩ := hchase'.serves.leader
  obtain rfl := Option.mem_unique hn' hn₁
  obtain ⟨m', hm', hst', hT'⟩ := hchase'.serves.follower
  obtain rfl := Option.mem_unique hm' hshot.callee
  refine ⟨t, rd, hshot.pass, hshot.run, ?_, ⟨fun x => ?_, fun x => ?_⟩, fun hag => ?_⟩
  · refine ⟨h.reach.trans hshot.run.reliable, h.within, h.member, ⟨n', hn', hld', hlog',
      happ' ▸ happ, himage ▸ hship⟩, fun x hx hxp => ?_, fun x hx => ?_⟩
    · by_cases hxq : x = q
      · exact hxq ▸ ⟨_, hm', hst', hT', hshot.late hship hmapp⟩
      · exact hshot.others x hxp hxq ▸ h.follow x hx hxp
    · have hxp : x ≠ p := fun hxp => hx (hxp ▸ h.member)
      exact (hshot.others x hxp fun hxq => hx (hxq ▸ hq)).trans (h.down x hx)
  · by_cases hxp : x = p
    · subst hxp
      simpa [State.commitAt, hn, hn'] using hci
    by_cases hxq : x = q
    · subst hxq
      simpa [State.commitAt, hm, hm'] using hshot.rises
    · simp [State.commitAt, hshot.others x hxp hxq]
  · simpa [State.matchAt, hn, hn'] using hmatch x
  · cases hfares with
    | rejected _ _ hag' _ _ _ => simp [hag'] at hag
    | shipped _ _ hag' _ _ _ => simp [hag'] at hag
    | accepted hrej hsh hag' _ hnext' _ hm'' =>
      have hend : log.lastIndex < rd.next' := by simpa [hag'] using hag
      have hmq := hm'' n' hn'
      refine ⟨by simp only [State.matchAt, hn', Option.map_some, Option.getD_some]; omega, ?_⟩
      have hcommit := hshot.handed hrej hsh hnext'
      simp only [State.commitAt, hn, hm', Option.map_some, Option.getD_some]
      omega

/-- Passes in a row, `k` of them unless no other is asked for before. -/
theorem Team.passes (h : Team cfg S T log p s) (hq : q ∈ S) (hqp : q ≠ p) (k : ℕ) :
    ∃ rds go t, Chain cfg T log p q s rds go t ∧
      Team.After cfg S T log p q s t (go = false) ∧ (go = false ∨ rds.length = k) := by
  induction k with
  | zero => exact ⟨[], true, s, .nil, ⟨.refl s, h, .refl p s, by simp⟩, .inr rfl⟩
  | succ k ih =>
    obtain ⟨rds, go, t, hchain, hafter, hgo⟩ := ih
    cases go with
    | false => exact ⟨rds, false, t, hchain, hafter, .inl rfl⟩
    | true =>
      obtain ⟨u, rd, hpass, hu⟩ := hafter.team.shoot hq hqp
      have hsv : Serves T log p q rd.next t := by
        obtain ⟨hsv, -⟩ := hpass
        exact hsv
      refine ⟨rds ++ [rd], rd.again log.lastIndex, u, .snoc hchain hsv (.refl t) hpass,
        ⟨hafter.run.trans hu.run, hu.team, hafter.onward.trans hu.onward, fun hag => ?_⟩, .inr ?_⟩
      · obtain ⟨hmatch, hcommit⟩ := hu.done hag
        have := hafter.onward.commit p
        exact ⟨hmatch, by omega⟩
      · have hlen := hgo.resolve_left (by simp)
        simp [hlen]

/-- The passes come to an end. -/
theorem Team.catch_up (h : Team cfg S T log p s) (hq : q ∈ S) (hqp : q ≠ p) :
    ∃ t, Team.After cfg S T log p q s t True := by
  obtain ⟨n, hn, -⟩ := h.lead
  obtain ⟨h1, g, hchase⟩ := h.chasing hq hqp hn
  obtain ⟨rds, go, t, hchain, hafter, hgo⟩ :=
    h.passes hq hqp (n.nextIndex q + log.lastIndex + 2)
  refine ⟨t, hafter.run, hafter.team, hafter.onward, fun _ => hafter.done ?_⟩
  obtain ⟨next, g', hchase', -, -, hreach⟩ := hchain.reached h1 hchase
  obtain ⟨_, _, _, _, _, _, _, _, _, hle⟩ := hchase'.leads
  rcases hgo with hgo | hlen
  · exact hgo
  cases hreach with
  | searching _ _ hsum => omega
  | closing _ _ _ hmore _ =>
    by_contra hgo
    have := hmore (by simpa using hgo)
    omega

/-- Everybody in a list is brought up to the leader's log. -/
theorem Team.catch_all (h : Team cfg S T log p s) {l : List ℕ} (hl : ∀ q ∈ l, q ∈ S ∧ q ≠ p) :
    ∃ t, Alone cfg S s t ∧ Team cfg S T log p t ∧ Onward p s t ∧ ∀ q ∈ l,
      log.lastIndex ≤ t.matchAt p q ∧ min (s.commitAt p) log.lastIndex ≤ t.commitAt q := by
  induction l with
  | nil => exact ⟨s, .refl s, h, .refl p s, by simp⟩
  | cons q l ih =>
    obtain ⟨hq, hl⟩ := List.forall_mem_cons.mp hl
    obtain ⟨t, hst, ht, hon, hdone⟩ := ih hl
    obtain ⟨u, hu⟩ := ht.catch_up hq.1 hq.2
    refine ⟨u, hst.trans hu.run, hu.team, hon.trans hu.onward,
      List.forall_mem_cons.mpr ⟨?_, fun x hx => ?_⟩⟩
    · obtain ⟨hmatch, hcommit⟩ := hu.done trivial
      have := hon.commit p
      exact ⟨hmatch, by omega⟩
    · obtain ⟨hmatch, hcommit⟩ := hdone x hx
      exact ⟨hmatch.trans (hu.onward.matched x), hcommit.trans (hu.onward.commit x)⟩

/-! ## The commit index -/

/-- Once a majority holds the log, and it ends in the leader's term, all of it is committed. -/
theorem Team.committed (h : Team cfg S T log p s) (h2 : 2 ≤ cfg.ids.length)
    (hmaj : cfg.ids.length < 2 * S.card) (hterm : log.term log.lastIndex = some T)
    (hall : ∀ q ∈ S, q ≠ p → log.lastIndex ≤ s.matchAt p q) : log.lastIndex ≤ s.commitAt p := by
  obtain ⟨n, hn, hld, hlog, -⟩ := h.lead
  obtain ⟨-, hrole, hT⟩ := Node.leads_iff.mp hld
  have hset := (reliable_settled h2 h.reach).settled p n hn hrole log.lastIndex
  obtain ⟨g, hsim⟩ := plain_sim h.reach
  have hup := hsim.rel.up p n hn
  have hci : s.commitAt p = n.commitIndex := by simp [State.commitAt, hn]
  by_contra hlt
  refine hset ⟨by omega, by rw [hlog, hT, hterm], ?_⟩
  have hids : p ∈ cfg.ids := hup.mem
  have hpeers : n.peers = cfg.peers p := hup.peers
  -- all of `S` but the leader are counted
  have hsub : (S.erase p).card ≤ n.peers.countP fun q => log.lastIndex ≤ n.matchIndex q := by
    rw [List.countP_eq_length_filter]
    refine (Finset.card_le_card (t := (n.peers.filter
      fun q => log.lastIndex ≤ n.matchIndex q).toFinset) fun q hq => ?_).trans
      (List.toFinset_card_le _)
    obtain ⟨hqp, hq⟩ := Finset.mem_erase.mp hq
    have hmatch := hall q hq hqp
    simp only [State.matchAt, hn, Option.map_some, Option.getD_some] at hmatch
    simp only [List.mem_toFinset, List.mem_filter, decide_eq_true_eq]
    exact ⟨hpeers ▸ Config.mem_peers.mpr ⟨List.mem_toFinset.mp (h.within hq), hqp⟩, hmatch⟩
  have hcard := Finset.card_erase_of_mem h.member
  have hlen := cfg.length_peers hids
  rw [hpeers] at hsub ⊢
  omega

/-- The leader and its majority commit the whole log, and all of them know. -/
theorem Team.settle (h : Team cfg S T log p s) (h2 : 2 ≤ cfg.ids.length)
    (hmaj : cfg.ids.length < 2 * S.card) (hterm : log.term log.lastIndex = some T) :
    ∃ t, Alone cfg S s t ∧ Team cfg S T log p t ∧ ∀ q ∈ S, log.lastIndex ≤ t.commitAt q := by
  have hmem : ∀ q ∈ (S.erase p).toList, q ∈ S ∧ q ≠ p := fun q hq =>
    (Finset.mem_erase.mp (Finset.mem_toList.mp hq)).symm
  have hin : ∀ q ∈ S, q ≠ p → q ∈ (S.erase p).toList := fun q hq hqp =>
    Finset.mem_toList.mpr (Finset.mem_erase.mpr ⟨hqp, hq⟩)
  -- a first time to be matched, a second time to tell
  obtain ⟨t, hst, ht, -, hmatched⟩ := h.catch_all hmem
  have hcommit := ht.committed h2 hmaj hterm fun q hq hqp => (hmatched q (hin q hq hqp)).1
  obtain ⟨u, htu, hu, hon, htold⟩ := ht.catch_all hmem
  refine ⟨u, hst.trans htu, hu, fun q hq => ?_⟩
  by_cases hqp : q = p
  · exact hqp ▸ hcommit.trans (hon.commit p)
  · have := (htold q (hin q hq hqp)).2
    omega

end KMC
