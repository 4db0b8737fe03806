import KillMyCluster.Raft.Cluster

/-! What a step can do, said once: a critical section on one server, or a change of one server
outside of its mutex; and what becomes of the RPCs. -/

namespace KMC

/-- In action `a` server `p`, whose process is `n`, runs a critical section with effect `e`, which
leads to `t`. -/
inductive Section (cfg : Config) (s : State) (n : Node) :
    Action → ℕ → Io → Effect → State → Prop
  | tick {p : ℕ} {io : Io} {e : Effect} : n.timeout io = some e →
      Section cfg s n (.tick p io) p io e (s.finish p io e)
  | stepDown {p : ℕ} {e : Effect} : n.resign = some e →
      Section cfg s n (.stepDown p) p {} e (s.finish p {} e)
  | deliver {k : ℕ} {recent : Bool} {io : Io} {r : Rpc} : s.rpcs[k]? = some r →
      Section cfg s n (.deliver k recent io) r.dst io (handle io recent n r.body).1
        ((s.finish r.dst io (handle io recent n r.body).1).answer k io
          (handle io recent n r.body).2)
  | respond {k j : ℕ} {io : Io} {r : Rpc} {resp : Response} {e : Effect} :
      s.rpcs[k]? = some r → r.resps[j]? = some resp → r.handled = false →
      (s.servers r.src).epoch = r.epoch → receive io n r.dst r.body resp = some e →
      Section cfg s n (.respond k j io) r.src io e ((s.markHandled k).finish r.src io e)
  | propose {p : ℕ} {batch : List Bytes} {io : Io} :
      Section cfg s n (.propose p batch io) p io (n.commitPropBatch io.fail batch).1
        (s.finish p io (n.commitPropBatch io.fail batch).1)
  | replicate {p q : ℕ} {e : Effect} : q ∈ cfg.peers p →
      n.replicateOnce (s.servers p).disk.snap q = some e →
      Section cfg s n (.replicate p q) p {} e (s.finish p {} e)
  | heartbeat {p q : ℕ} {e : Effect} : q ∈ cfg.peers p → n.heartbeatAck q = some e →
      Section cfg s n (.heartbeat p q) p {} e (s.finish p {} e)
  | lease {p : ℕ} : Section cfg s n (.lease p) p {} { node := n.renewLease }
        (s.finish p {} { node := n.renewLease })
  | snapshot {p index : ℕ} {data : Bytes} {io : Io} :
      Section cfg s n (.snapshot p index data io) p io (n.snapshot io.fail index data).1
        (s.finish p io (n.snapshot io.fail index data).1)

/-- Action `a` makes `srv` of server `p` without touching its disk. -/
inductive Change (cfg : Config) (s : State) : Action → ℕ → Server → Prop
  | applierTake {p : ℕ} {n n' : Node} {batch : List ApplyMsg} : s.node p = some n →
      n.applierTake = some (n', batch) → (s.servers p).batch = [] →
      Change cfg s (.applierTake p) p { s.servers p with proc := some n', batch := batch }
  | applierSend {p : ℕ} {n : Node} {m : ApplyMsg} {rest : List ApplyMsg} : s.node p = some n →
      (s.servers p).batch = m :: rest →
      Change cfg s (.applierSend p) p
        { s.servers p with proc := some n, batch := rest, sent := (s.servers p).sent ++ [m] }
  | crash {p : ℕ} {n : Node} : s.node p = some n →
      Change cfg s (.crash p) p ((s.servers p).die (s.servers p).disk)
  | restart {p : ℕ} : p ∈ cfg.ids → s.node p = none →
      Change cfg s (.restart p) p
        { proc := some (newNode p (cfg.peers p) (cfg.retain p) (openPersister (s.servers p).disk))
          disk := (s.servers p).disk, epoch := (s.servers p).epoch + 1, batch := [], sent := [] }
  | stop {p : ℕ} {n : Node} : s.node p = some n →
      Change cfg s (.stop p) p { s.servers p with proc := some { n with stopped := true } }

variable {cfg : Config} {s t : State} {a : Action} {p k : ℕ} {io : Io} {n : Node} {e : Effect}

theorem Section.io_eq (h : Section cfg s n a p io e t) : io = a.io := by
  cases h <;> rfl

theorem Change.disk {srv : Server} (h : Change cfg s a p srv) :
    srv.disk = (s.servers p).disk := by
  cases h <;> rfl

theorem step_cases (h : step cfg s a = some t) :
    (∃ p io n e, s.node p = some n ∧ Section cfg s n a p io e t) ∨
    ∃ p srv, Change cfg s a p srv ∧ t = s.setServer p srv := by
  cases a with
  | tick p io =>
    obtain ⟨n, e, hn, he, rfl⟩ := State.local_some h
    exact Or.inl ⟨p, io, n, e, hn, .tick he⟩
  | stepDown p =>
    obtain ⟨n, e, hn, he, rfl⟩ := State.local_some h
    exact Or.inl ⟨p, {}, n, e, hn, .stepDown he⟩
  | deliver k recent io =>
    simp only [step, Option.bind_eq_bind, Option.bind_eq_some_iff, Option.pure_def,
      Option.some.injEq] at h
    obtain ⟨r, hr, n, hn, rfl⟩ := h
    exact Or.inl ⟨r.dst, io, n, _, hn, .deliver hr⟩
  | respond k j io =>
    simp only [step, Option.bind_eq_bind, Option.bind_eq_some_iff] at h
    obtain ⟨r, hr, resp, hresp, h⟩ := h
    split at h
    · cases h
    rename_i hguard
    simp only [not_or, Bool.not_eq_true, ne_eq, not_not] at hguard
    obtain ⟨n, e, hn, he, rfl⟩ := State.local_some h
    exact Or.inl ⟨r.src, io, n, e, hn, .respond hr hresp hguard.1 hguard.2 he⟩
  | propose p batch io =>
    obtain ⟨n, e, hn, he, rfl⟩ := State.local_some h
    obtain rfl := Option.some.inj he
    exact Or.inl ⟨p, io, n, _, hn, .propose⟩
  | replicate p q =>
    simp only [step] at h
    split at h
    · rename_i hq
      obtain ⟨n, e, hn, he, rfl⟩ := State.local_some h
      exact Or.inl ⟨p, {}, n, e, hn, .replicate hq he⟩
    · cases h
  | heartbeat p q =>
    simp only [step] at h
    split at h
    · rename_i hq
      obtain ⟨n, e, hn, he, rfl⟩ := State.local_some h
      exact Or.inl ⟨p, {}, n, e, hn, .heartbeat hq he⟩
    · cases h
  | lease p =>
    obtain ⟨n, e, hn, he, rfl⟩ := State.local_some h
    obtain rfl := Option.some.inj he
    exact Or.inl ⟨p, {}, n, _, hn, .lease⟩
  | applierTake p =>
    simp only [step, Option.bind_eq_bind, Option.bind_eq_some_iff] at h
    obtain ⟨n, hn, ⟨n', batch⟩, htake, h⟩ := h
    simp only at h
    split at h
    · rename_i hb
      exact Or.inr ⟨p, _, .applierTake hn htake hb, (Option.some.inj h).symm⟩
    · cases h
  | applierSend p =>
    simp only [step, Option.bind_eq_bind, Option.bind_eq_some_iff] at h
    obtain ⟨n, hn, h⟩ := h
    split at h
    · cases h
    · rename_i hb
      exact Or.inr ⟨p, _, .applierSend hn hb, (Option.some.inj h).symm⟩
  | snapshot p index data io =>
    obtain ⟨n, e, hn, he, rfl⟩ := State.local_some h
    obtain rfl := Option.some.inj he
    exact Or.inl ⟨p, io, n, _, hn, .snapshot⟩
  | crash p =>
    simp only [step, Option.bind_eq_bind, Option.bind_eq_some_iff] at h
    obtain ⟨n, hn, h⟩ := h
    exact Or.inr ⟨p, _, .crash hn, (Option.some.inj h).symm⟩
  | restart p =>
    simp only [step] at h
    split at h
    · rename_i hp
      exact Or.inr ⟨p, _, .restart hp.1 (Option.isNone_iff_eq_none.mp hp.2),
        (Option.some.inj h).symm⟩
    · cases h
  | stop p =>
    simp only [step, Option.bind_eq_bind, Option.bind_eq_some_iff] at h
    obtain ⟨n, hn, h⟩ := h
    exact Or.inr ⟨p, _, .stop hn, (Option.some.inj h).symm⟩

/-! ## Servers -/

@[simp] theorem State.answer_servers (s : State) (k : ℕ) (io : Io) (resp : Response) :
    (s.answer k io resp).servers = s.servers := by
  unfold State.answer
  split <;> rfl

theorem State.finish_servers {s' : State} (h : s.servers = s'.servers) (p : ℕ) (io : Io)
    (e : Effect) : (s.finish p io e).servers = (s'.finish p io e).servers := by
  unfold State.finish
  rw [h]
  split
  · rfl
  · simp only [State.setServer, h]

theorem Section.servers (h : Section cfg s n a p io e t) :
    t.servers = (s.finish p io e).servers := by
  cases h with
  | deliver => exact State.answer_servers ..
  | respond => exact State.finish_servers (show (s.markHandled _).servers = s.servers from rfl) ..
  | _ => rfl

/-- Server `p` after a section: alive with what `e` says, or dead with some of its calls made. -/
theorem Section.server (h : Section cfg s n a p io e t) :
    (io.crash = none ∧ t.servers p = { s.servers p with
      proc := some e.node, disk := e.calls.foldl io.apply (s.servers p).disk }) ∨
    ∃ k r, io.crash = some (k, r) ∧ t.servers p = (s.servers p).die
      (((e.calls.drop k).head?).elim ((e.calls.take k).foldl io.apply (s.servers p).disk)
        (((e.calls.take k).foldl io.apply (s.servers p).disk).write r)) := by
  rw [h.servers]
  unfold State.finish
  cases hc : io.crash with
  | none => exact Or.inl ⟨rfl, by simp⟩
  | some kr => exact Or.inr ⟨kr.1, kr.2, rfl, by simp [State.setServer]⟩

theorem Section.other (h : Section cfg s n a p io e t) {q : ℕ} (hq : q ≠ p) :
    t.servers q = s.servers q := by
  rw [h.servers]
  unfold State.finish
  split <;> simp [State.setServer, hq]

/-- What is known of each server by itself, a step keeps if its section or change does. -/
theorem step_servers {I : ℕ → Server → Prop} (h : step cfg s a = some t)
    (hI : ∀ p, I p (s.servers p))
    (hlive : ∀ p io n e, s.node p = some n → Section cfg s n a p io e t → io.crash = none →
      I p { s.servers p with
        proc := some e.node, disk := e.calls.foldl io.apply (s.servers p).disk })
    (hdead : ∀ p io n e k r, s.node p = some n → Section cfg s n a p io e t →
      io.crash = some (k, r) → I p ((s.servers p).die
        (((e.calls.drop k).head?).elim ((e.calls.take k).foldl io.apply (s.servers p).disk)
          (((e.calls.take k).foldl io.apply (s.servers p).disk).write r))))
    (hchange : ∀ p srv, Change cfg s a p srv → I p srv) : ∀ p, I p (t.servers p) := by
  intro q
  rcases step_cases h with ⟨p, io, n, e, hn, hsec⟩ | ⟨p, srv, hch, rfl⟩
  · by_cases hq : q = p
    · subst hq
      rcases hsec.server with ⟨hc, hsrv⟩ | ⟨k, r, hc, hsrv⟩ <;> rw [hsrv]
      · exact hlive q io n e hn hsec hc
      · exact hdead q io n e k r hn hsec hc
    · rw [hsec.other hq]
      exact hI q
  · by_cases hq : q = p
    · subst hq
      simpa [State.setServer] using hchange q srv hch
    · simpa [State.setServer, hq] using hI q

theorem step_received {j : ℕ} {r : Rpc} {resp : Response}
    (h : step cfg s (.respond k j io) = some t) (hr : s.rpcs[k]? = some r)
    (hresp : r.resps[j]? = some resp) (hn : s.node r.src = some n) :
    ∃ e, receive io n r.dst r.body resp = some e ∧ ∀ n', t.node r.src = some n' → n' = e.node := by
  rcases step_cases h with ⟨p, io', m, e, hm, hsec⟩ | ⟨p, srv, hch, rfl⟩
  · have hserver := hsec.server
    cases hsec with
    | respond hr' hresp' _ _ he =>
      obtain rfl := Option.mem_unique hr hr'
      obtain rfl := Option.mem_unique hresp hresp'
      obtain rfl := Option.mem_unique hn hm
      refine ⟨e, he, fun n' hn' => ?_⟩
      rcases hserver with ⟨-, hsrv⟩ | ⟨_, _, -, hsrv⟩ <;> rw [State.node, hsrv] at hn'
      · exact (Option.some.inj hn').symm
      · cases hn'
  · cases hch

/-! ## Answers -/

def Response.term : Response → ℕ
  | .vote resp => resp.term
  | .append resp => resp.term
  | .install resp => resp.term

inductive Received (io : Io) (n : Node) (peer : ℕ) : Body → Response → Effect → Prop
  /-- The caller has moved on, or got a refusal that means nothing to it. -/
  | ignored {body : Body} {resp : Response} : Received io n peer body resp { node := n }
  | outvoted {body : Body} {resp : Response} : n.currentTerm < resp.term →
      Received io n peer body resp (n.becomeFollowerLocked resp.term)
  | polled {req : RequestVoteRequest} {resp : RequestVoteResponse} : n.role = .follower →
      resp.voteGranted = true → n.preVotes + 1 ≠ n.majority →
      Received io n peer (.preVote n.currentTerm n.preVoteRound req) (.vote resp)
        { node := { n with preVotes := n.preVotes + 1 } }
  | stands {req : RequestVoteRequest} {resp : RequestVoteResponse} : n.role = .follower →
      resp.voteGranted = true → n.preVotes + 1 = n.majority →
      Received io n peer (.preVote n.currentTerm n.preVoteRound req) (.vote resp)
        (Node.startElectionLocked io.fail { n with preVotes := n.preVotes + 1 })
  | voted {req : RequestVoteRequest} {resp : RequestVoteResponse} : n.role = .candidate →
      n.currentTerm = req.term → resp.voteGranted = true → n.votes + 1 ≠ n.majority →
      Received io n peer (.vote req) (.vote resp) { node := { n with votes := n.votes + 1 } }
  | wins {req : RequestVoteRequest} {resp : RequestVoteResponse} : n.role = .candidate →
      n.currentTerm = req.term → resp.voteGranted = true → n.votes + 1 = n.majority →
      Received io n peer (.vote req) (.vote resp)
        { node := Node.becomeLeaderLocked { n with votes := n.votes + 1 } }
  | acked {req : AppendEntriesRequest} {resp : AppendEntriesResponse} : n.role = .leader →
      n.currentTerm = req.term → resp.success = true →
      Received io n peer (.replicate req) (.append resp) { node :=
        (n.raiseMatch peer (req.prevLogIndex + req.entries.length)).maybeAdvanceCommitLocked }
  | refused {req : AppendEntriesRequest} {resp : AppendEntriesResponse} : n.role = .leader →
      n.currentTerm = req.term → resp.success = false →
      Received io n peer (.replicate req) (.append resp) { node :=
        { n with nextIndex := Function.update n.nextIndex peer (n.backUp peer resp) } }
  | installed {req : InstallSnapshotRequest} {resp : InstallSnapshotResponse} :
      n.role = .leader → n.currentTerm = req.term → resp.term ≤ n.currentTerm →
      Received io n peer (.snapshot req) (.install resp)
        { node := n.raiseMatch peer req.lastIncludedIndex }

theorem Node.onPreVoteResponse_received (io : Io) (n : Node) (peer term round : ℕ)
    (req : RequestVoteRequest) (resp : RequestVoteResponse) :
    Received io n peer (.preVote term round req) (.vote resp)
      (n.onPreVoteResponse io.fail term round resp) := by
  unfold onPreVoteResponse
  split
  · exact .ignored
  split
  · rename_i hlt
    exact .outvoted hlt
  split
  · exact .ignored
  rename_i hguard
  simp only [not_or, ne_eq, not_not, Bool.not_eq_false] at hguard
  obtain ⟨hrole, rfl, rfl, hg⟩ := hguard
  simp only
  split
  · rename_i hm
    exact .stands hrole hg hm
  · rename_i hm
    exact .polled hrole hg hm

theorem Node.onVoteResponse_received (io : Io) (n : Node) (peer : ℕ) (req : RequestVoteRequest)
    (resp : RequestVoteResponse) :
    Received io n peer (.vote req) (.vote resp) (n.onVoteResponse req.term resp) := by
  unfold onVoteResponse
  split
  · exact .ignored
  split
  · rename_i hlt
    exact .outvoted hlt
  split
  · exact .ignored
  rename_i hguard
  simp only [not_or, ne_eq, not_not, Bool.not_eq_false] at hguard
  obtain ⟨hrole, hterm, hg⟩ := hguard
  simp only
  split
  · rename_i hm
    exact .wins hrole hterm hg hm
  · rename_i hm
    exact .voted hrole hterm hg hm

theorem Node.onAppendResponse_received (io : Io) (n : Node) (peer : ℕ)
    (req : AppendEntriesRequest) (resp : AppendEntriesResponse) :
    Received io n peer (.replicate req) (.append resp) (n.onAppendResponse peer req resp) := by
  unfold onAppendResponse
  split
  · exact .ignored
  split
  · rename_i hlt
    exact .outvoted hlt
  split
  · exact .ignored
  rename_i hguard
  simp only [not_or, ne_eq, not_not] at hguard
  split
  · rename_i hok
    exact .acked hguard.1 hguard.2 hok
  · rename_i hno
    exact .refused hguard.1 hguard.2 (by simpa using hno)

theorem Node.onHeartbeatResponse_received (io : Io) (n : Node) (peer : ℕ)
    (req : AppendEntriesRequest) (resp : AppendEntriesResponse) :
    Received io n peer (.heartbeat req) (.append resp) (n.onHeartbeatResponse resp) := by
  unfold onHeartbeatResponse
  split
  · rename_i hlt
    exact .outvoted hlt
  · exact .ignored

theorem Node.onSnapshotResponse_received (io : Io) (n : Node) (peer : ℕ)
    (req : InstallSnapshotRequest) (resp : InstallSnapshotResponse) :
    Received io n peer (.snapshot req) (.install resp) (n.onSnapshotResponse peer req resp) := by
  unfold onSnapshotResponse
  split
  · exact .ignored
  split
  · rename_i hlt
    exact .outvoted hlt
  split
  · exact .ignored
  rename_i hterm hguard
  simp only [not_or, ne_eq, not_not] at hguard
  exact .installed hguard.1 hguard.2 (not_lt.mp hterm)

theorem receive_cases {peer : ℕ} {body : Body} {resp : Response}
    (h : receive io n peer body resp = some e) : Received io n peer body resp e := by
  unfold receive at h
  split at h
  · exact Option.some.inj h ▸ n.onPreVoteResponse_received ..
  · exact Option.some.inj h ▸ n.onVoteResponse_received ..
  · exact Option.some.inj h ▸ n.onAppendResponse_received ..
  · exact Option.some.inj h ▸ n.onHeartbeatResponse_received ..
  · exact Option.some.inj h ▸ n.onSnapshotResponse_received ..
  · cases h

/-! ## RPCs -/

/-- What stays of an RPC from one state to a later one. -/
structure Rpc.Same (r r' : Rpc) : Prop where
  src : r'.src = r.src
  dst : r'.dst = r.dst
  epoch : r'.epoch = r.epoch
  body : r'.body = r.body
  handled : r.handled = true → r'.handled = true

theorem Rpc.Same.refl (r : Rpc) : r.Same r := ⟨rfl, rfl, rfl, rfl, id⟩

theorem Rpc.Same.trans {r₁ r₂ r₃ : Rpc} (h : r₁.Same r₂) (h' : r₂.Same r₃) : r₁.Same r₃ :=
  ⟨h'.src.trans h.src, h'.dst.trans h.dst, h'.epoch.trans h.epoch, h'.body.trans h.body,
    fun hh => h'.handled (h.handled hh)⟩

/-- RPC `k` after a step was there before, with the answer of a delivery added at most, or it is
one that the section sent. -/
inductive Section.Origin (s : State) (a : Action) (p : ℕ) (io : Io) (e : Effect) (k : ℕ)
    (r' : Rpc) :
    Prop
  | old (r : Rpc) : s.rpcs[k]? = some r → r.Same r' → r'.resps = r.resps → Origin s a p io e k r'
  | answered (r : Rpc) (recent : Bool) (n : Node) : s.rpcs[k]? = some r → r.Same r' →
      a = .deliver k recent io → io.crash = none → s.node r.dst = some n →
      r'.resps = r.resps ++ [(handle io recent n r.body).2] → Origin s a p io e k r'
  | sent (q : ℕ) (body : Body) : s.rpcs.length ≤ k → (q, body) ∈ e.sends → io.crash = none →
      r' = { src := p, dst := q, epoch := (s.servers p).epoch, body := body } →
      Origin s a p io e k r'

theorem State.finish_rpcs {r' : Rpc} (hr : (s.finish p io e).rpcs[k]? = some r') :
    s.rpcs[k]? = some r' ∨ s.rpcs.length ≤ k ∧ io.crash = none ∧ ∃ q body, (q, body) ∈ e.sends ∧
      r' = { src := p, dst := q, epoch := (s.servers p).epoch, body := body } := by
  unfold State.finish at hr
  split at hr
  · rename_i hc
    rcases getElem_append_rpcs hr with hr | ⟨hle, q, body, hb, rfl⟩
    · exact Or.inl hr
    · exact Or.inr ⟨hle, hc, q, body, List.mem_of_getElem? hb, rfl⟩
  · exact Or.inl hr

theorem Section.origin (h : Section cfg s n a p io e t) (hn : s.node p = some n) {r' : Rpc}
    (hr : t.rpcs[k]? = some r') : Section.Origin s a p io e k r' := by
  have hown : ∀ {e : Effect}, (s.finish p io e).rpcs[k]? = some r' →
      Section.Origin s a p io e k r' := by
    intro e hr
    rcases State.finish_rpcs hr with hr | ⟨hle, hc, q, body, hb, rfl⟩
    · exact .old r' hr (.refl r') rfl
    · exact .sent q body hle hb hc rfl
  cases h with
  | @deliver j recent _ r hj =>
    unfold State.answer at hr
    split at hr
    · rename_i hc
      obtain ⟨r₁, hr₁, rfl⟩ := getElem_modify_rpcs hr
      by_cases hjk : j = k
      · subst hjk
        simp only [if_true]
        rcases State.finish_rpcs hr₁ with hr₁ | ⟨hle, -⟩
        · obtain rfl := Option.mem_unique hj hr₁
          exact .answered r recent n hr₁ ⟨rfl, rfl, rfl, rfl, id⟩ rfl hc hn rfl
        · exact absurd (List.getElem?_eq_some_iff.mp hj).1 (by omega)
      · rw [if_neg hjk]
        rcases State.finish_rpcs hr₁ with hr₁ | ⟨hle, hc, q, body, hb, rfl⟩
        · exact .old r₁ hr₁ (.refl r₁) rfl
        · exact .sent q body hle hb hc rfl
    · exact hown hr
  | @respond j i _ r resp _ hj hresp hh hep he =>
    rcases State.finish_rpcs hr with hr | ⟨hle, hc, q, body, hb, rfl⟩
    · obtain ⟨r₁, hr₁, rfl⟩ := getElem_modify_rpcs hr
      refine .old r₁ hr₁ ?_ ?_ <;> split
      · exact ⟨rfl, rfl, rfl, rfl, fun _ => rfl⟩
      · exact .refl r₁
      · rfl
      · rfl
    · exact .sent q body (by simpa [State.markHandled] using hle) hb hc rfl
  | _ => exact hown hr

/-- What is known of every RPC's request, a step keeps if it holds of what the section sends. -/
theorem step_bodies {I : Body → Prop} (h : step cfg s a = some t)
    (hI : ∀ (k : ℕ) (r : Rpc), s.rpcs[k]? = some r → I r.body)
    (hsend : ∀ p io n e, s.node p = some n → Section cfg s n a p io e t →
      ∀ q body, (q, body) ∈ e.sends → I body) :
    ∀ (k : ℕ) (r : Rpc), t.rpcs[k]? = some r → I r.body := by
  intro k r hr
  rcases step_cases h with ⟨p, io, n, e, hn, hsec⟩ | ⟨p, srv, -, rfl⟩
  · cases hsec.origin hn hr with
    | old r₀ hr₀ hsame _ => exact hsame.body ▸ hI k r₀ hr₀
    | answered r₀ _ _ hr₀ hsame _ _ _ _ => exact hsame.body ▸ hI k r₀ hr₀
    | sent q body _ hm _ hr' => exact hr' ▸ hsend p io n e hn hsec q body hm
  · exact hI k r hr

theorem State.finish_length (s : State) (p : ℕ) (io : Io) (e : Effect) :
    s.rpcs.length ≤ (s.finish p io e).rpcs.length := by
  unfold State.finish
  split
  · simp
  · exact le_rfl

theorem step_length (h : step cfg s a = some t) : s.rpcs.length ≤ t.rpcs.length := by
  rcases step_cases h with ⟨p, io, n, e, -, hsec⟩ | ⟨p, srv, -, rfl⟩
  · cases hsec with
    | deliver _ =>
      unfold State.answer
      split
      · simpa using s.finish_length ..
      · exact s.finish_length ..
    | respond _ _ _ _ _ =>
      refine le_trans ?_ ((s.markHandled _).finish_length _ io e)
      simp [State.markHandled]
    | _ => exact s.finish_length ..
  · exact le_rfl

def State.RpcsKept (s t : State) : Prop :=
  ∀ (k : ℕ) (r : Rpc), s.rpcs[k]? = some r → ∃ r', t.rpcs[k]? = some r' ∧ r.Same r'

theorem step_rpcs (h : step cfg s a = some t) : s.RpcsKept t := by
  intro k r hr
  have hk := (List.getElem?_eq_some_iff.mp hr).1
  have hr' := List.getElem?_eq_getElem (hk.trans_le (step_length h))
  refine ⟨_, hr', ?_⟩
  rcases step_cases h with ⟨p, io, n, e, hn, hsec⟩ | ⟨p, srv, -, rfl⟩
  · cases hsec.origin hn hr' with
    | old r₀ hr₀ hsame _ =>
      obtain rfl := Option.mem_unique hr hr₀
      exact hsame
    | answered r₀ _ _ hr₀ hsame _ _ _ _ =>
      obtain rfl := Option.mem_unique hr hr₀
      exact hsame
    | sent q body hle _ _ _ => omega
  · rw [← Option.mem_unique hr hr']
    exact .refl r

/-! ## Effects -/

/-- The process an action runs in, and what it does there. -/
def Action.effect (s : State) : Action → Option (ℕ × Effect)
  | .tick p io => do
    let e ← (← s.node p).timeout io
    return (p, e)
  | .stepDown p => do
    let e ← (← s.node p).resign
    return (p, e)
  | .deliver k recent io => do
    let r ← s.rpcs[k]?
    return (r.dst, (handle io recent (← s.node r.dst) r.body).1)
  | .respond k j io => do
    let r ← s.rpcs[k]?
    let e ← receive io (← s.node r.src) r.dst r.body (← r.resps[j]?)
    return (r.src, e)
  | .propose p batch io => do
    return (p, ((← s.node p).commitPropBatch io.fail batch).1)
  | .replicate p q => do
    let e ← (← s.node p).replicateOnce (s.servers p).disk.snap q
    return (p, e)
  | .heartbeat p q => do
    let e ← (← s.node p).heartbeatAck q
    return (p, e)
  | .lease p => do
    return (p, { node := (← s.node p).renewLease })
  | .snapshot p index data io => do
    return (p, ((← s.node p).snapshot io.fail index data).1)
  | .applierTake _ | .applierSend _ | .crash _ | .restart _ | .stop _ => none

theorem Section.effect_eq (h : Section cfg s n a p io e t) (hn : s.node p = some n) :
    a.effect s = some (p, e) := by
  cases h with
  | tick he => simp [Action.effect, hn, he]
  | stepDown he => simp [Action.effect, hn, he]
  | deliver hr => simp [Action.effect, hr, hn]
  | respond hr hresp _ _ he => simp [Action.effect, hr, hn, hresp, he]
  | replicate _ he => simp [Action.effect, hn, he]
  | heartbeat _ he => simp [Action.effect, hn, he]
  | _ => simp [Action.effect, hn]

theorem Change.effect_eq {srv : Server} (h : Change cfg s a p srv) : a.effect s = none := by
  cases h <;> rfl

end KMC
