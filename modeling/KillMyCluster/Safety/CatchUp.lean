import KillMyCluster.Durable.Shippable
import KillMyCluster.Safety.Books
import KillMyCluster.Safety.Hints

/-! Catching up. A leader's replicator goes through passes of `replicateOnce` without a pause as
long as they ask for another. Refusals lower `nextIndex` until an AppendEntries or the one snapshot
gets through; from then on nothing is refused, because the follower keeps what it has committed or
acknowledged. Between the steps of the replicator anything may happen elsewhere. -/

namespace KMC

open LeaderLog Trace

/-- Node `p` leads term `T` with the log `log` and goes on with `q` at `next`; `q` is up and knows
of no later term. -/
structure Serves (T : ℕ) (log : RaftLog) (p q next : ℕ) (s : State) : Prop where
  leader : ∃ n, s.node p = some n ∧ n.leads T = true ∧ n.log = log ∧ n.nextIndex q = next
  follower : ∃ m, s.node q = some m ∧ m.stopped = false ∧ m.currentTerm ≤ T

def Meanwhile (cfg : Config) (T : ℕ) (log : RaftLog) (p q next : ℕ) : State → State → Prop :=
  Reaches (step cfg) fun s a => a.Reliable ∧ ∀ t, step cfg s a = some t → Serves T log p q next t

/-- A pass of `replicateOnce`: `nextIndex` before, what was sent, what came back, `nextIndex`
after. -/
structure Round where
  next : ℕ
  body : Body
  resp : Response
  next' : ℕ

def Round.rejected (rd : Round) : Bool :=
  match rd.body, rd.resp with
  | .replicate _, .append resp => !resp.success
  | _, _ => false

def Round.shipped (rd : Round) : Bool :=
  match rd.body with
  | .snapshot _ => true
  | _ => false

/-- Whether `replicateOnce` asks for another pass, the log ending at `last`. -/
def Round.again (rd : Round) (last : ℕ) : Bool :=
  match rd.body, rd.resp with
  | .replicate _, .append resp => !resp.success || decide (rd.next' ≤ last)
  | .snapshot _, .install _ => true
  | _, _ => false

section Chains

variable (cfg : Config) (T : ℕ) (log : RaftLog) (p q : ℕ)

inductive Pass (s t : State) (rd : Round) : Prop
  | mk {s₁ s₂ : State} {r₀ r : Rpc} {j : ℕ} {io : Io} : Serves T log p q rd.next s →
      step cfg s (.replicate p q) = some s₁ → s₁.rpcs[s.rpcs.length]? = some r₀ →
      Meanwhile cfg T log p q rd.next s₁ s₂ →
      s₂.rpcs[s.rpcs.length]? = some r → r.body = rd.body → r.resps[j]? = some rd.resp →
      (io.fault = fun _ => none) → step cfg s₂ (.respond s.rpcs.length j io) = some t →
      Serves T log p q rd.next' t → Pass s t rd

inductive Chain (s : State) : List Round → Bool → State → Prop
  | nil : Chain s [] true s
  | snoc {rds : List Round} {rd : Round} {t u v : State} : Chain s rds true t →
      Serves T log p q rd.next t → Meanwhile cfg T log p q rd.next t u → Pass cfg T log p q u v rd →
      Chain s (rds ++ [rd]) (rd.again log.lastIndex) v

end Chains

def State.setNext (s : State) (p q i : ℕ) : State :=
  { s with servers := Function.update s.servers p { s.servers p with
      proc := (s.servers p).proc.map fun n =>
        { n with nextIndex := Function.update n.nextIndex q i } } }

/-- The logs agree up to `i`, wherever both hold something. Of a sentinel only the term is held. -/
def RaftLog.AgreesTo (l l' : RaftLog) (i : ℕ) : Prop :=
  i ≤ l'.lastIndex ∧ ∀ j ≤ i, l.firstIndex ≤ j → l'.firstIndex ≤ j →
    l.term j = l'.term j ∧ (l.firstIndex < j → l'.firstIndex < j → l.entry j = l'.entry j)

variable {cfg : Config} {T : ℕ} {log : RaftLog} {p q next next' ci : ℕ} {g g' : Ghost} {s t : State}
  {a : Action} {n m : Node} {r : Rpc} {resp : Response} {rd : Round}

/-! ## States of a chain -/

structure Chasing (cfg : Config) (T : ℕ) (log : RaftLog) (p q next : ℕ) (g : Ghost) (s : State) :
    Prop where
  peer : q ∈ cfg.peers p
  sim : cfg.plain.Sim g s
  ships : ∀ p n, s.node p = some n → n.Shippable (s.servers p).disk.snap
  serves : Serves T log p q next s

theorem Action.Reliable.shipping (h : a.Reliable) (s : State) : a.Shipping s := by
  cases a with
  | deliver _ _ io => exact fun _ _ _ _ => by simp [Io.fail, show io.fault = fun _ => none from h]
  | snapshot _ _ _ io =>
    exact fun _ _ => .inr fun _ _ _ _ k hk => by simp [show io.fault = fun _ => none from h] at hk
  | _ => trivial

theorem Chasing.advance (h : Chasing cfg T log p q next g s) (ha : a.Reliable)
    (hs : step cfg s a = some t) (ht : Serves T log p q next' t) :
    ∃ g', Later g g' s t ∧ Chasing cfg T log p q next' g' t := by
  obtain ⟨g', hl, hsim⟩ := h.sim.step (K := cfg.plain)
    ⟨ha, False.elim, False.elim, False.elim⟩ hs
  exact ⟨g', hl, h.peer, hsim, step_shippable hs (ha.shipping s) h.ships, ht⟩

/-- What the leader's memory and the abstract log have in common. -/
theorem Chasing.leads (h : Chasing cfg T log p q next g s) :
    ∃ n, s.node p = some n ∧ n.stopped = false ∧ n.role = .leader ∧ n.currentTerm = T ∧
      n.log = log ∧ n.nextIndex q = next ∧ g.leader T = some p ∧ LogRel log (g.tlog T) ∧
      next ≤ log.lastIndex + 1 := by
  obtain ⟨n, hn, hld, rfl, rfl⟩ := h.serves.leader
  obtain ⟨hst, hr, rfl⟩ := Node.leads_iff.mp hld
  have hup := h.sim.rel.up p n hn
  have hl := hup.lead hr
  exact ⟨n, hn, hst, hr, rfl, rfl, rfl, hl.leader, hl.tlog ▸ hup.core.log,
    hl.next q (hup.peers ▸ h.peer)⟩

theorem Chasing.led (h : Chasing cfg T log p q next g s) : g.leader T ≠ none := by
  obtain ⟨_, _, _, _, _, _, _, hl, -⟩ := h.leads
  simp [hl]

theorem Caught.mono {i : ℕ} (h : Caught g T q m i) (hg : Grew g g') {m' : Node}
    (hm : m.commitIndex ≤ m'.commitIndex) : Caught g' T q m' i :=
  h.imp (·.trans hm) (·.trans (hg.ack T q))

/-! ## A request under way -/

inductive Sent (T : ℕ) (log : RaftLog) (next : ℕ) : Body → Prop
  | append {req : AppendEntriesRequest} : log.firstIndex < next → req.term = T →
      req.prevLogIndex + 1 = next →
      req.entries.length = min maxAppendEntries (log.lastIndex + 1 - next) →
      Sent T log next (.replicate req)
  | snapshot {req : InstallSnapshotRequest} : next ≤ log.firstIndex → req.term = T →
      log.firstIndex ≤ req.lastIncludedIndex → Sent T log next (.snapshot req)

/-- What is known of a response: refusals come only from a follower that has not caught up, and a
snapshot that was answered is in. -/
def Replied (T : ℕ) (log : RaftLog) (closing : Prop) (commit : ℕ) : Body → Response → Prop
  | .replicate req, .append resp => resp.term = T ∧
      (resp.success = false → ¬ closing ∧ resp.Lowers log req.prevLogIndex)
  | .snapshot req, .install resp => resp.term = T ∧ req.lastIncludedIndex ≤ commit
  | _, _ => False

structure Awaits (cfg : Config) (T : ℕ) (log : RaftLog) (p q next k : ℕ) (body : Body)
    (closing : Prop) (g : Ghost) (s : State) : Prop where
  chase : Chasing cfg T log p q next g s
  caught : closing → ∀ m, s.node q = some m → Caught g T q m (next - 1)
  rpc : ∃ r, s.rpcs[k]? = some r ∧ r.src = p ∧ r.dst = q ∧ r.body = body ∧
    ∀ resp ∈ r.resps, ∀ m, s.node q = some m → Replied T log closing m.commitIndex body resp

variable {k : ℕ} {body : Body} {closing : Prop}

theorem Replied.mono {ci' : ℕ} (hci : ci ≤ ci') (h : Replied T log closing ci body resp) :
    Replied T log closing ci' body resp := by
  cases body <;> cases resp <;> first | exact h | exact ⟨h.1, h.2.trans hci⟩

/-- The answer of the follower. -/
theorem Chasing.answered (h : Chasing cfg T log p q next g s) (hsent : Sent T log next body)
    (hr : s.rpcs[k]? = some r) (hsrc : r.src = p) (hb : r.body = body) (hm : s.node q = some m)
    (hc : closing → Caught g T q m (next - 1)) {io : Io} (hio : io.fault = fun _ => none)
    (recent : Bool) : Replied T log closing (handle io recent m body).1.node.commitIndex body
      (handle io recent m body).2 := by
  obtain ⟨m', hm', hst, hT⟩ := h.serves.follower
  obtain rfl := Option.mem_unique hm hm'
  have hup := h.sim.rel.up q m hm
  have hbody := (h.sim.rel.rpc k r hr).body
  rw [hb, hsrc] at hbody
  obtain ⟨_, _, _, _, _, _, _, _, hlog, _⟩ := h.leads
  cases hsent with
  | @append req _ hterm hprev _ =>
    obtain ⟨h1, h2⟩ := Node.handleAppendEntries_reply req hup.core.log.wf hst (hterm ▸ hT)
    simp only [handle, Io.fail_reliable hio, Replied]
    refine ⟨h1.trans hterm, fun hs => ?_⟩
    obtain ⟨h3, h4⟩ := hup.refusal h.sim.rel.inv hbody (hterm ▸ hT) (h2 hs)
    rw [hterm, show req.prevLogIndex = next - 1 by omega] at h3
    exact ⟨fun hcl => h3 (hc hcl), h4 (hterm ▸ hlog)⟩
  | @snapshot req _ hterm _ =>
    obtain ⟨h1, h2⟩ := Node.handleInstallSnapshot_reply req hst (hterm ▸ hT)
    simp only [handle, Io.fail_reliable hio, Replied]
    exact ⟨h1.trans hterm, h2⟩

theorem Awaits.advance (h : Awaits cfg T log p q next k body closing g s)
    (hsent : Sent T log next body) (ha : a.Reliable) (hs : step cfg s a = some t)
    (ht : Serves T log p q next t) : ∃ g', Awaits cfg T log p q next k body closing g' t := by
  obtain ⟨g', hl, hchase⟩ := h.chase.advance ha hs ht
  obtain ⟨m, hm, -⟩ := h.chase.serves.follower
  obtain ⟨r, hr, hsrc, rfl, hb, hresps⟩ := h.rpc
  obtain ⟨r', hr', hsame⟩ := step_rpcs hs k r hr
  refine ⟨g', hchase, fun hcl m' hm' => ?_, r', hr', hsame.src.trans hsrc, hsame.dst,
    hsame.body.trans hb, fun resp hresp m' hm' => ?_⟩
  · exact (h.caught hcl m hm).mono hl.grew (step_commit_le hs hm hm')
  have hold : resp ∈ r.resps → Replied T log closing m'.commitIndex body resp := fun hmem =>
    (hresps resp hmem m hm).mono (step_commit_le hs hm hm')
  rcases step_cases hs with ⟨u, io, n, e, hn, hsec⟩ | ⟨u, srv, -, rfl⟩
  · cases hsec.origin hn hr' with
    | old r₀ hr₀ _ heq =>
      obtain rfl := Option.mem_unique hr hr₀
      exact hold (heq ▸ hresp)
    | sent _ _ hle _ _ _ =>
      have := (List.getElem?_eq_some_iff.mp hr).1
      omega
    | answered r₀ recent n' hr₀ _ hact hcr hn' heq =>
      obtain rfl := Option.mem_unique hr hr₀
      obtain rfl := Option.mem_unique hm hn'
      rw [heq, List.mem_append, List.mem_singleton] at hresp
      rcases hresp with hresp | rfl
      · exact hold hresp
      · have hio : io.fault = fun _ => none := by
          rw [hsec.io_eq]
          exact ha
        have hsrv := hsec.server.resolve_right fun ⟨_, _, hc, _⟩ => by simp [hcr] at hc
        subst hact
        cases hsec with
        | @deliver _ _ _ r₁ hr₁ =>
          obtain rfl := Option.mem_unique hr hr₁
          obtain rfl := Option.mem_unique hm hn
          rw [State.node, hsrv.2] at hm'
          rw [← Option.some.inj hm', hb]
          exact h.chase.answered hsent hr hsrc hb hm (fun hcl => h.caught hcl m hm) hio recent
  · obtain rfl := Option.mem_unique hr hr'
    exact hold hresp

theorem Awaits.meanwhile (h : Awaits cfg T log p q next k body closing g s)
    (hsent : Sent T log next body) (hm : Meanwhile cfg T log p q next s t) :
    ∃ g', Awaits cfg T log p q next k body closing g' t :=
  hm.invariant (I := fun u => ∃ g, Awaits cfg T log p q next k body closing g u)
    (fun _ _ _ ⟨_, hu⟩ ha hs => hu.advance hsent ha.1 hs (ha.2 _ hs)) ⟨g, h⟩

theorem Chasing.meanwhile (h : Chasing cfg T log p q next g s)
    (hm : Meanwhile cfg T log p q next s t) :
    ∃ g', Later g g' s t ∧ Chasing cfg T log p q next g' t ∧ ∀ m m', s.node q = some m →
      t.node q = some m' → m.commitIndex ≤ m'.commitIndex := by
  refine hm.invariant (I := fun u => ∃ g', Later g g' s u ∧ Chasing cfg T log p q next g' u ∧
    ∀ m m', s.node q = some m → u.node q = some m' → m.commitIndex ≤ m'.commitIndex) ?_
    ⟨g, ⟨Grows.refl g, fun _ => le_rfl⟩, h, fun m m' hm hm' => ?_⟩
  · rintro u a v ⟨g₁, hl₁, hu, hci⟩ ha hs
    obtain ⟨g₂, hl₂, hv⟩ := hu.advance ha.1 hs (ha.2 v hs)
    refine ⟨g₂, ⟨hl₁.grew.trans hl₂.grew, fun x => (hl₁.floor x).trans (hl₂.floor x)⟩, hv,
      fun m m' hm hm' => ?_⟩
    obtain ⟨m₁, hm₁, -⟩ := hu.serves.follower
    exact (hci m m₁ hm hm₁).trans (step_commit_le hs hm₁ hm')
  · obtain rfl := Option.mem_unique hm hm'
    exact le_rfl

/-! ## One pass -/

/-- What a pass sends, and that it does send. -/
theorem Chasing.sends (h : Chasing cfg T log p q next g s) (h1 : 1 ≤ next) :
    ∃ s₁ body, step cfg s (.replicate p q) = some s₁ ∧ Sent T log next body ∧
      s₁.rpcs[s.rpcs.length]? = some
        { src := p, dst := q, epoch := (s.servers p).epoch, body := body } ∧
      Serves T log p q next s₁ ∧ s₁.node q = s.node q := by
  obtain ⟨n, hn, hst, hrole, hterm, hlog, hnext, -, hrel, hle⟩ := h.leads
  have hqp : q ≠ p := (Config.mem_peers.mp h.peer).2
  have hcov := (h.ships p n hn).covers
  have hsend : ∀ (m : Node) (body : Body), n.replicateOnce (s.servers p).disk.snap q =
      some { node := m, sends := [(q, body)] } → m.stopped = n.stopped → m.role = n.role →
      m.currentTerm = n.currentTerm → m.log = n.log → m.nextIndex = n.nextIndex →
      Sent T log next body → ∃ s₁ body, step cfg s (.replicate p q) = some s₁ ∧
        Sent T log next body ∧ s₁.rpcs[s.rpcs.length]? = some
          { src := p, dst := q, epoch := (s.servers p).epoch, body := body } ∧
        Serves T log p q next s₁ ∧ s₁.node q = s.node q := by
    intro m body he h2 h3 h4 h5 h6 hsent
    refine ⟨s.finish p {} { node := m, sends := [(q, body)] }, body, ?_, hsent, ?_, ⟨⟨m, ?_, ?_,
      h5.trans hlog, (congrFun h6 q).trans hnext⟩, ?_⟩, ?_⟩
    · simp [step, h.peer, State.local, hn, he]
    · simp [State.finish, rpcsOf]
    · simp [State.finish, State.node]
    · simp [Node.leads, h2, hst, h3, hrole, h4, hterm]
    · simpa [State.finish, State.node, hqp] using h.serves.follower
    · simp [State.finish, State.node, hqp]
  by_cases hf : next ≤ log.firstIndex
  · obtain ⟨snap, hsnap⟩ : ∃ snap, n.shipped (s.servers p).disk.snap = snap := ⟨_, rfl⟩
    rw [hlog, hsnap] at hcov
    refine hsend { n with snapCache := snap }
      (.snapshot ⟨n.currentTerm, n.id, snap.index, snap.term, snap.data⟩) ?_ rfl rfl rfl rfl rfl
      (.snapshot hf hterm hcov)
    unfold Node.replicateOnce Node.sendSnapshotLocked
    rw [Node.shipped] at hsnap
    simp only [hst, hrole, hnext, hlog, hf, hsnap, ne_eq, not_true_eq_false, or_self, if_false,
      if_true, Bool.false_eq_true, show ¬ snap.index = 0 by omega]
  · refine hsend n (.replicate (n.appendRequest next ((n.log.suffix next).take maxAppendEntries)))
      ?_ rfl rfl rfl rfl rfl (.append (not_le.mp hf) hterm ?_ ?_)
    · unfold Node.replicateOnce
      simp [hst, hrole, hnext, hlog, hf]
    · simp only [Node.appendRequest]
      omega
    · have hlast := hrel.wf.lastIndex
      simp only [Node.appendRequest, hlog, List.length_take]
      rw [hrel.wf.suffix (not_le.mp hf), List.length_drop]
      omega

theorem Chasing.awaits (h : Chasing cfg T log p q next g s) (h1 : 1 ≤ next)
    (hc : closing → ∀ m, s.node q = some m → Caught g T q m (next - 1)) {s₁ : State}
    (hs : step cfg s (.replicate p q) = some s₁) :
    ∃ g' body, Sent T log next body ∧
      Awaits cfg T log p q next s.rpcs.length body closing g' s₁ := by
  obtain ⟨s₁', body, hs', hsent, hr, hsv, hq⟩ := h.sends h1
  obtain rfl := Option.mem_unique hs hs'
  obtain ⟨g', hl, hchase⟩ := h.advance (show Action.Reliable (.replicate p q) from rfl) hs hsv
  refine ⟨g', body, hsent, hchase, fun hcl m hm => ?_, _, hr, rfl, rfl, rfl, by simp⟩
  exact (hc hcl m (hq ▸ hm)).mono hl.grew le_rfl

inductive Fares (T : ℕ) (log : RaftLog) (p q : ℕ) (closing : Prop) (g : Ghost) (t : State)
    (rd : Round) : Prop
  | rejected : rd.rejected = true → rd.shipped = false → rd.again log.lastIndex = true →
      ¬ closing → 1 ≤ rd.next' → rd.next' < rd.next → Fares T log p q closing g t rd
  | accepted : rd.rejected = false → rd.shipped = false →
      rd.again log.lastIndex = decide (rd.next' ≤ log.lastIndex) → log.firstIndex < rd.next →
      rd.next' = rd.next + min maxAppendEntries (log.lastIndex + 1 - rd.next) →
      (∀ m, t.node q = some m → Caught g T q m (rd.next' - 1)) →
      (∀ n, t.node p = some n → rd.next' - 1 ≤ n.matchIndex q) → Fares T log p q closing g t rd
  | shipped : rd.rejected = false → rd.shipped = true → rd.again log.lastIndex = true →
      rd.next ≤ log.firstIndex → log.firstIndex < rd.next' →
      (∀ m, t.node q = some m → Caught g T q m (rd.next' - 1)) → Fares T log p q closing g t rd

theorem Fares.of_append {req : AppendEntriesRequest} {resp : AppendEntriesResponse}
    (hld : n.leads T = true) (hlog : n.log = log) (hnext : n.nextIndex q = next)
    (hsent : Sent T log next (.replicate req))
    (hans : Replied T log closing ci (.replicate req) (.append resp))
    (hafter : (n.onAppendResponse q req resp).node.nextIndex q = next')
    (hleader : ∀ n', t.node p = some n' → n' = (n.onAppendResponse q req resp).node)
    (hcaught : resp.success = true → ∀ m, t.node q = some m →
      Caught g T q m (req.prevLogIndex + req.entries.length)) :
    Fares T log p q closing g t ⟨next, .replicate req, .append resp, next'⟩ := by
  obtain ⟨hterm, hno⟩ := hans
  cases hsent with
  | append hf hreq hprev hlen =>
    subst hreq
    rw [Node.onAppendResponse_leads hld hterm.le] at hafter hleader
    cases hsucc : resp.success with
    | true =>
      rw [if_pos hsucc] at hafter hleader
      obtain ⟨ci, hci⟩ := Node.maybeAdvanceCommit_node
        (n.raiseMatch q (req.prevLogIndex + req.entries.length))
      rw [hci] at hafter hleader
      simp only [Node.raiseMatch, Function.update_self, hnext] at hafter
      have hend : next' - 1 = req.prevLogIndex + req.entries.length := by omega
      refine .accepted (by simp [Round.rejected, hsucc]) rfl (by simp [Round.again, hsucc]) hf
        (by simp only; omega) (hend ▸ hcaught hsucc) fun n' hn' => ?_
      rw [hleader n' hn']
      simp only [Node.raiseMatch, Function.update_self]
      omega
    | false =>
      obtain ⟨h1, h2⟩ := hno hsucc
      rw [if_neg (by simp [hsucc])] at hafter
      simp only [Function.update_self] at hafter
      have hle := (hlog ▸ h2).backUp_le q
      have hge : 1 ≤ n.backUp q resp := by
        unfold Node.backUp
        exact le_max_right _ _
      exact .rejected (by simp [Round.rejected, hsucc]) rfl (by simp [Round.again, hsucc]) h1
        (by simp only; omega) (by simp only; omega)

theorem Fares.of_install {req : InstallSnapshotRequest} {resp : InstallSnapshotResponse}
    (hld : n.leads T = true) (hnext : n.nextIndex q = next)
    (hsent : Sent T log next (.snapshot req))
    (hans : Replied T log closing ci (.snapshot req) (.install resp))
    (hafter : (n.onSnapshotResponse q req resp).node.nextIndex q = next')
    (hcaught : ∀ i ≤ ci, ∀ m, t.node q = some m → Caught g T q m i) :
    Fares T log p q closing g t ⟨next, .snapshot req, .install resp, next'⟩ := by
  obtain ⟨hterm, hci⟩ := hans
  cases hsent with
  | snapshot hf hreq hfirst =>
    subst hreq
    rw [Node.onSnapshotResponse_leads hld hterm.le] at hafter
    simp only [Node.raiseMatch, Function.update_self, hnext] at hafter
    refine .shipped rfl rfl rfl hf (by simp only; omega) (hcaught _ ?_)
    simp only
    omega

theorem Awaits.handled {j : ℕ} {io : Io} (h : Awaits cfg T log p q next k body closing g s)
    (hsent : Sent T log next body) (hr : s.rpcs[k]? = some r) (hresp : r.resps[j]? = some resp)
    (hio : io.fault = fun _ => none) (hs : step cfg s (.respond k j io) = some t)
    (ht : Serves T log p q next' t) : ∃ g', Chasing cfg T log p q next' g' t ∧
      Fares T log p q closing g' t ⟨next, body, resp, next'⟩ := by
  obtain ⟨g', hl, hchase⟩ := h.chase.advance (show Action.Reliable (.respond k j io) from hio) hs ht
  refine ⟨g', hchase, ?_⟩
  obtain ⟨r', hr', rfl, rfl, rfl, hresps⟩ := h.rpc
  obtain rfl := Option.mem_unique hr hr'
  obtain ⟨m, hm, -⟩ := h.chase.serves.follower
  have hans := hresps resp (List.mem_of_getElem? hresp) m hm
  obtain ⟨n, hn, hld, hlog, hnext⟩ := h.chase.serves.leader
  have hup := h.chase.sim.rel.up _ m hm
  -- the leader after the step is what `receive` made of it
  obtain ⟨e, he, hnode⟩ := step_received hs hr hresp hn
  have hafter : e.node.nextIndex r.dst = next' := by
    obtain ⟨n', hn', -, -, hnx⟩ := ht.leader
    rw [← hnode n' hn']
    exact hnx
  have hcatch : ∀ {i : ℕ}, Caught g T r.dst m i → ∀ m', t.node r.dst = some m' →
      Caught g' T r.dst m' i :=
    fun hc m' hm' => hc.mono hl.grew (step_commit_le hs hm hm')
  generalize hb : r.body = body at hsent hans he
  cases hsent with
  | @append req hf hreq hprev hlen =>
    cases resp with
    | append ra =>
      obtain rfl := Option.some.inj he
      refine .of_append hld hlog hnext (.append hf hreq hprev hlen) hans hafter hnode
        fun hsucc => hcatch ?_
      have hok := (h.chase.sim.rel.rpc k r hr).resps _ (List.mem_of_getElem? hresp)
      rw [hb] at hok
      have hheld := hok.held hsucc
      rw [Setting.Rel.floor_eq hm, hreq] at hheld
      have h1 := hup.first_le.trans hup.applied_le
      exact hheld.imp (fun hle => hle.trans h1) id
    | _ => exact hans.elim
  | @snapshot req hf hreq hfirst =>
    cases resp with
    | install ri =>
      obtain rfl := Option.some.inj he
      exact .of_install hld hnext (.snapshot hf hreq hfirst) hans hafter fun i hi =>
        hcatch (.inl hi)
    | _ => exact hans.elim

theorem Serves.next_eq (h : Serves T log p q next s) (h' : Serves T log p q next' s) :
    next = next' := by
  obtain ⟨n, hn, -, -, rfl⟩ := h.leader
  obtain ⟨n', hn', -, -, rfl⟩ := h'.leader
  rw [Option.mem_unique hn hn']

theorem Chasing.pass (h : Chasing cfg T log p q rd.next g s) (h1 : 1 ≤ rd.next)
    (hc : closing → ∀ m, s.node q = some m → Caught g T q m (rd.next - 1))
    (hp : Pass cfg T log p q s t rd) :
    ∃ g', Chasing cfg T log p q rd.next' g' t ∧ Fares T log p q closing g' t rd := by
  obtain ⟨-, hs₁, -, hwait, hr, hb, hresp, hio, hs, ht⟩ := hp
  obtain ⟨g₁, body, hsent, ha₁⟩ := h.awaits h1 hc hs₁
  obtain ⟨g₂, ha₂⟩ := ha₁.meanwhile hsent hwait
  obtain ⟨r', hr', -, -, hb', -⟩ := ha₂.rpc
  obtain rfl := Option.mem_unique hr hr'
  obtain rfl := hb'.symm.trans hb
  exact ha₂.handled hsent hr hresp hio hs ht

/-! ## Chains -/

inductive Reached (T : ℕ) (log : RaftLog) (p q i : ℕ) (rds : List Round) (go : Bool) (g : Ghost)
    (next : ℕ) (t : State) : Prop
  | searching : go = true → (∀ rd ∈ rds, rd.shipped = false) → next + rds.length ≤ i →
      Reached T log p q i rds go g next t
  | closing : (∀ m, t.node q = some m → Caught g T q m (next - 1)) → log.firstIndex < next →
      rds.countP Round.shipped ≤ 1 → (go = true → rds.length ≤ i + next) →
      (go = false → rds.length ≤ i + next + 1 ∧ next = log.lastIndex + 1 ∧
        ∀ n, t.node p = some n → log.lastIndex ≤ n.matchIndex q) →
      Reached T log p q i rds go g next t

theorem Reached.pass {i : ℕ} {rds : List Round} {u : State} (h1 : 1 ≤ rd.next)
    (hle : rd.next ≤ log.lastIndex + 1) (h : Reached T log p q i rds true g rd.next s)
    (hpass : ∀ closing : Prop,
      (closing → (∀ m, s.node q = some m → Caught g T q m (rd.next - 1))) →
      ∃ g', Chasing cfg T log p q rd.next' g' u ∧ Fares T log p q closing g' u rd) :
    ∃ g', Chasing cfg T log p q rd.next' g' u ∧ 1 ≤ rd.next' ∧
      (rd.rejected = true → rd.next' < rd.next) ∧
      Reached T log p q i (rds ++ [rd]) (rd.again log.lastIndex) g' rd.next' u := by
  have hlen : (rds ++ [rd]).length = rds.length + 1 := by simp
  have hmax : maxAppendEntries = 64 := rfl
  cases h with
  | searching _ hship hsum =>
    have hcount : rds.countP Round.shipped = 0 :=
      List.countP_eq_zero.mpr fun r hr => by simp [hship r hr]
    obtain ⟨g', hchase, hf⟩ := hpass False False.elim
    cases hf with
    | rejected _ hsh hag _ h1' hlt =>
      refine ⟨g', hchase, h1', fun _ => hlt, .searching hag (fun r hr => ?_) (by omega)⟩
      rcases List.mem_append.mp hr with hr | hr
      · exact hship r hr
      · rw [List.mem_singleton.mp hr, hsh]
    | accepted hrej hsh hag hf hnext hc hm =>
      refine ⟨g', hchase, by omega, fun hr => by simp [hrej] at hr, .closing hc (by omega) ?_
        (fun _ => by omega) fun hgo => ⟨by omega, ?_, fun n hn => ?_⟩⟩
      · simp [hcount, hsh]
      · rw [hag, decide_eq_false_iff_not] at hgo
        omega
      · rw [hag, decide_eq_false_iff_not] at hgo
        have := hm n hn
        omega
    | shipped hrej hsh hag hf hgt hc =>
      refine ⟨g', hchase, by omega, fun hr => by simp [hrej] at hr, .closing hc hgt ?_
        (fun _ => by omega) fun hgo => by simp [hag] at hgo⟩
      simp [hcount, hsh]
  | closing hc hf hcount hgo _ =>
    have hgo := hgo rfl
    obtain ⟨g', hchase, hf'⟩ := hpass True fun _ => hc
    cases hf' with
    | rejected _ _ _ hno _ _ => exact absurd trivial hno
    | accepted hrej hsh hag _ hnext hc hm =>
      refine ⟨g', hchase, by omega, fun hr => by simp [hrej] at hr, .closing hc (by omega) ?_
        (fun hgo' => ?_) fun hgo' => ⟨by omega, ?_, fun n hn => ?_⟩⟩
      · simpa [hsh] using hcount
      · rw [hag, decide_eq_true_eq] at hgo'
        omega
      · rw [hag, decide_eq_false_iff_not] at hgo'
        omega
      · rw [hag, decide_eq_false_iff_not] at hgo'
        have := hm n hn
        omega
    | shipped _ _ _ hf' _ _ => omega

theorem Chain.reached {i : ℕ} {rds : List Round} {go : Bool} (h1 : 1 ≤ i)
    (hs : Chasing cfg T log p q i g s) (h : Chain cfg T log p q s rds go t) :
    ∃ next g', Chasing cfg T log p q next g' t ∧ 1 ≤ next ∧
      (∀ rd ∈ rds, rd.rejected = true → rd.next' < rd.next) ∧
      Reached T log p q i rds go g' next t := by
  induction h with
  | nil => exact ⟨i, g, hs, h1, by simp, .searching rfl (by simp) (by simp)⟩
  | @snoc rds rd t u v _ hsv hwait hp ih =>
    obtain ⟨next, g₁, hchase, h1', hlow, hreach⟩ := ih
    obtain rfl := hchase.serves.next_eq hsv
    obtain ⟨_, _, _, _, _, _, _, _, _, hle⟩ := hchase.leads
    obtain ⟨g₂, hl, hchase₂, hci⟩ := hchase.meanwhile hwait
    obtain ⟨m₁, hm₁, -⟩ := hchase.serves.follower
    obtain ⟨g₃, h2, h3, h4, h5⟩ := hreach.pass h1' hle (u := v) fun closing hc =>
      hchase₂.pass h1' (fun hcl m hm => (hc hcl m₁ hm₁).mono hl.grew (hci m₁ m hm₁ hm)) hp
    refine ⟨rd.next', g₃, h2, h3, fun r hr hrej => ?_, h5⟩
    rcases List.mem_append.mp hr with hr | hr
    · exact hlow r hr hrej
    · obtain rfl := List.mem_singleton.mp hr
      exact h4 hrej

/-! ## The next pass -/

theorem Node.appendLocked_stopped (fail : Call → Bool) (n : Node) (req : AppendEntriesRequest) :
    (n.appendLocked fail req).1.node.stopped = n.stopped := by
  have hadv : ∀ m : Node, (m.advanceCommit req).stopped = m.stopped := by
    intro m
    unfold Node.advanceCommit
    split <;> rfl
  have hnew : ∀ (m : Node) new, (m.appendNew fail req new).1.node.stopped = m.stopped := by
    intro m new
    unfold Node.appendNew
    split
    · exact hadv m
    · simp only
      split
      · rfl
      · exact hadv _
  unfold Node.appendLocked
  split
  · rfl
  split
  · rfl
  unfold Node.mergeEntries
  split
  · exact hnew n _
  · simp only
    split
    · rfl
    · exact hnew _ _

theorem Node.installLocked_stopped (fail : Call → Bool) (n : Node) (req : InstallSnapshotRequest) :
    (n.installLocked fail req).1.node.stopped = n.stopped := by
  unfold Node.installLocked
  split
  · rfl
  simp only
  split <;> rfl

/-- The follower goes on in the leader's term. -/
theorem Sent.handled (h : Sent T log next body) (hst : m.stopped = false) (hT : m.currentTerm ≤ T)
    (recent : Bool) : (handle {} recent m body).1.node.stopped = false ∧
      (handle {} recent m body).1.node.currentTerm ≤ T := by
  cases h with
  | @append req _ hreq _ _ =>
    have hterm := m.adoptTerm_term req.term
    have hrole := Node.appendLocked_sameRole (Io.fail {})
      ((m.adoptTerm req.term).node.followLeader req.leaderId) req
    simp only [handle, Node.handleAppendEntries, hst, Bool.false_eq_true, if_false]
    split
    · exact ⟨(m.adoptTerm_stopped _).trans hst, by omega⟩
    · refine ⟨?_, hrole.2.trans_le ?_⟩
      · simp only [Effect.after_node, Node.appendLocked_stopped]
        exact (m.adoptTerm_stopped _).trans hst
      · simp only [Node.followLeader]
        omega
  | @snapshot req _ hreq _ =>
    have hterm := m.adoptTerm_term req.term
    have hrole := Node.installLocked_sameRole (Io.fail {})
      ((m.adoptTerm req.term).node.followLeader req.leaderId) req
    simp only [handle, Node.handleInstallSnapshot, hst, Bool.false_eq_true, if_false]
    split
    · exact ⟨(m.adoptTerm_stopped _).trans hst, by omega⟩
    · refine ⟨?_, hrole.2.trans_le ?_⟩
      · simp only [Effect.after_node, Node.installLocked_stopped]
        exact (m.adoptTerm_stopped _).trans hst
      · simp only [Node.followLeader]
        omega

theorem Replied.received (h : Replied T log closing ci body resp) (hsent : Sent T log next body)
    (hld : n.leads T = true) :
    ∃ e, receive {} n q body resp = some e ∧ e.node.leads T = true ∧ e.node.log = n.log := by
  obtain ⟨hst, hrole, -⟩ := Node.leads_iff.mp hld
  cases hsent with
  | @append req _ hreq _ _ =>
    subst hreq
    cases resp with
    | append ra =>
      refine ⟨_, rfl, ?_⟩
      rw [Node.onAppendResponse_leads hld h.1.le]
      split
      · obtain ⟨ci, hci⟩ := Node.maybeAdvanceCommit_node
          (n.raiseMatch q (req.prevLogIndex + req.entries.length))
        rw [hci]
        exact ⟨hld, rfl⟩
      · exact ⟨hld, rfl⟩
    | _ => exact h.elim
  | @snapshot req _ hreq _ =>
    subst hreq
    cases resp with
    | install ri =>
      refine ⟨_, rfl, ?_⟩
      rw [Node.onSnapshotResponse_leads hld h.1.le]
      exact ⟨hld, rfl⟩
    | _ => exact h.elim

/-- A pass whose request is delivered and answered at once. -/
theorem Pass.direct {s₁ s₂ : State} {r₀ : Rpc} {j : ℕ} (recent : Bool)
    (h : Serves T log p q rd.next s) (hs₁ : step cfg s (.replicate p q) = some s₁)
    (hr₀ : s₁.rpcs[s.rpcs.length]? = some r₀)
    (hs₂ : step cfg s₁ (.deliver s.rpcs.length recent {}) = some s₂)
    (h₂ : Serves T log p q rd.next s₂) (hr : s₂.rpcs[s.rpcs.length]? = some r)
    (hb : r.body = rd.body) (hresp : r.resps[j]? = some rd.resp)
    (ht : step cfg s₂ (.respond s.rpcs.length j {}) = some t) (h' : Serves T log p q rd.next' t) :
    Pass cfg T log p q s t rd := by
  refine .mk h hs₁ hr₀ ((Reaches.refl s₁).snoc hs₂ ⟨rfl, fun u hu => ?_⟩) hr hb hresp rfl ht h'
  obtain rfl := Option.mem_unique hs₂ hu
  exact h₂

/-- A pass is always possible. -/
theorem Chasing.goes_on (h : Chasing cfg T log p q next g s) (h1 : 1 ≤ next) :
    ∃ t rd, Pass cfg T log p q s t rd := by
  obtain ⟨s₁, body, hs₁, hsent, hr, hsv₁, hq₁⟩ := h.sends h1
  obtain ⟨g₁, -, hchase⟩ := h.advance (show Action.Reliable (.replicate p q) from rfl) hs₁ hsv₁
  have hqp : q ≠ p := (Config.mem_peers.mp h.peer).2
  obtain ⟨m, hm, hst, hT⟩ := hsv₁.follower
  obtain ⟨n, hn, hld, hlog, hnext⟩ := hsv₁.leader
  have hk := (List.getElem?_eq_some_iff.mp hr).1
  set k := s.rpcs.length with hkdef
  have hans : Replied T log False _ body _ := hchase.answered hsent hr rfl rfl hm False.elim
    (show ({} : Io).fault = fun _ => none from rfl) false
  obtain ⟨hst₂, hT₂⟩ := hsent.handled hst hT false
  set e := handle {} false m body with he
  set s₂ := (s₁.finish q {} e.1).answer k {} e.2 with hs₂
  have hstep₂ : step cfg s₁ (.deliver k false {}) = some s₂ := by
    simp [step, hr, hm, hs₂, he]
  have hn₂ : s₂.node p = some n := by
    simpa [hs₂, State.answer, State.finish, State.node, hqp.symm] using hn
  have hm₂ : s₂.node q = some e.1.node := by
    simp [hs₂, State.answer, State.finish, State.node]
  have hsv₂ : Serves T log p q next s₂ := ⟨⟨n, hn₂, hld, hlog, hnext⟩, ⟨_, hm₂, hst₂, hT₂⟩⟩
  have hep : (s₁.servers p).epoch = (s.servers p).epoch := by
    obtain ⟨n₀, e₀, -, -, rfl⟩ : ∃ n e, s.node p = some n ∧
        n.replicateOnce (s.servers p).disk.snap q = some e ∧ s₁ = s.finish p {} e := by
      simp only [step, h.peer, if_true] at hs₁
      exact State.local_some hs₁
    simp [State.finish]
  have hr₂ : s₂.rpcs[k]? = some ⟨p, q, (s.servers p).epoch, body, [e.2], false⟩ := by
    simp only [hs₂, State.answer, State.finish, List.getElem?_modify]
    rw [List.getElem?_append_left hk, hr]
    simp
  obtain ⟨e₃, he₃, hld₃, hlog₃⟩ := hans.received (n := n) (q := q) hsent hld
  refine ⟨(s₂.markHandled k).finish p {} e₃, ⟨next, body, e.2, e₃.node.nextIndex q⟩,
    .direct (j := 0) false h.serves hs₁ hr hstep₂ hsv₂ hr₂ rfl rfl ?_
      ⟨⟨e₃.node, ?_, hld₃, hlog₃.trans hlog, rfl⟩, ?_⟩⟩
  · have hep₂ : (s₂.servers p).epoch = (s.servers p).epoch := by
      simpa [hs₂, State.answer, State.finish, hqp.symm] using hep
    have hn₃ : (s₂.markHandled k).node p = some n := hn₂
    rw [← hkdef]
    simp [step, hr₂, hep₂, State.local, hn₃, he₃]
  · simp [State.finish, State.node]
  · refine ⟨e.1.node, ?_, hst₂, hT₂⟩
    simpa [State.finish, State.node, State.markHandled, hqp] using hm₂

/-! ## The chain from any `nextIndex` -/

section Start

variable {K : Setting} {i : ℕ}

theorem State.setNext_node {u : ℕ} (h : (s.setNext p q i).node u = some m) :
    ∃ n next, s.node u = some n ∧ m = { n with nextIndex := next } := by
  by_cases hu : u = p
  · subst hu
    simp only [State.setNext, State.node, Function.update_self] at h
    obtain ⟨n, hn, rfl⟩ := Option.map_eq_some_iff.mp h
    exact ⟨n, _, hn, rfl⟩
  · simp only [State.setNext, State.node, Function.update_of_ne hu] at h
    exact ⟨m, m.nextIndex, h, rfl⟩

/-- The simulation does not care about `nextIndex`, as long as it stays within the log. -/
theorem Setting.Sim.setNext (h : K.Sim g s) (hn : s.node p = some n)
    (hi : i ≤ n.log.lastIndex + 1) : K.Sim g (s.setNext p q i) := by
  have hproc : (s.servers p).proc = some n := hn
  have hhard : (s.setNext p q i).hard = s.hard := by
    funext u
    by_cases hu : u = p
    · subst hu
      simp [State.setNext, State.hard]
    · simp [State.setNext, State.hard, hu]
  constructor
  · refine (h.rel.setServer (p := p) .refl (fun m hm => ?_) (fun hno => ?_) ?_).rel
    · simp only [hproc, Option.map_some, Option.some.injEq] at hm
      subst hm
      have hup := h.rel.up p n hn
      refine { hup with lead := fun hr => { hup.lead hr with next := fun u hu => ?_ } }
      by_cases huq : u = q
      · subst huq
        simpa using hi
      · simpa [huq] using (hup.lead hr).next u hu
    · simp [hproc] at hno
    · simp [State.floor, Server.floor, hproc]
  · refine ⟨fun u => hhard ▸ h.elect.booked u, fun u m hm => ?_, fun u m hm hr => ?_,
      fun u m hm hr => ?_, fun k r req hr hb => hhard ▸ h.elect.rpc k r req hr hb, h.elect.keys⟩
    all_goals obtain ⟨n', _, hn', rfl⟩ := State.setNext_node hm
    · exact hhard ▸ h.elect.proc u n' hn'
    · exact h.elect.cand u n' hn' hr
    · exact h.elect.lead u n' hn' hr

theorem chasing_setNext (hs : Reaches (step cfg) (fun _ a => a.Reliable) cfg.init s)
    (hq : q ∈ cfg.peers p) (hsv : Serves T log p q next s) (hi : i ≤ log.lastIndex + 1) :
    ∃ g, Chasing cfg T log p q i g (s.setNext p q i) := by
  obtain ⟨g, hsim⟩ := plain_sim hs
  obtain ⟨n, hn, hld, rfl, -⟩ := hsv.leader
  obtain ⟨m, hm, hst, hT⟩ := hsv.follower
  have hqp : q ≠ p := (Config.mem_peers.mp hq).2
  have hproc : (s.servers p).proc = some n := hn
  have hships := hs.invariant
    (I := fun s => ∀ p n, s.node p = some n → n.Shippable (s.servers p).disk.snap)
    (fun s _ _ h ha hs => step_shippable hs (ha.shipping s) h)
    (by intro p n hn; simp [Config.init, State.node] at hn)
  refine ⟨g, hq, hsim.setNext hn hi, fun u m' hm' => ?_,
    ⟨⟨{ n with nextIndex := Function.update n.nextIndex q i }, ?_, hld, rfl, by simp⟩,
      m, ?_, hst, hT⟩⟩
  · obtain ⟨n', _, hn', rfl⟩ := State.setNext_node hm'
    have hsh := hships u n' hn'
    have hdisk : ((s.setNext p q i).servers u).disk = (s.servers u).disk := by
      by_cases hu : u = p
      · subst hu
        simp [State.setNext]
      · simp [State.setNext, hu]
    rw [hdisk]
    exact ⟨hsh.first_le, hsh.applied_le, hsh.covers⟩
  · simp only [State.setNext, State.node, Function.update_self, hproc]
    rfl
  · simpa [State.setNext, State.node, hqp] using hm

end Start

/-- A follower that has caught up with the end of the log agrees with all of it. -/
theorem Chasing.agrees (h : Chasing cfg T log p q next g s) (hm : s.node q = some m)
    (hc : Caught g T q m log.lastIndex) : log.AgreesTo m.log log.lastIndex := by
  obtain ⟨n, hn, -, hr, hterm, rfl, -, -, hrel, -⟩ := h.leads
  obtain ⟨m', hm', -, hT⟩ := h.serves.follower
  obtain rfl := Option.mem_unique hm hm'
  have hi := h.sim.rel.inv
  have hup := h.sim.rel.up p n hn
  have hupq := h.sim.rel.up q m hm
  -- the leader has acknowledged its own log as it were: it is the log of the term
  have hlead : ∀ j ≤ n.log.lastIndex, n.log.firstIndex ≤ j →
      n.log.term j = some (logTerm ((g.tlog T).take j)) := by
    intro j hj hf
    rcases hf.eq_or_lt with rfl | hf
    · obtain ⟨c, hb, -, hpre⟩ := hup.base_prefix hi (hterm ▸ h.led)
      rw [hrel.wf.term_first, hb.sentinel, prefix_take_take hpre hb.first_le, hterm]
    · have := hrel.lastIndex
      obtain ⟨e, he⟩ := exists_getElem (show j - 1 < (g.tlog T).length by omega)
      rw [hrel.term hf, he, logTerm_take (by omega) he]
      rfl
  refine ⟨(hupq.caught hi hT h.led hc).1, fun j hj hf hf' => ⟨?_, fun hlt hlt' => ?_⟩⟩
  · rw [hlead j hj hf, (hupq.caught hi hT h.led (hc.shorter hj)).2.1 hf']
  · rw [hrel.entry hlt, (hupq.caught hi hT h.led (hc.shorter hj)).2.2 hlt']

/-- From any `nextIndex` on, the passes of the replicator come to an end: every refusal lowers
`nextIndex`, at most one snapshot is sent, and when no further pass is asked for the follower has
matched the whole log and agrees with it. -/
theorem catch_up_converges {s : State} {i next : ℕ}
    (hs : Reaches (step cfg) (fun _ a => a.Reliable) cfg.init s) (hq : q ∈ cfg.peers p)
    (hsv : Serves T log p q next s) (h1 : 1 ≤ i) (hi : i ≤ log.lastIndex + 1) {rds : List Round}
    {go : Bool} (hc : Chain cfg T log p q (s.setNext p q i) rds go t) :
    (∀ rd ∈ rds, rd.rejected = true → rd.next' < rd.next) ∧
      rds.countP Round.shipped ≤ 1 ∧ rds.length ≤ i + log.lastIndex + 2 ∧
      (go = true → ∃ u rd, Pass cfg T log p q t u rd) ∧
      (go = false → ∃ n m, t.node p = some n ∧ t.node q = some m ∧
        n.matchIndex q = log.lastIndex ∧ log.AgreesTo m.log log.lastIndex) := by
  obtain ⟨g, hg⟩ := chasing_setNext hs hq hsv hi
  obtain ⟨next', g', hchase, h1', hlow, hreach⟩ := hc.reached h1 hg
  obtain ⟨n, hn, -, hr, hterm, hlog, -, -, hrel, hle⟩ := hchase.leads
  refine ⟨hlow, ?_, ?_, fun _ => hchase.goes_on h1', fun hgo => ?_⟩
  · cases hreach with
    | searching _ hship _ =>
      rw [List.countP_eq_zero.mpr fun r hr => by simp [hship r hr]]
      exact Nat.zero_le _
    | closing _ _ hcount _ _ => exact hcount
  · cases hreach with
    | searching _ _ hsum => omega
    | closing _ _ _ hgo hstop =>
      cases go with
      | true =>
        have := hgo rfl
        omega
      | false =>
        have := (hstop rfl).1
        omega
  · cases hreach with
    | searching hgo' _ _ => simp [hgo] at hgo'
    | closing hcaught _ _ _ hstop =>
      obtain ⟨-, hnext, hmatch⟩ := hstop hgo
      obtain ⟨m, hm, -⟩ := hchase.serves.follower
      refine ⟨n, m, hn, hm, le_antisymm ?_ (hmatch n hn), hchase.agrees hm ?_⟩
      · have hup := hchase.sim.rel.up p n hn
        have := ((hup.lead hr).matched q (hup.peers ▸ hchase.peer)).le
        rwa [hterm, ← hrel.lastIndex] at this
      · have := hcaught m hm
        rwa [hnext, Nat.add_sub_cancel] at this

def lagging : State :=
  (exec (step .pair) Config.pair.init (electFirst ++ [.propose 1 [[7]] {}])).get rfl

/-- The leader thinks that node 2 has the entry. One refusal and one AppendEntries later it has. -/
theorem catch_up_converges_pair : ∃ t n m rds,
    Reaches (step .pair) (fun _ a => a.Reliable) Config.pair.init lagging ∧
    Chain .pair 1 ⟨⟨0, 0, []⟩, [⟨1, 1, [7]⟩]⟩ 1 2 (lagging.setNext 1 2 2) rds false t ∧
    rds.map Round.rejected = [true, false] ∧ t.node 1 = some n ∧ t.node 2 = some m ∧
    n.matchIndex 2 = 1 ∧ 1 ≤ m.log.lastIndex := by
  have hs := Reaches.of_exec (step .pair) (fun _ a => a.Reliable) Config.pair.init
    (electFirst ++ [.propose 1 [[7]] {}])
    (.of_forall (by simp [electFirst, Action.Reliable, Action.io]) _) rfl
  have hc₁ := @Chain.snoc .pair 1 ⟨⟨0, 0, []⟩, [⟨1, 1, [7]⟩]⟩ 1 2 (lagging.setNext 1 2 2) []
    ⟨2, _, _, 1⟩ _ _ _ .nil ⟨⟨_, rfl, rfl, rfl, rfl⟩, ⟨_, rfl, rfl, by decide⟩⟩ (.refl _)
    (.direct (j := 0) false ⟨⟨_, rfl, rfl, rfl, rfl⟩, ⟨_, rfl, rfl, by decide⟩⟩
      (Option.some_get rfl).symm rfl (Option.some_get rfl).symm
      ⟨⟨_, rfl, rfl, rfl, rfl⟩, ⟨_, rfl, rfl, by decide⟩⟩ rfl rfl rfl (Option.some_get rfl).symm
      ⟨⟨_, rfl, rfl, rfl, rfl⟩, ⟨_, rfl, rfl, by decide⟩⟩)
  have hc₂ := @Chain.snoc _ _ _ _ _ _ _ ⟨1, _, _, 2⟩ _ _ _ hc₁
    ⟨⟨_, rfl, rfl, rfl, rfl⟩, ⟨_, rfl, rfl, by decide⟩⟩ (.refl _)
    (.direct (j := 0) false ⟨⟨_, rfl, rfl, rfl, rfl⟩, ⟨_, rfl, rfl, by decide⟩⟩
      (Option.some_get rfl).symm rfl (Option.some_get rfl).symm
      ⟨⟨_, rfl, rfl, rfl, rfl⟩, ⟨_, rfl, rfl, by decide⟩⟩ rfl rfl rfl (Option.some_get rfl).symm
      ⟨⟨_, rfl, rfl, rfl, rfl⟩, ⟨_, rfl, rfl, by decide⟩⟩)
  have hsv : Serves 1 ⟨⟨0, 0, []⟩, [⟨1, 1, [7]⟩]⟩ 1 2 1 lagging :=
    ⟨⟨_, rfl, rfl, rfl, rfl⟩, ⟨_, rfl, rfl, by decide⟩⟩
  obtain ⟨-, -, -, -, h⟩ := catch_up_converges (p := 1) (q := 2) hs (by decide) hsv (by decide)
    (by decide) hc₂
  obtain ⟨n, m, hn, hm, hmatch, hle, -⟩ := h rfl
  exact ⟨_, n, m, _, hs, hc₂, rfl, hn, hm, hmatch, hle⟩

end KMC
