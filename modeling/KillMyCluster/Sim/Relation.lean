import KillMyCluster.Sim.Disk

/-! The simulation relation between cluster states and the abstract log, and what it takes for
one critical section of a node to keep it (`Lands`). -/

namespace KMC

open LeaderLog

def Server.floor (srv : Server) : ℕ :=
  match srv.proc with
  | some n => n.log.firstIndex
  | none => srv.disk.image.index

def State.floor (s : State) (p : ℕ) : ℕ := (s.servers p).floor

section Defs

variable (K : Setting) (g : Ghost) (floor : ℕ → ℕ)

structure Setting.Leading (p : ℕ) (n : Node) : Prop where
  leader : g.leader n.currentTerm = some p
  tlog : g.tlog n.currentTerm = g.log p
  commit : g.commit n.currentTerm ≤ n.commitIndex
  matched : ∀ q ∈ n.peers, K.MatchOK g floor n.currentTerm q (n.matchIndex q)
  next : ∀ q ∈ n.peers, n.nextIndex q ≤ n.log.lastIndex + 1

/-- A running node; `ms` are the messages its applier picked up since the process started. -/
structure Setting.Up (p : ℕ) (n : Node) (d : Disk) (ms : List ApplyMsg) : Prop where
  mem : p ∈ K.cfg.ids
  id : n.id = p
  peers : n.peers = K.cfg.peers p
  core : K.Core g p n.currentTerm n.votedFor n.log n.commitIndex d
  first_le : n.log.firstIndex ≤ n.lastApplied
  applied_le : n.lastApplied ≤ n.commitIndex
  cache : n.snapCache.index = 0 ∨ K.SnapOK g n.currentTerm n.snapCache
  delivered : ∃ i, K.Delivered g n.currentTerm ms i ∧ (n.pendingSnapshot = none → i = n.lastApplied)
  pending : ∀ snap, n.pendingSnapshot = some snap →
    K.SnapOK g n.currentTerm snap ∧ snap.index = n.lastApplied
  cand : n.role = .candidate →
    g.cand n.currentTerm p = some (g.log p) ∧ g.leader n.currentTerm ≠ some p
  lead : n.role = .leader → K.Leading g floor p n
  running : K.noStop → n.stopped = false

structure AppendOK (src : ℕ) (req : AppendEntriesRequest) : Prop where
  leader : g.leader req.term = some src
  le : req.prevLogIndex + req.entries.length ≤ (g.tlog req.term).length
  entries : req.entries = ((g.tlog req.term).drop req.prevLogIndex).take req.entries.length
  index : ∀ k e, req.entries[k]? = some e → e.index = req.prevLogIndex + 1 + k
  prevTerm : req.prevLogTerm = logTerm ((g.tlog req.term).take req.prevLogIndex)
  commit : ∃ c, Committed g req.term c ∧ c.length = req.leaderCommit

def InstallSnapshotRequest.snap (req : InstallSnapshotRequest) : Snapshot :=
  ⟨req.lastIncludedIndex, req.lastIncludedTerm, req.data⟩

def Setting.BodyOK (src : ℕ) : Body → Prop
  | .preVote _ _ req => req.preVote = true
  | .vote req => req.preVote = false ∧ req.candidateId = src ∧ ∃ lc,
      g.cand req.term src = some lc ∧ req.lastLogIndex = lc.length ∧ req.lastLogTerm = logTerm lc
  | .replicate req => AppendOK g src req
  | .heartbeat req => AppendOK g src req
  | .snapshot req => g.leader req.term = some src ∧ K.SnapOK g req.term req.snap

structure Setting.AppendAnswerOK (dst : ℕ) (req : AppendEntriesRequest)
    (resp : AppendEntriesResponse) : Prop where
  success : resp.success = true →
    K.MatchOK g floor req.term dst (req.prevLogIndex + req.entries.length)
  held : resp.success = true → req.prevLogIndex + req.entries.length ≤ floor dst ∨
    req.prevLogIndex + req.entries.length ≤ g.ack req.term dst
  conflict : resp.conflictIndex ≤ req.prevLogIndex + 1

def Setting.AnswerOK (src dst : ℕ) : Body → Response → Prop
  | .vote req, .vote resp => resp.voteGranted = true → ∃ l, g.ballot req.term dst = some (src, l)
  | .replicate req, .append resp => K.AppendAnswerOK g floor dst req resp
  | .heartbeat req, .append resp => K.AppendAnswerOK g floor dst req resp
  | .snapshot req, .install resp => K.noStop → resp.term ≤ req.term →
      req.lastIncludedIndex ≤ floor dst ∨ req.lastIncludedIndex ≤ g.ack req.term dst
  | _, _ => True

structure Setting.RpcOK (r : Rpc) : Prop where
  src_mem : r.src ∈ K.cfg.ids
  dst_mem : r.dst ∈ K.cfg.ids
  ne : r.src ≠ r.dst
  body : K.BodyOK g r.src r.body
  resps : ∀ resp ∈ r.resps, K.AnswerOK g floor r.src r.dst r.body resp

structure Setting.Rel (s : State) : Prop where
  inv : K.cfg.Inv g
  up : ∀ p n, s.node p = some n →
    K.Up g s.floor p n (s.servers p).disk ((s.servers p).sent ++ (s.servers p).batch)
  down : ∀ p, s.node p = none → K.Down g p (s.servers p).disk
  rpc : ∀ (k : ℕ) (r : Rpc), s.rpcs[k]? = some r → K.RpcOK g s.floor r

/-- The effect `e` of a critical section on node `p` keeps the relation, with `φ` true at its
end, and so does dying at any of its calls. The log stays compacted up to `lo`. -/
structure Setting.Lands (p lo : ℕ) (d : Disk) (ms : List ApplyMsg) (e : Effect)
    (φ : Ghost → Prop) : Prop where
  ends : ∃ g', K.cfg.Acts p g g' ∧ K.Up g' floor p e.node (d.runs e.calls) ms ∧
    (∀ q body, (q, body) ∈ e.sends → q ∈ K.cfg.peers p ∧ K.BodyOK g' p body) ∧ φ g'
  mono : lo ≤ e.node.log.firstIndex
  crash : K.CrashSafe g p lo d e.calls

end Defs

variable {K : Setting} {g g' : Ghost} {floor floor' : ℕ → ℕ} {p lo : ℕ} {n : Node} {d : Disk}
  {ms : List ApplyMsg}

/-! ## Frames: what other nodes' acts leave alone -/

theorem VoteRel.frame {T w : ℕ} (hs : SameAt p g g') (h : VoteRel g p T w) : VoteRel g' p T w where
  term := hs.term.trans h.term
  none hw := (hs.ballot T).trans (h.none hw)
  some hw := by
    rw [hs.ballot T]
    exact h.some hw

theorem Setting.Core.frame (hi : K.cfg.Inv g) (hs : SameAt p g g') (hg : Grew g g') {T w ci : ℕ}
    {l : RaftLog} (h : K.Core g p T w l ci d) : K.Core g' p T w l ci d where
  vote := h.vote.frame hs
  log := hs.log ▸ h.log
  base := by
    obtain ⟨c, hc, hl⟩ := h.base
    exact ⟨c, hs.log ▸ hc.mono hi hg le_rfl, hl⟩
  disk := h.disk.mono hi hg le_rfl

theorem Setting.Leading.frame (hi : K.cfg.Inv g) (hs : SameAt p g g') (hg : Grew g g')
    (hf : ∀ q, q ≠ p → floor q ≤ floor' q) (hn : ∀ q ∈ n.peers, q ≠ p)
    (h : K.Leading g floor p n) : K.Leading g' floor' p n where
  leader := (hs.leader _).mpr h.leader
  tlog := by rw [(hs.tlog _ h.leader).1, hs.log, h.tlog]
  commit := by rw [(hs.tlog _ h.leader).2]; exact h.commit
  matched q hq := (h.matched q hq).mono hi hg (hf q (hn q hq))
  next := h.next

theorem Setting.Up.peer_ne (h : K.Up g floor p n d ms) {q : ℕ} (hq : q ∈ n.peers) : q ≠ p := by
  rw [h.peers, Config.mem_peers] at hq
  exact hq.2

theorem Setting.Up.frame (hi : K.cfg.Inv g) (hs : SameAt p g g') (hg : Grew g g')
    (hf : ∀ q, q ≠ p → floor q ≤ floor' q) (h : K.Up g floor p n d ms) :
    K.Up g' floor' p n d ms where
  mem := h.mem
  id := h.id
  peers := h.peers
  core := h.core.frame hi hs hg
  first_le := h.first_le
  applied_le := h.applied_le
  cache := h.cache.imp_right fun hc => hc.mono hi hg le_rfl
  delivered := by
    obtain ⟨i, hd, hp⟩ := h.delivered
    exact ⟨i, hd.mono hi hg le_rfl, hp⟩
  pending snap hsn := ⟨(h.pending snap hsn).1.mono hi hg le_rfl, (h.pending snap hsn).2⟩
  cand hr := by
    rw [hs.cand, hs.log, ne_eq, hs.leader]
    exact h.cand hr
  lead hr := (h.lead hr).frame hi hs hg hf fun _ hq => h.peer_ne hq
  running := h.running

theorem Setting.Down.frame (hi : K.cfg.Inv g) (hs : SameAt p g g') (hg : Grew g g')
    (h : K.Down g p d) : K.Down g' p d := by
  obtain ⟨c, hc⟩ := h
  have hlog := hs.log
  exact ⟨c, hc.vote.frame hs, hc.file.mono hi hg le_rfl, hlog ▸ hc.entries, hlog ▸ hc.le,
    hlog ▸ hc.index, hlog ▸ hc.last, hlog ▸ hc.fresh⟩

theorem AppendOK.mono (hi : K.cfg.Inv g) (hg : Grew g g') {src : ℕ} {req : AppendEntriesRequest}
    (h : AppendOK g src req) : AppendOK g' src req := by
  have hle := h.le
  obtain ⟨r, hr⟩ := hi.tlog_prefix hg req.term
  obtain ⟨c, hc, hlen⟩ := h.commit
  refine ⟨hg.leader _ _ h.leader, ?_, ?_, h.index, ?_, c, hc.mono hi hg le_rfl, hlen⟩
  · rw [← hr, List.length_append]; omega
  · rw [← hr, List.drop_append_of_le_length (by omega),
      List.take_append_of_le_length (by rw [List.length_drop]; omega)]
    exact h.entries
  · rw [← hr, List.take_append_of_le_length (by omega)]
    exact h.prevTerm

theorem Setting.BodyOK.mono (hi : K.cfg.Inv g) (hg : Grew g g') {src : ℕ} {body : Body}
    (h : K.BodyOK g src body) : K.BodyOK g' src body := by
  cases body with
  | preVote _ _ req => exact h
  | vote req =>
    obtain ⟨h1, h2, lc, h3, h4⟩ := h
    exact ⟨h1, h2, lc, hg.cand _ _ _ h3, h4⟩
  | replicate req => exact AppendOK.mono hi hg h
  | heartbeat req => exact AppendOK.mono hi hg h
  | snapshot req => exact ⟨hg.leader _ _ h.1, h.2.mono hi hg le_rfl⟩

theorem Setting.AppendAnswerOK.mono (hi : K.cfg.Inv g) (hg : Grew g g') {dst : ℕ}
    (hf : floor dst ≤ floor' dst) {req : AppendEntriesRequest} {resp : AppendEntriesResponse}
    (h : K.AppendAnswerOK g floor dst req resp) : K.AppendAnswerOK g' floor' dst req resp :=
  ⟨fun hs => (h.success hs).mono hi hg hf,
    fun hs => (h.held hs).imp (·.trans hf) (·.trans (hg.ack _ _)), h.conflict⟩

theorem Setting.AnswerOK.mono (hi : K.cfg.Inv g) (hg : Grew g g') {src dst : ℕ}
    (hf : floor dst ≤ floor' dst) {body : Body} {resp : Response}
    (h : K.AnswerOK g floor src dst body resp) : K.AnswerOK g' floor' src dst body resp := by
  cases body <;> cases resp <;> try trivial
  · intro hv
    obtain ⟨l, hl⟩ := h hv
    exact ⟨l, hg.ballot _ _ _ hl⟩
  · exact Setting.AppendAnswerOK.mono hi hg hf h
  · exact Setting.AppendAnswerOK.mono hi hg hf h
  · intro hn ht
    exact (h hn ht).imp (·.trans hf) (·.trans (hg.ack _ _))

theorem Setting.RpcOK.mono (hi : K.cfg.Inv g) (hg : Grew g g') (hf : ∀ q, floor q ≤ floor' q)
    {r : Rpc} (h : K.RpcOK g floor r) : K.RpcOK g' floor' r :=
  { h with
    body := h.body.mono hi hg
    resps := fun resp hr => (h.resps resp hr).mono hi hg (hf _) }

/-! ## Sections that land -/

theorem Setting.Up.down (hi : K.cfg.Inv g) (h : K.Up g floor p n d ms) : K.Down g p d :=
  h.core.down hi

theorem Setting.Lands.quiet {φ : Ghost → Prop} {sends : List (ℕ × Body)}
    (hd : K.Down g p d) (ha : K.cfg.Acts p g g') (hu : K.Up g' floor p n d ms)
    (hlo : lo ≤ n.log.firstIndex)
    (hs : ∀ q body, (q, body) ∈ sends → q ∈ K.cfg.peers p ∧ K.BodyOK g' p body) (hφ : φ g') :
    K.Lands g floor p lo d ms { node := n, sends := sends } φ :=
  ⟨⟨g', ha, hu, hs, hφ⟩, hlo, crashSafe_nil hd (hlo.trans hu.core.disk.first_le)⟩

/-- Two sections one after the other under the same lock. -/
theorem Setting.Lands.bind {φ ψ : Ghost → Prop} {a e : Effect} (hi : K.cfg.Inv g)
    (ha : K.Lands g floor p lo d ms a φ) (he : ∀ g', K.cfg.Inv g' → Grew g g' → φ g' →
      K.Up g' floor p a.node (d.runs a.calls) ms → lo ≤ a.node.log.firstIndex →
      K.Lands g' floor p lo (d.runs a.calls) ms e ψ) :
    K.Lands g floor p lo d ms (e.after a.calls) ψ := by
  obtain ⟨⟨g₁, hs, hu, -, hφ⟩, hm, hc⟩ := ha
  obtain ⟨hi₁, hg₁⟩ := hi.steps hs
  obtain ⟨⟨g₂, hs₂, hu₂, hsend, hψ⟩, hm₂, hc₂⟩ := he g₁ hi₁ hg₁ hφ hu hm
  refine ⟨⟨g₂, hs.trans hs₂, ?_, hsend, hψ⟩, hm₂, hc.append ⟨g₁, hs, hc₂⟩⟩
  rw [Effect.after_calls, Disk.runs_append]
  exact hu₂

theorem Setting.Lands.imp {φ ψ : Ghost → Prop} {e : Effect} (h : K.Lands g floor p lo d ms e φ)
    (hφ : ∀ g', φ g' → ψ g') : K.Lands g floor p lo d ms e ψ := by
  obtain ⟨⟨g₁, h₁, h₂, h₃, h₄⟩, hm, hc⟩ := h
  exact ⟨⟨g₁, h₁, h₂, h₃, hφ g₁ h₄⟩, hm, hc⟩

end KMC
