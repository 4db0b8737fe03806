import KillMyCluster.Durable.Recorded

/-! What a follower acknowledges is on its disk. It is not, once a persister call has returned an
error to a process that goes on: the handlers change the log in memory first and leave it changed,
a retransmission then finds the entries present and is acknowledged from memory. It is, as long
as log writes succeed or kill the process and no skipped snapshot is acknowledged. -/

namespace KMC

open Trace

/-- The log reaches to `i` and holds everything the request brings, or its snapshot covers it. -/
def Body.Covered (l : RaftLog) (i : ℕ) : Body → Prop
  | .replicate req => i ≤ l.lastIndex ∧
      ∀ e ∈ req.entries, e.index ≤ l.firstIndex ∨ l.entry e.index = some e
  | .snapshot req => i ≤ l.lastIndex ∧ (req.lastIncludedIndex ≤ l.firstIndex ∨
      l.term req.lastIncludedIndex = some req.lastIncludedTerm)
  | _ => False

/-- What a delivery needs besides a working disk: an entry that the receiver already holds under
the same index and term is the same entry, and a snapshot it is not going to install, because it
is stopped or has committed as much, is one its log goes with. -/
def Rpc.Fits (s : State) (r : Rpc) : Prop :=
  match r.body, s.node r.dst with
  | .replicate req, some n => ∀ e ∈ req.entries, n.log.firstIndex < e.index →
      n.log.term e.index = some e.term → n.log.entry e.index = some e
  | .snapshot req, some n => n.stopped ∨ req.lastIncludedIndex ≤ n.commitIndex →
      req.lastIncludedIndex ≤ n.log.firstIndex ∨
        n.log.term req.lastIncludedIndex = some req.lastIncludedTerm
  | _, _ => True

def Action.Fits (s : State) : Action → Prop
  | .deliver k _ _ => ∀ r ∈ s.rpcs[k]?, r.Fits s
  | _ => True

/-- Calls that write the log succeed or kill the process, and deliveries fit. -/
def Durable (s : State) (a : Action) : Prop := a.io.LogWrites ∧ a.Fits s

variable {cfg : Config} {s t : State} {a : Action} {p i k q j : ℕ} {io : Io} {n : Node} {e : Effect}
  {fail : Call → Bool} {l : RaftLog} {req : AppendEntriesRequest} {resp : Response} {r : Rpc}
  {acts : List Action}

/-! ## From memory to disk -/

/-- What the log in memory covers, its disk covers. -/
theorem Tracks.covered {d : Disk} (h : Tracks l d) (hwf : l.WF) {body : Body}
    (hc : body.Covered l i) : body.Covered d.recovered i := by
  have h1 := h.first_le
  have h2 := h.recovered_first hwf
  have h3 := h.recovered_last hwf
  cases body with
  | replicate req =>
    refine ⟨hc.1.trans h3, fun e he => ?_⟩
    by_cases hi : e.index ≤ d.image.index
    · exact Or.inl (h2 ▸ hi)
    · rw [h.recovered_entry hwf (by omega)]
      exact (hc.2 e he).imp_left fun hle => absurd hle (by omega)
  | snapshot req =>
    refine ⟨hc.1.trans h3, ?_⟩
    by_cases hi : req.lastIncludedIndex ≤ d.image.index
    · exact Or.inl (h2 ▸ hi)
    · rw [(h.recovered_wf hwf).term_entry (by omega), h.recovered_entry hwf (by omega),
        ← hwf.term_entry (by omega)]
      exact hc.2.imp_left fun hle => absurd hle (by omega)
  | preVote => exact hc
  | vote => exact hc
  | heartbeat => exact hc

/-! ## What an acknowledgement says about the log in memory -/

/-- The log `l` up to the `k`th entry of the request, and the rest of the request behind it. -/
theorem covered_append (hreq : req.Consecutive) {l' : RaftLog} (hwf : l'.WF)
    (hk : k ≤ req.entries.length) (hlast : l'.lastIndex = req.prevLogIndex + k)
    (hold : ∀ i e, i < k → req.entries[i]? = some e →
      e.index ≤ l'.firstIndex ∨ l'.entry e.index = some e) :
    (Body.replicate req).Covered (l'.append (req.entries.drop k))
      (req.prevLogIndex + req.entries.length) := by
  have hwf' : (l'.append (req.entries.drop k)).WF := hwf.append (hlast ▸ hreq.drop k)
  have hlen := hwf.lastIndex
  refine ⟨?_, fun e he => ?_⟩
  · rw [hwf'.lastIndex, RaftLog.append_reals, List.length_append, List.length_drop,
      RaftLog.append_firstIndex]
    omega
  · obtain ⟨i, hi⟩ := List.mem_iff_getElem?.mp he
    have hidx := hreq i e hi
    by_cases hf : e.index ≤ l'.firstIndex
    · exact Or.inl hf
    right
    by_cases hik : i < k
    · rw [hwf.entry_append (by omega) (by omega)]
      exact (hold i e hik hi).resolve_left hf
    · have := hwf.entry_append_new (req.entries.drop k) (i - k)
      rw [List.getElem?_drop, show k + (i - k) = i by omega, hi, hlast] at this
      rwa [hidx, show req.prevLogIndex + 1 + i = req.prevLogIndex + k + 1 + (i - k) by omega]

theorem Node.appendNew_log (hf : Writes fail) (n : Node) (req : AppendEntriesRequest)
    (new : List LogEntry) : (n.appendNew fail req new).1.node.log = n.log.append new := by
  unfold Node.appendNew
  split
  · rename_i hnil
    simp [hnil, RaftLog.append]
  · simp [hf (.appendEntries new) (by simp)]

theorem Node.mergeEntries_covered (hf : Writes fail) (hn : n.Sane) (hreq : req.Consecutive)
    (hle : req.prevLogIndex ≤ n.log.lastIndex)
    (hfit : ∀ e ∈ req.entries, n.log.firstIndex < e.index →
      n.log.term e.index = some e.term → n.log.entry e.index = some e) :
    (Body.replicate req).Covered (n.mergeEntries fail req).1.node.log
      (req.prevLogIndex + req.entries.length) := by
  obtain ⟨k, hk, hnew, hold, hstop⟩ := mergeLoop_walk hn.wf req.entries req.prevLogIndex hreq hle
  have hheld : ∀ i e, i < k → req.entries[i]? = some e →
      e.index ≤ n.log.firstIndex ∨ n.log.entry e.index = some e := by
    intro i e hi he
    by_cases hfirst : e.index ≤ n.log.firstIndex
    · exact Or.inl hfirst
    · exact Or.inr (hfit e (List.mem_of_getElem? he) (by omega)
        ((hold i e hi he).resolve_left hfirst))
  unfold Node.mergeEntries
  generalize mergeLoop n.log req.entries = res at hnew hstop ⊢
  obtain ⟨cut, new⟩ := res
  simp only at hnew hstop
  subst hnew
  cases hstop with
  | done h hlast =>
    -- everything was there
    rw [appendNew_log hf, List.drop_of_length_le h.ge]
    refine ⟨by simpa [RaftLog.append, ← h] using hlast, fun e he => ?_⟩
    obtain ⟨i, hi⟩ := List.mem_iff_getElem?.mp he
    simpa [RaftLog.append] using hheld i e (h ▸ (List.getElem?_eq_some_iff.mp hi).1) hi
  | past _ hlast =>
    rw [appendNew_log hf]
    exact covered_append hreq hn.wf hk hlast hheld
  | conflict _ hfirst hlast _ =>
    set i := req.prevLogIndex + 1 + k with hi
    simp only [hf (.truncateFrom i) (by simp), Bool.false_eq_true, if_false, Effect.after_node]
    rw [appendNew_log hf]
    refine covered_append hreq (hn.wf.truncateFrom i) hk ?_ fun j e hj he => ?_
    · rw [hn.wf.truncate_last (by omega) (by omega)]
      omega
    · have hidx := hreq j e he
      by_cases hle : e.index ≤ n.log.firstIndex
      · exact Or.inl hle
      · rw [RaftLog.entry_truncate (by omega) (by omega)]
        exact Or.inr ((hheld j e hj he).resolve_left hle)

theorem Node.adoptTerm_frame (n : Node) (t : ℕ) : (n.adoptTerm t).node.log = n.log ∧
    (n.adoptTerm t).node.commitIndex = n.commitIndex ∧
    (n.adoptTerm t).node.currentTerm = max n.currentTerm t := by
  unfold Node.adoptTerm
  split
  · exact ⟨rfl, rfl, by simp only [becomeFollowerLocked]; omega⟩
  · exact ⟨rfl, rfl, by simp only; omega⟩

theorem Node.handleAppendEntries_covered (hf : Writes fail) (hn : n.Sane) (hreq : req.Consecutive)
    (hfit : ∀ e ∈ req.entries, n.log.firstIndex < e.index →
      n.log.term e.index = some e.term → n.log.entry e.index = some e)
    (h : (n.handleAppendEntries fail req).2.success = true) :
    (Body.replicate req).Covered (n.handleAppendEntries fail req).1.node.log
      (req.prevLogIndex + req.entries.length) := by
  have hm := hn.same (n.adoptTerm_stays req.term).same
  obtain ⟨hlog, -, -⟩ := n.adoptTerm_frame req.term
  unfold Node.handleAppendEntries at h ⊢
  split
  · simp_all
  rename_i hs
  simp only [hs, Bool.false_eq_true, if_false] at h ⊢
  split
  · simp_all
  rename_i ht
  simp only [ht, if_false] at h
  unfold Node.appendLocked at h ⊢
  split
  · simp_all
  rename_i hlast
  simp only [hlast, if_false] at h
  split
  · simp_all [Node.conflict]
  refine mergeEntries_covered (n := (n.adoptTerm req.term).node.followLeader req.leaderId) hf
    ⟨hm.wf, hm.first_le, hm.applied_le⟩ hreq (not_lt.mp hlast) ?_
  simpa only [Node.followLeader, hlog] using hfit

/-- An InstallSnapshot answered in its own term is installed, or was not needed. -/
theorem Node.handleInstallSnapshot_covered (hf : Writes fail) (hn : n.Sane)
    {req : InstallSnapshotRequest}
    (hfit : n.stopped ∨ req.lastIncludedIndex ≤ n.commitIndex →
      req.lastIncludedIndex ≤ n.log.firstIndex ∨
        n.log.term req.lastIncludedIndex = some req.lastIncludedTerm)
    (h : (n.handleInstallSnapshot fail req).2.term ≤ req.term) :
    (Body.snapshot req).Covered (n.handleInstallSnapshot fail req).1.node.log
      req.lastIncludedIndex := by
  have hfirst : ∀ {l : RaftLog}, l.WF → l.firstIndex ≤ l.lastIndex := fun hl => by
    rw [hl.lastIndex]
    omega
  have hskip : n.stopped ∨ req.lastIncludedIndex ≤ n.commitIndex →
      (Body.snapshot req).Covered n.log req.lastIncludedIndex := by
    intro hs
    refine ⟨?_, hfit hs⟩
    rcases hfit hs with hle | ht
    · exact hle.trans (hfirst hn.wf)
    · by_contra hlt
      rw [RaftLog.term, if_pos (Or.inr (by omega))] at ht
      cases ht
  have hm := hn.same (n.adoptTerm_stays req.term).same
  obtain ⟨hlog, hci, hterm⟩ := n.adoptTerm_frame req.term
  unfold Node.handleInstallSnapshot at h ⊢
  split
  · rename_i hs
    exact hskip (Or.inl hs)
  rename_i hs
  simp only [hs, Bool.false_eq_true, if_false] at h ⊢
  split
  · rename_i ht
    simp only [ht, if_true] at h
    omega
  unfold Node.installLocked
  simp only [Node.followLeader, hlog, hci]
  split
  · rename_i hle
    simpa only [Effect.after_node, hlog] using hskip (Or.inr hle)
  rename_i hlt
  have hlt' : n.log.firstIndex < req.lastIncludedIndex := by
    have := hn.first_le
    omega
  simp only [hf (.saveSnapshot _ _ _ _) (by simp), Bool.false_eq_true, if_false,
    Effect.after_node]
  have hwf := hn.wf.compactTo_wf req.lastIncludedIndex req.lastIncludedTerm
  have hfi : (n.log.compactTo req.lastIncludedIndex req.lastIncludedTerm).firstIndex =
      req.lastIncludedIndex := by
    rw [hn.wf.compactTo hlt']
    rfl
  exact ⟨hfi.ge.trans (hfirst hwf), Or.inl hfi.ge⟩

/-! ## Raising a match index -/

def Effect.NoRaise (n : Node) (e : Effect) : Prop :=
  e.node.matchIndex = n.matchIndex ∨ e.node.matchIndex = fun _ => 0

theorem Effect.NoRaise.le (h : e.NoRaise n) (q : ℕ) : e.node.matchIndex q ≤ n.matchIndex q := by
  rcases h with h | h <;> simp [h]

theorem Node.startElection_noRaise (n : Node) : (n.startElectionLocked fail).NoRaise n := by
  unfold Node.startElectionLocked
  simp only
  split
  · exact Or.inl rfl
  split
  · exact Or.inr rfl
  · exact Or.inl rfl

theorem Node.startPreVote_noRaise (n : Node) : (n.startPreVoteLocked fail).NoRaise n := by
  unfold Node.startPreVoteLocked
  simp only
  split
  · exact startElection_noRaise _
  · exact Or.inl rfl

theorem Node.adoptTerm_match (n : Node) (t : ℕ) :
    (n.adoptTerm t).node.matchIndex = n.matchIndex := by
  unfold Node.adoptTerm
  split <;> rfl

theorem Node.handleRequestVote_noRaise (n : Node) (recent : Bool) (req : RequestVoteRequest) :
    (n.handleRequestVote fail recent req).1.NoRaise n := by
  unfold Node.handleRequestVote
  split
  · exact Or.inl rfl
  split
  · exact Or.inl rfl
  split
  · exact Or.inl rfl
  simp only
  split
  · exact Or.inl (n.adoptTerm_match _)
  · unfold Node.castVote
    split
    · exact Or.inl (n.adoptTerm_match _)
    split
    · exact Or.inl (n.adoptTerm_match _)
    simp only
    split <;> exact Or.inl (n.adoptTerm_match _)

theorem Node.appendNew_match (n : Node) (req : AppendEntriesRequest) (new : List LogEntry) :
    (n.appendNew fail req new).1.node.matchIndex = n.matchIndex := by
  have hadv : ∀ m : Node, (m.advanceCommit req).matchIndex = m.matchIndex := fun m => by
    unfold Node.advanceCommit
    split <;> rfl
  unfold Node.appendNew
  split
  · exact hadv n
  simp only
  split
  · rfl
  · exact hadv _

theorem Node.handleAppendEntries_noRaise (n : Node) (req : AppendEntriesRequest) :
    (n.handleAppendEntries fail req).1.NoRaise n := by
  unfold Node.handleAppendEntries
  split
  · exact Or.inl rfl
  simp only
  split
  · exact Or.inl (n.adoptTerm_match _)
  refine Or.inl (Eq.trans ?_ (n.adoptTerm_match req.term))
  unfold Node.appendLocked
  split
  · rfl
  split
  · rfl
  unfold Node.mergeEntries
  split
  · exact appendNew_match ..
  simp only
  split
  · rfl
  · exact appendNew_match ..

theorem Node.handleInstallSnapshot_noRaise (n : Node) (req : InstallSnapshotRequest) :
    (n.handleInstallSnapshot fail req).1.NoRaise n := by
  unfold Node.handleInstallSnapshot
  split
  · exact Or.inl rfl
  simp only
  split
  · exact Or.inl (n.adoptTerm_match _)
  refine Or.inl (Eq.trans ?_ (n.adoptTerm_match req.term))
  unfold Node.installLocked
  split
  · rfl
  simp only
  split <;> rfl

theorem handle_noRaise (io : Io) (recent : Bool) (n : Node) (body : Body) :
    (handle io recent n body).1.NoRaise n := by
  cases body with
  | preVote _ _ req => exact n.handleRequestVote_noRaise recent req
  | vote req => exact n.handleRequestVote_noRaise recent req
  | replicate req => exact n.handleAppendEntries_noRaise req
  | heartbeat req => exact n.handleAppendEntries_noRaise req
  | snapshot req => exact n.handleInstallSnapshot_noRaise req

inductive Raises (i : ℕ) : Body → Response → Prop
  | append {req : AppendEntriesRequest} {resp : AppendEntriesResponse} : resp.success = true →
      i = req.prevLogIndex + req.entries.length → Raises i (.replicate req) (.append resp)
  | install {req : InstallSnapshotRequest} {resp : InstallSnapshotResponse} :
      resp.term ≤ req.term → i = req.lastIncludedIndex → Raises i (.snapshot req) (.install resp)

theorem Node.raiseMatch_match {peer idx : ℕ}
    (h : n.matchIndex q < (n.raiseMatch peer idx).matchIndex q) :
    peer = q ∧ (n.raiseMatch peer idx).matchIndex q = idx := by
  simp only [raiseMatch, Function.update_apply] at h ⊢
  split
  · rename_i hq
    rw [if_pos hq] at h
    subst hq
    exact ⟨rfl, by omega⟩
  · rename_i hq
    rw [if_neg hq] at h
    omega

theorem receive_raises {peer : ℕ} {body : Body} (h : receive io n peer body resp = some e)
    (hlt : n.matchIndex q < e.node.matchIndex q) :
    peer = q ∧ Raises (e.node.matchIndex q) body resp := by
  have hno : ∀ {e : Effect}, e.NoRaise n → ¬ n.matchIndex q < e.node.matchIndex q :=
    fun hr => not_lt.mpr (hr.le q)
  cases receive_cases h with
  | stands => exact absurd hlt (hno (Node.startElection_noRaise _))
  | wins => exact absurd hlt (hno (Or.inr rfl))
  | acked _ _ hok =>
    have hkeep : ∀ m : Node, m.maybeAdvanceCommitLocked.matchIndex = m.matchIndex := fun m => by
      unfold Node.maybeAdvanceCommitLocked
      split <;> rfl
    simp only [hkeep] at hlt ⊢
    obtain ⟨hq, hi⟩ := Node.raiseMatch_match hlt
    exact ⟨hq, .append hok hi⟩
  | installed _ hterm hle =>
    obtain ⟨hq, hi⟩ := Node.raiseMatch_match hlt
    exact ⟨hq, .install (hterm ▸ hle) hi⟩
  | ignored | outvoted | polled | voted | refused => exact absurd hlt (hno (Or.inl rfl))

theorem Section.raises (h : Section cfg s n a p io e t)
    (hlt : n.matchIndex q < e.node.matchIndex q) : ∃ k j r resp, a = .respond k j io ∧
      s.rpcs[k]? = some r ∧ r.resps[j]? = some resp ∧ r.src = p ∧ r.dst = q ∧
        Raises (e.node.matchIndex q) r.body resp := by
  have hno : e.NoRaise n → ∃ k j r resp, a = .respond k j io ∧ s.rpcs[k]? = some r ∧
      r.resps[j]? = some resp ∧ r.src = p ∧ r.dst = q ∧ Raises (e.node.matchIndex q) r.body resp :=
    fun hr => absurd (hr.le q) (not_le.mpr hlt)
  cases h with
  | tick he =>
    obtain ⟨-, rfl⟩ := Node.timeout_some he
    exact hno (Node.startPreVote_noRaise _)
  | stepDown he =>
    obtain ⟨-, rfl⟩ := Node.resign_some he
    exact hno (Or.inl rfl)
  | deliver _ => exact hno (handle_noRaise ..)
  | respond hr hresp _ _ he =>
    obtain ⟨hq, hraise⟩ := receive_raises he hlt
    exact ⟨_, _, _, _, rfl, hr, hresp, rfl, hq, hraise⟩
  | propose =>
    refine hno (Or.inl ?_)
    unfold Node.commitPropBatch
    split
    · rfl
    simp only
    split <;> rfl
  | replicate _ he =>
    obtain ⟨-, -, rfl | ⟨_, -, -, rfl⟩ | ⟨-, rfl⟩⟩ := Node.replicateOnce_cases he <;>
      exact hno (Or.inl rfl)
  | heartbeat _ he =>
    obtain ⟨-, -, -, rfl⟩ := Node.heartbeatAck_cases he
    exact hno (Or.inl rfl)
  | lease => exact hno (Or.inl rfl)
  | snapshot =>
    refine hno (Or.inl ?_)
    unfold Node.snapshot
    split
    · rfl
    split
    · rfl
    split
    · rfl
    simp only
    split <;> rfl

theorem handle_covered (hio : io.LogWrites) {recent : Bool} (hn : s.node r.dst = some n)
    (hsane : n.Sane) (hr : r.body.Consecutive) (hfit : r.Fits s)
    (h : Raises i r.body (handle io recent n r.body).2) :
    r.body.Covered (handle io recent n r.body).1.node.log i := by
  unfold Rpc.Fits at hfit
  cases hb : r.body with
  | replicate req =>
    simp only [hb, hn, handle] at h hfit hr ⊢
    cases h with
    | append hok hi => exact hi ▸ Node.handleAppendEntries_covered hio.writes hsane hr hfit hok
  | snapshot req =>
    simp only [hb, hn, handle] at h hfit ⊢
    cases h with
    | install ht hi => exact hi ▸ Node.handleInstallSnapshot_covered hio.writes hsane hfit ht
  | preVote _ _ req => rw [hb] at h; cases h
  | vote req => rw [hb] at h; cases h
  | heartbeat req => rw [hb] at h; cases h

/-! ## The step in which an answer was given -/

/-- On the way to `s` the run gave answer `j` to RPC `k` in its step into `t`. -/
inductive Answered (cfg : Config) (P : State → Action → Prop) (acts : List Action) (s : State)
    (k j : ℕ) (r : Rpc) (resp : Response) (t : State) : Prop
  | mk {before after : List Action} {s₀ : State} {r₀ : Rpc} {n₀ : Node} {recent : Bool} {io : Io}
      (acts_eq : acts = before ++ .deliver k recent io :: after)
      (run : Run (step cfg) P cfg.init before s₀) (good : P s₀ (.deliver k recent io))
      (step : step cfg s₀ (.deliver k recent io) = some t) (alive : io.crash = none)
      (rpc : s₀.rpcs[k]? = some r₀) (same : r₀.Same r) (place : r₀.resps.length = j)
      (node : s₀.node r.dst = some n₀) (resp_eq : resp = (handle io recent n₀ r.body).2)
      (rest : Run (KMC.step cfg) P t after s)

theorem Answered.snoc {P : State → Action → Prop} {r' : Rpc} {u : State}
    (h : Answered cfg P acts s k j r resp u) (hP : P s a) (hs : step cfg s a = some t)
    (hr : r.Same r') : Answered cfg P (acts ++ [a]) t k j r' resp u := by
  obtain ⟨hacts, hrun, hgood, hstep, halive, hrpc, hsame, hplace, hnode, hresp, hrest⟩ := h
  rw [← hr.dst] at hnode
  rw [← hr.body] at hresp
  exact ⟨by rw [hacts]; simp, hrun, hgood, hstep, halive, hrpc, hsame.trans hr, hplace, hnode,
    hresp, hrest.snoc hP hs⟩

theorem answered_of_run {P : State → Action → Prop} (h : Run (step cfg) P cfg.init acts s)
    (hr : s.rpcs[k]? = some r) (hj : r.resps[j]? = some resp) :
    ∃ t, Answered cfg P acts s k j r resp t := by
  induction h generalizing r with
  | nil => simp [Config.init] at hr
  | @snoc acts s t a hrun hP hs ih =>
    rcases step_cases hs with ⟨p, io, n, e, hn, hsec⟩ | ⟨p, srv, -, rfl⟩
    · cases hsec.origin hn hr with
      | old r₀ hr₀ hsame hres =>
        obtain ⟨u, hu⟩ := ih hr₀ (hres ▸ hj)
        exact ⟨u, hu.snoc hP hs hsame⟩
      | answered r₀ recent n₀ hr₀ hsame ha halive hn₀ hres =>
        by_cases hlt : j < r₀.resps.length
        · rw [hres, List.getElem?_append_left hlt] at hj
          obtain ⟨u, hu⟩ := ih hr₀ hj
          exact ⟨u, hu.snoc hP hs hsame⟩
        · -- the answer of this very step
          have hlen := (List.getElem?_eq_some_iff.mp hj).1
          rw [hres, List.length_append, List.length_singleton] at hlen
          obtain rfl : j = r₀.resps.length := by omega
          rw [hres, List.getElem?_concat_length] at hj
          subst ha
          rw [← hsame.dst] at hn₀
          rw [← hsame.body] at hj
          exact ⟨t, rfl, hrun, hP, hs, halive, hr₀, hsame, rfl, hn₀, (Option.some.inj hj).symm,
            .nil⟩
      | sent q body _ _ _ hr' => simp [hr'] at hj
    · obtain ⟨u, hu⟩ := ih hr hj
      exact ⟨u, hu.snoc hP hs (.refl r)⟩

/-- In the state an acknowledgement leaves, the disk of its sender covers the request. -/
theorem Answered.covered (h : Answered cfg Durable acts s k j r resp t)
    (hraise : Raises i r.body resp) : r.body.Covered (t.servers r.dst).disk.recovered i := by
  obtain @⟨_, _, s₀, r₀, n₀, recent, io, -, hrun, ⟨hio, hfit⟩, hstep, halive, hrpc, hsame, -, hnode,
    rfl, -⟩ := h
  rw [hsame.dst] at hnode ⊢
  rw [hsame.body] at hraise ⊢
  have hrec := (recorded_init cfg).run (P := Durable) (fun _ _ hP => hP.1.tidy) hrun
  have hsec : Section cfg s₀ n₀ (.deliver k recent io) r₀.dst io (handle io recent n₀ r₀.body).1
      t := by
    simp only [KMC.step, hrpc, hnode, Option.bind_eq_bind, Option.bind_some,
      Option.pure_def] at hstep
    rw [← Option.some.inj hstep]
    exact .deliver hrpc
  obtain ⟨hsane, htr, -, -⟩ := hrec.section hnode hsec hio.tidy
  rcases hsec.server with ⟨-, hsrv⟩ | ⟨_, _, hc, -⟩
  · rw [hsrv]
    exact htr.covered hsane.wf (handle_covered hio hnode (hrec.up _ _ hnode).1
      (hrec.rpc k r₀ hrpc) (hfit r₀ hrpc) hraise)
  · rw [halive] at hc
    cases hc

/-! ## The result -/

/-- Whenever a leader raises a match index, the disk of the peer covered the request when the
peer answered. -/
theorem acked_durable {acts : List Action} {s' : State} {q : ℕ} {n' : Node}
    (hrun : Run (step cfg) Durable cfg.init acts s) (hs : step cfg s a = some s')
    (hn : s.node p = some n) (hn' : s'.node p = some n') (hlt : n.matchIndex q < n'.matchIndex q) :
    ∃ k j io r resp t, a = .respond k j io ∧ s.rpcs[k]? = some r ∧ r.src = p ∧ r.dst = q ∧
      r.resps[j]? = some resp ∧ Answered cfg Durable acts s k j r resp t ∧
        r.body.Covered (t.servers q).disk.recovered (n'.matchIndex q) := by
  rcases step_cases hs with ⟨p', io, m, e, hm, hsec⟩ | ⟨p', srv, hch, rfl⟩
  · by_cases hp : p = p'
    · subst hp
      obtain rfl := Option.mem_unique hn hm
      rcases hsec.server with ⟨-, hsrv⟩ | ⟨_, _, -, hsrv⟩ <;> rw [State.node, hsrv] at hn'
      · obtain rfl := Option.some.inj hn'
        obtain ⟨k, j, r, resp, rfl, hr, hj, rfl, rfl, hraise⟩ := hsec.raises hlt
        obtain ⟨t, ht⟩ := answered_of_run hrun hr hj
        exact ⟨k, j, io, r, resp, t, rfl, hr, rfl, rfl, hj, ht, ht.covered hraise⟩
      · cases hn'
    · rw [State.node, hsec.other hp, ← State.node, hn] at hn'
      obtain rfl := Option.some.inj hn'
      exact absurd hlt (lt_irrefl _)
  · -- outside of the mutex no match index changes
    refine absurd hlt (not_lt.mpr ?_)
    by_cases hp : p = p'
    · subst hp
      simp only [State.node, State.setServer, Function.update_self] at hn'
      cases hch with
      | applierTake hm htake _ =>
        obtain rfl := Option.mem_unique hn hm
        obtain rfl := Option.some.inj hn'
        obtain ⟨_, -, rfl, -⟩ | ⟨-, rfl, -⟩ := Node.applierTake_cases htake <;> exact le_rfl
      | applierSend hm _ =>
        obtain rfl := Option.mem_unique hn hm
        obtain rfl := Option.some.inj hn'
        exact le_rfl
      | crash _ => cases hn'
      | restart _ hm => rw [hm] at hn; cases hn
      | stop hm =>
        obtain rfl := Option.mem_unique hn hm
        obtain rfl := Option.some.inj hn'
        exact le_rfl
    · simp only [State.node, State.setServer, Function.update_of_ne hp] at hn'
      obtain rfl := Option.mem_unique hn hn'
      exact le_rfl

instance (s : State) (r : Rpc) : Decidable (r.Fits s) := by
  unfold Rpc.Fits
  split <;> infer_instance

instance (s : State) (a : Action) : Decidable (a.Fits s) := by
  unfold Action.Fits
  split <;> infer_instance

/-- Node 1 of a pair hears that node 2 has its first entry. -/
theorem acked_durable_pair : ∃ acts s a s' n n', Run (step .pair) Durable Config.pair.init acts s ∧
    step .pair s a = some s' ∧ s.node 1 = some n ∧ s'.node 1 = some n' ∧
    n.matchIndex 2 < n'.matchIndex 2 ∧
    ∃ k j io r resp t, a = .respond k j io ∧ s.rpcs[k]? = some r ∧ r.src = 1 ∧ r.dst = 2 ∧
      r.resps[j]? = some resp ∧ Answered .pair Durable acts s k j r resp t ∧
        r.body.Covered (t.servers 2).disk.recovered (n'.matchIndex 2) := by
  have hrun := Run.get (step .pair) Durable Config.pair.init
    (electFirst ++ [.propose 1 [[7]] {}, .replicate 1 2, .deliver 2 false {}])
    (.and (.of_forall (by simp [electFirst, Io.LogWrites, Action.io]) _) (by decide)) rfl
  refine ⟨_, _, .respond 2 0 {}, _, _, _, hrun, (Option.some_get rfl).symm, rfl, rfl, by decide, ?_⟩
  exact acked_durable hrun (Option.some_get rfl).symm rfl rfl (by decide)

/-- Node 2 of a pair fails to persist the first entry it is sent, and is sent it once more. -/
def retransmission : List Action :=
  electFirst ++ [.propose 1 [[7]] {}, .replicate 1 2,
    .deliver 2 false { fault := fun | .appendEntries _ => some 0 | _ => none }, .respond 2 0 {},
    .replicate 1 2]

/-- The retransmission is acknowledged from memory: the disk of node 2 is still empty. -/
theorem acked_not_durable : ∃ acts s a s' n n' k j io r resp t,
    Run (step .pair) (fun _ _ => True) Config.pair.init acts s ∧ step .pair s a = some s' ∧
    s.node 1 = some n ∧ s'.node 1 = some n' ∧ n.matchIndex 2 < n'.matchIndex 2 ∧
    a = .respond k j io ∧ s.rpcs[k]? = some r ∧ r.src = 1 ∧ r.dst = 2 ∧ r.resps[j]? = some resp ∧
    Answered .pair (fun _ _ => True) acts s k j r resp t ∧
    ¬ r.body.Covered (t.servers 2).disk.recovered (n'.matchIndex 2) := by
  have hrun := Run.get (step .pair) (fun _ _ => True) Config.pair.init retransmission
    (.of_forall (by simp) _) rfl
  let t := (step .pair ((exec (step .pair) Config.pair.init retransmission).get rfl)
    (.deliver 3 false {})).get rfl
  have ht : step .pair _ (.deliver 3 false {}) = some t := (Option.some_get rfl).symm
  refine ⟨_, t, .respond 3 0 {}, _, _, _, 3, 0, {}, _, _, t, hrun.snoc trivial ht,
    (Option.some_get rfl).symm, rfl, rfl, by decide, rfl, rfl, rfl, rfl, rfl, ?_, ?_⟩
  · exact ⟨rfl, hrun, trivial, ht, rfl, rfl, ⟨rfl, rfl, rfl, rfl, id⟩, rfl, rfl, rfl, .nil⟩
  · rintro ⟨h, -⟩
    exact absurd h (by decide)

end KMC
