import KillMyCluster.Sim.Run

/-! Refusals of AppendEntries and what the leader makes of them. The hint of a refusal, read with
the leader's log, leads strictly below the probed index: by log matching the leader has no entry of
the conflicting term from there on. And a follower never refuses at an index that it has committed
or acknowledged. -/

namespace KMC

open LeaderLog

/-! ## Hints -/

/-- The hint, read with the log of the leader, leads below the probed index. -/
structure AppendEntriesResponse.Lowers (resp : AppendEntriesResponse) (log : RaftLog) (prev : ℕ) :
    Prop where
  pos : 1 ≤ prev
  index_ne : resp.conflictIndex ≠ 0
  index_le : resp.conflictIndex ≤ prev
  term : resp.conflictTerm ≠ 0 → log.lastIndexOfTerm resp.conflictTerm < prev

theorem AppendEntriesResponse.Lowers.backUp_le {n : Node} {resp : AppendEntriesResponse} {prev : ℕ}
    (h : resp.Lowers n.log prev) (q : ℕ) : n.backUp q resp ≤ prev := by
  have h1 := h.pos
  have h2 := h.index_le
  unfold Node.backUp
  simp only [h.index_ne, ne_eq, not_false_eq_true, if_true]
  split
  · rename_i hct
    have := h.term hct
    split <;> omega
  · omega

theorem Node.appendNew_success (n : Node) (req : AppendEntriesRequest) (new : List LogEntry) :
    (n.appendNew noFail req new).2 = { term := n.currentTerm, success := true } := by
  unfold Node.appendNew
  split
  · rfl
  · simp [noFail]

theorem Node.mergeEntries_success (n : Node) (req : AppendEntriesRequest) :
    (n.mergeEntries noFail req).2 = { term := n.currentTerm, success := true } := by
  unfold Node.mergeEntries
  split
  · exact n.appendNew_success req _
  · simp only [noFail, Bool.false_eq_true, if_false]
    exact Node.appendNew_success _ req _

inductive Node.Refusal (n : Node) (req : AppendEntriesRequest) (resp : AppendEntriesResponse) : Prop
  | short : n.log.lastIndex < req.prevLogIndex → resp.conflictTerm = 0 →
      resp.conflictIndex = n.log.lastIndex + 1 → Refusal n req resp
  | conflict {t : ℕ} : n.log.firstIndex ≤ req.prevLogIndex → n.log.term req.prevLogIndex = some t →
      t ≠ req.prevLogTerm → resp.conflictTerm = t →
      resp.conflictIndex = (if n.log.firstIndexOfTerm t = 0 then n.log.firstIndex + 1
        else n.log.firstIndexOfTerm t) → Refusal n req resp

theorem Node.appendLocked_reply {n : Node} (hwf : n.log.WF) (req : AppendEntriesRequest) :
    (n.appendLocked noFail req).2.term = n.currentTerm ∧
      ((n.appendLocked noFail req).2.success = false →
        n.Refusal req (n.appendLocked noFail req).2) := by
  unfold Node.appendLocked
  split
  · exact ⟨rfl, fun _ => .short ‹_› rfl rfl⟩
  rename_i hlast
  split
  · rename_i hc
    obtain ⟨t, ht⟩ := hwf.term_held hc.1 (not_lt.mp hlast)
    refine ⟨rfl, fun _ => .conflict (t := t) hc.1 ht (fun heq => hc.2 (heq ▸ ht)) ?_ ?_⟩ <;>
      simp [Node.conflict, ht]
  · rw [n.mergeEntries_success req]
    exact ⟨rfl, fun h => by cases h⟩

theorem Node.handleAppendEntries_reply {n : Node} (req : AppendEntriesRequest) (hwf : n.log.WF)
    (hst : n.stopped = false) (ht : n.currentTerm ≤ req.term) :
    (n.handleAppendEntries noFail req).2.term = req.term ∧
      ((n.handleAppendEntries noFail req).2.success = false →
        n.Refusal req (n.handleAppendEntries noFail req).2) := by
  have hlog := n.adoptTerm_log req.term
  have hterm : (n.adoptTerm req.term).node.currentTerm = req.term := by
    rw [n.adoptTerm_term]
    omega
  unfold Node.handleAppendEntries
  rw [if_neg (by simp [hst])]
  simp only
  rw [if_neg (by omega)]
  set m := (n.adoptTerm req.term).node.followLeader req.leaderId with hm
  have hml : m.log = n.log := hlog
  obtain ⟨h1, h2⟩ := Node.appendLocked_reply (n := m) (hml ▸ hwf) req
  refine ⟨h1.trans hterm, fun hs => ?_⟩
  cases h2 hs with
  | short h3 h4 h5 => exact .short (hml ▸ h3) h4 (hml ▸ h5)
  | conflict h3 h4 h5 h6 h7 => exact .conflict (hml ▸ h3) (hml ▸ h4) h5 h6 (hml ▸ h7)

/-- A follower that writes reliably has what it answered a snapshot for. -/
theorem Node.handleInstallSnapshot_reply {n : Node} (req : InstallSnapshotRequest)
    (hst : n.stopped = false) (ht : n.currentTerm ≤ req.term) :
    (n.handleInstallSnapshot noFail req).2.term = req.term ∧
      req.lastIncludedIndex ≤ (n.handleInstallSnapshot noFail req).1.node.commitIndex := by
  have hterm : (n.adoptTerm req.term).node.currentTerm = req.term := by
    rw [n.adoptTerm_term]
    omega
  unfold Node.handleInstallSnapshot
  rw [if_neg (by simp [hst])]
  simp only
  rw [if_neg (by omega)]
  simp only [Effect.after_node]
  unfold Node.installLocked
  split
  · exact ⟨hterm, ‹_›⟩
  · exact ⟨hterm, le_rfl⟩

/-! ## What a follower does not refuse -/

variable {K : Setting} {g g' : Ghost} {floor : ℕ → ℕ} {p q T i : ℕ} {n m : Node} {d : Disk}
  {ms : List ApplyMsg}

/-- Node `q` has committed or acknowledged the log of term `T` up to `i`. -/
def Caught (g : Ghost) (T q : ℕ) (m : Node) (i : ℕ) : Prop := i ≤ m.commitIndex ∨ i ≤ g.ack T q

theorem Caught.shorter {j : ℕ} (h : Caught g T q m i) (hj : j ≤ i) : Caught g T q m j :=
  h.imp hj.trans hj.trans

/-- The log of the follower agrees with that of the term as far as it has caught up, the term of
its sentinel included. -/
theorem Setting.Up.caught (hi : K.cfg.Inv g) (h : K.Up g floor q m d ms) (hT : m.currentTerm ≤ T)
    (hled : g.leader T ≠ none) (hc : Caught g T q m i) :
    i ≤ m.log.lastIndex ∧
      (m.log.firstIndex ≤ i → m.log.term i = some (logTerm ((g.tlog T).take i))) ∧
      (m.log.firstIndex < i → m.log.entry i = (g.tlog T)[i - 1]?) := by
  obtain ⟨c, hb, hlen⟩ := h.core.base
  have hpre : c <+: g.tlog T :=
    hi.committed_tlog (hb.committed.mono hi (Grows.refl g) hT) hled
  have hlast := h.core.log.lastIndex
  have hcv := hb.le_length h.core.log
  have hfc := hb.first_le
  have hterm : ∀ {e : LogEntry}, m.log.firstIndex < i → (g.tlog T)[i - 1]? = some e →
      (g.log q)[i - 1]? = (g.tlog T)[i - 1]? →
      m.log.term i = some (logTerm ((g.tlog T).take i)) := by
    intro e hf he heq
    rw [h.core.log.term hf, heq, he, logTerm_take (by omega) he]
    rfl
  by_cases hci : i ≤ m.commitIndex
  · have hget : m.log.firstIndex < i → (g.log q)[i - 1]? = (g.tlog T)[i - 1]? := by
      intro hf
      obtain ⟨e, he⟩ := exists_getElem (show i - 1 < c.length by omega)
      rw [hb.getElem h.core.log (by omega) (by omega), he, prefix_getElem hpre he]
    refine ⟨by omega, fun hf => ?_, fun hf => by rw [h.core.log.entry hf, hget hf]⟩
    rcases hf.eq_or_lt with rfl | hf
    · rw [h.core.log.wf.term_first, hb.sentinel, prefix_take_take hpre hfc]
    · have := hpre.length_le
      obtain ⟨e, he⟩ := exists_getElem (show i - 1 < (g.tlog T).length by omega)
      exact hterm hf he (hget hf)
  · -- above what is committed the follower has acknowledged in this very term
    have hack : i ≤ g.ack T q := hc.resolve_left hci
    have hT' : g.term q = T := by
      have := hi.ack_term T q (by omega)
      rw [h.core.vote.term] at this ⊢
      omega
    have hpre' := hi.ack_now T q hT'
    have hlen' := hi.ack_len T q
    have hle := hpre'.length_le
    rw [List.length_take, min_eq_left hlen'] at hle
    obtain ⟨e, he⟩ := exists_getElem (show i - 1 < (g.tlog T).length by omega)
    have hget : (g.log q)[i - 1]? = (g.tlog T)[i - 1]? := by
      rw [he]
      refine prefix_getElem hpre' ?_
      rw [List.getElem?_take_of_lt (by omega), he]
    have hf : m.log.firstIndex < i := by omega
    exact ⟨by omega, fun _ => hterm hf he hget, fun _ => by rw [h.core.log.entry hf, hget]⟩

/-- A follower refuses only above what it has caught up with, and with a hint that lowers
`nextIndex`. -/
theorem Setting.Up.refusal (hi : K.cfg.Inv g) (h : K.Up g floor q m d ms)
    {req : AppendEntriesRequest} {resp : AppendEntriesResponse} (hreq : AppendOK g p req)
    (hT : m.currentTerm ≤ req.term) (hr : m.Refusal req resp) :
    ¬ Caught g req.term q m req.prevLogIndex ∧
      ∀ {log : RaftLog}, LogRel log (g.tlog req.term) → resp.Lowers log req.prevLogIndex := by
  have hled : g.leader req.term ≠ none := by simp [hreq.leader]
  have hno : ¬ Caught g req.term q m req.prevLogIndex := by
    intro hc
    obtain ⟨h1, h2, -⟩ := h.caught hi hT hled hc
    cases hr with
    | short hlt _ _ => omega
    | conflict hf ht hne _ _ =>
      rw [h2 hf, ← hreq.prevTerm] at ht
      exact hne (Option.some.inj ht).symm
  refine ⟨hno, fun {log} hlog => ?_⟩
  cases hr with
  | short hlt h0 hidx =>
    exact ⟨by omega, by omega, by omega, fun hne => absurd h0 hne⟩
  | @conflict t hf ht hne hct hidx =>
    have hf : m.log.firstIndex < req.prevLogIndex := by
      refine lt_of_le_of_ne hf fun heq => hno (.inl ?_)
      have h1 := h.first_le
      have h2 := h.applied_le
      omega
    have hle := h.core.log.wf.firstIndexOfTerm_le (h.sorted hi)
      (h.core.log.wf.mem_of_term hf ht)
    refine ⟨by omega, ?_, ?_, fun _ => ?_⟩
    · rw [hidx]
      split <;> omega
    · rw [hidx]
      split <;> omega
    rw [hct]
    -- an entry of the follower's term at or above the probed index would make the logs agree there
    by_contra hge
    obtain ⟨hfl, htl⟩ := hlog.wf.term_of_mem (RaftLog.lastIndexOfTerm_mem (t := t) (by omega))
    rw [hlog.term hfl] at htl
    obtain ⟨e', he', hte'⟩ := Option.map_eq_some_iff.mp htl
    rw [h.core.log.term hf] at ht
    obtain ⟨e, he, hte⟩ := Option.map_eq_some_iff.mp ht
    have htake := (hi.good_tlog req.term).take_eq (hi.good_log q).1
      (show req.prevLogIndex - 1 ≤ log.lastIndexOfTerm t - 1 by omega) he' he (hte'.trans hte.symm)
    have hget : (g.tlog req.term)[req.prevLogIndex - 1]? = some e := by
      have := congrArg (·[req.prevLogIndex - 1]?) htake
      simpa [List.getElem?_take_of_lt, he] using this
    rw [hreq.prevTerm, logTerm_take (by omega) hget] at hne
    exact hne hte.symm

end KMC
