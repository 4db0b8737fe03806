import KillMyCluster.Control.Audit

/-! The audit log over a sequence of observations: when it reports a change of leader, and when it
reports that the commit index stands still and that it moves again. -/

namespace KMC.ControlPlane

section Sequence

variable (obs : ℕ → Observation)

def auditAt : ℕ → AuditLog
  | 0 => .opened
  | n + 1 => ((auditAt n).observe (obs n)).1

def edgesAt (n : ℕ) : List AuditEntry := (auditAt obs n).edges (obs n)

def linesAt (n : ℕ) : List AuditEntry := ((auditAt obs n).observe (obs n)).2

def auditLines : ℕ → List AuditEntry
  | 0 => []
  | N + 1 => auditLines N ++ linesAt obs N

def leaderAt (n : ℕ) : ℕ := (obs n).snap.leaderID

def commitAt (n : ℕ) : ℕ := (obs n).commit

def nowAt (n : ℕ) : ℤ := (obs n).now

end Sequence

variable {obs : ℕ → Observation} {k m n N : ℕ} {e : AuditEntry}

namespace AuditLog

variable {a : AuditLog} {o : Observation}

theorem mem_quorumEdge (h : e ∈ a.quorumEdge o) :
    e.kind = .quorumRegained ∨ e.kind = .quorumLost := by
  unfold quorumEdge at h
  split at h
  · cases h
  split at h
  · rw [List.mem_singleton.mp h]
    exact .inl rfl
  · rw [List.mem_singleton.mp h]
    exact .inr rfl

theorem mem_leaderEdge (h : e ∈ a.leaderEdge o) : e.kind = .leaderChanged := by
  unfold leaderEdge at h
  split at h
  · rw [List.mem_singleton.mp h]
    rfl
  · cases h

theorem mem_stepdownEdge (h : e ∈ a.stepdownEdge o) : e.kind = .watchdogStepdown := by
  unfold stepdownEdge at h
  split at h
  · rw [List.mem_singleton.mp h]
    rfl
  · cases h

inductive Progress (a : AuditLog) (o : Observation) : ℤ × Bool × List AuditEntry → Prop
  | moved (hne : o.commit ≠ a.lastCommit) (hs : a.stalled = false) :
      Progress a o (o.now, false, [])
  | resumed (hne : o.commit ≠ a.lastCommit) (hs : a.stalled = true) (detail : String) :
      Progress a o (o.now, false, [o.entry .progressResumed detail])
  | stalled (heq : o.commit = a.lastCommit) (hq : o.snap.quorum = true)
      (hl : o.snap.leaderID ≠ 0) (hs : a.stalled = false)
      (hage : auditStallAfter ≤ timeSub o.now a.commitSince) (detail : String) :
      Progress a o (a.commitSince, true, [o.entry .progressStalled detail])
  | still (heq : o.commit = a.lastCommit) : Progress a o (a.commitSince, a.stalled, [])

theorem progressEdge_cases (a : AuditLog) (o : Observation) : Progress a o (a.progressEdge o) := by
  unfold progressEdge
  simp only
  by_cases hne : o.commit ≠ a.lastCommit
  · rw [if_pos hne]
    cases hs : a.stalled with
    | false => exact .moved hne hs
    | true => exact .resumed hne hs _
  · rw [if_neg hne]
    push Not at hne
    split
    · rename_i h
      exact .stalled hne h.1 h.2.1 (by simpa using h.2.2.1) h.2.2.2 _
    · exact .still hne

theorem mem_progressEdge (h : e ∈ (a.progressEdge o).2.2) :
    e.kind = .progressResumed ∨ e.kind = .progressStalled := by
  have hcases := a.progressEdge_cases o
  generalize a.progressEdge o = r at h hcases
  cases hcases with
  | moved => cases h
  | resumed =>
    rw [List.mem_singleton.mp h]
    exact .inl rfl
  | stalled =>
    rw [List.mem_singleton.mp h]
    exact .inr rfl
  | still => cases h

end AuditLog

theorem auditAt_started (n : ℕ) : (auditAt obs (n + 1)).started = true := by
  rw [auditAt, AuditLog.observe]
  split <;> rfl

theorem auditAt_lastLeader (n : ℕ) : (auditAt obs (n + 1)).lastLeader = leaderAt obs n := by
  rw [auditAt, AuditLog.observe]
  split <;> rfl

theorem auditAt_lastCommit (n : ℕ) : (auditAt obs (n + 1)).lastCommit = commitAt obs n := by
  rw [auditAt, AuditLog.observe]
  split <;> rfl

theorem linesAt_eq (obs : ℕ → Observation) (n : ℕ) :
    linesAt obs n = (obs n).write (edgesAt obs n) := by
  rw [linesAt, AuditLog.observe]
  split <;> rfl

theorem mem_edgesAt (h : e ∈ linesAt obs n) : e ∈ edgesAt obs n := by
  rw [linesAt_eq] at h
  exact Observation.mem_write h

theorem edgesAt_succ (obs : ℕ → Observation) (n : ℕ) : edgesAt obs (n + 1) =
    (auditAt obs (n + 1)).quorumEdge (obs (n + 1)) ++
      (auditAt obs (n + 1)).leaderEdge (obs (n + 1)) ++
      ((auditAt obs (n + 1)).progressEdge (obs (n + 1))).2.2 ++
      (auditAt obs (n + 1)).stepdownEdge (obs (n + 1)) := by
  rw [edgesAt, AuditLog.edges, if_neg (by simp [auditAt_started])]

/-- Kinds that neither quorum nor the watchdog account for come from the two edges between. -/
theorem filter_edgesAt (obs : ℕ → Observation) (n : ℕ) {p : AuditKind → Bool}
    (hregained : p .quorumRegained = false) (hlost : p .quorumLost = false)
    (hdeposed : p .watchdogStepdown = false) : (edgesAt obs (n + 1)).filter (p ·.kind) =
      ((auditAt obs (n + 1)).leaderEdge (obs (n + 1))).filter (p ·.kind) ++
        ((auditAt obs (n + 1)).progressEdge (obs (n + 1))).2.2.filter (p ·.kind) := by
  have hquorum : ((auditAt obs (n + 1)).quorumEdge (obs (n + 1))).filter (p ·.kind) = [] := by
    refine List.filter_eq_nil_iff.mpr fun e he => ?_
    rcases AuditLog.mem_quorumEdge he with h | h <;> simp [h, hregained, hlost]
  have hstep : ((auditAt obs (n + 1)).stepdownEdge (obs (n + 1))).filter (p ·.kind) = [] := by
    refine List.filter_eq_nil_iff.mpr fun e he => ?_
    simp [AuditLog.mem_stepdownEdge he, hdeposed]
  rw [edgesAt_succ, List.filter_append, List.filter_append, List.filter_append, hquorum, hstep,
    List.nil_append, List.append_nil]

theorem filter_linesAt (obs : ℕ → Observation) (n : ℕ) (p : AuditKind → Bool) :
    (linesAt obs n).filter (p ·.kind) = (obs n).write ((edgesAt obs n).filter (p ·.kind)) := by
  rw [linesAt_eq, Observation.filter_write]

/-! ## Handovers -/

def lastSeenLeader (obs : ℕ → Observation) : ℕ → ℕ
  | 0 => 0
  | n + 1 => if leaderAt obs n ≠ 0 then leaderAt obs n else lastSeenLeader obs n

theorem lastSeenLeader_eq_zero : lastSeenLeader obs n = 0 ↔ ∀ k < n, leaderAt obs k = 0 := by
  induction n with
  | zero => simp [lastSeenLeader]
  | succ n ih =>
    rw [lastSeenLeader]
    split
    · rename_i h
      exact iff_of_false h fun hall => h (hall n n.lt_succ_self)
    · rename_i h
      push Not at h
      rw [ih]
      refine ⟨fun hall k hk => ?_, fun hall k hk => hall k (by omega)⟩
      rcases Nat.lt_succ_iff_lt_or_eq.mp hk with hlt | rfl
      · exact hall k hlt
      · exact h

/-- The lines that a change of leader calls for: the leader of the observation is compared with
the leader seen before it, however long ago. -/
def handoverLines (obs : ℕ → Observation) (n : ℕ) : List AuditEntry :=
  if leaderAt obs n ≠ 0 ∧ leaderAt obs n ≠ lastSeenLeader obs n then
    [(obs n).entry .leaderChanged (AuditLog.leaderDetail (leaderAt obs n) (lastSeenLeader obs n)
      (obs n).snap.term)]
  else []

/-- Those that are written: it is compared with the observation before. -/
theorem leaderLines (obs : ℕ → Observation) (n : ℕ) :
    (linesAt obs (n + 1)).filter (·.kind = .leaderChanged) =
      if (leaderAt obs (n + 1) ≠ 0 ∧ leaderAt obs (n + 1) ≠ leaderAt obs n) ∧
          (obs (n + 1)).Records .leaderChanged then
        [(obs (n + 1)).entry .leaderChanged (AuditLog.leaderDetail (leaderAt obs (n + 1))
          (leaderAt obs n) (obs (n + 1)).snap.term)]
      else [] := by
  have hleader : ((auditAt obs (n + 1)).leaderEdge (obs (n + 1))).filter
      (·.kind = .leaderChanged) = (auditAt obs (n + 1)).leaderEdge (obs (n + 1)) :=
    List.filter_eq_self.mpr fun e he => by simp [AuditLog.mem_leaderEdge he]
  have hprogress : ((auditAt obs (n + 1)).progressEdge (obs (n + 1))).2.2.filter
      (·.kind = .leaderChanged) = [] :=
    List.filter_eq_nil_iff.mpr fun e he => by
      rcases AuditLog.mem_progressEdge he with h | h <;> simp [h]
  rw [filter_linesAt obs (n + 1) (· = .leaderChanged),
    filter_edgesAt obs n (p := (· = .leaderChanged)) rfl rfl rfl, hleader, hprogress,
    List.append_nil, AuditLog.leaderEdge, auditAt_lastLeader]
  change (obs (n + 1)).write (if leaderAt obs (n + 1) ≠ 0 ∧ leaderAt obs (n + 1) ≠ leaderAt obs n
    then _ else _) = _
  by_cases hnew : leaderAt obs (n + 1) ≠ 0 ∧ leaderAt obs (n + 1) ≠ leaderAt obs n
  · rw [if_pos hnew, Observation.write_entry]
    exact if_congr (by simp only [hnew, true_and, ne_eq, not_false_eq_true]) rfl rfl
  · rw [if_neg hnew, if_neg fun h => hnew h.1, Observation.write_nil]

theorem leaderDetail_ne {prev : ℕ} (h : prev ≠ 0) (leader term term' : ℕ) :
    AuditLog.leaderDetail leader 0 term ≠ AuditLog.leaderDetail leader prev term' := by
  intro heq
  have hl := congrArg String.toList heq
  simp only [AuditLog.leaderDetail, if_true, if_neg h, String.toList_append, List.append_assoc,
    List.append_cancel_left_eq] at hl
  -- after the name of the leader, one goes on with "now" and the other with "replaced"
  exact absurd (congrArg (·[1]?) hl) (by simp)

/-- The observation after `n` has a line for its leader where that is another than the one seen
before, and only there. A leader that comes up from a leaderless observation is taken for another,
so it has to be the first, or the line for it has to get lost. -/
def LeaderSeen (obs : ℕ → Observation) (n : ℕ) : Prop :=
  if leaderAt obs (n + 1) = lastSeenLeader obs (n + 1) then
    leaderAt obs n = 0 → ¬ (obs (n + 1)).Records .leaderChanged
  else (obs (n + 1)).Records .leaderChanged ∧ (leaderAt obs n = 0 → ∀ k < n, leaderAt obs k = 0)

theorem handover_step (obs : ℕ → Observation) (n : ℕ) :
    (linesAt obs (n + 1)).filter (·.kind = .leaderChanged) = handoverLines obs (n + 1) ↔
      (leaderAt obs (n + 1) ≠ 0 → LeaderSeen obs n) := by
  rw [leaderLines, handoverLines, LeaderSeen, ← lastSeenLeader_eq_zero]
  by_cases hnew : leaderAt obs (n + 1) = 0
  · simp [hnew]
  by_cases hprev : leaderAt obs n = 0
  · -- the code sees a handover; there is one unless the leader is back
    have hne : leaderAt obs (n + 1) ≠ leaderAt obs n := fun h => hnew (h.trans hprev)
    have hseen : lastSeenLeader obs (n + 1) = lastSeenLeader obs n := if_neg (not_not.mpr hprev)
    rw [hseen]
    by_cases hrec : (obs (n + 1)).Records .leaderChanged
    · rw [if_pos ⟨⟨hnew, hne⟩, hrec⟩]
      by_cases hback : leaderAt obs (n + 1) = lastSeenLeader obs n
      · rw [if_neg fun h => h.2 hback, if_pos hback]
        exact iff_of_false (List.cons_ne_nil _ _) fun h => h hnew hprev hrec
      · rw [if_pos ⟨hnew, hback⟩, if_neg hback, hprev]
        refine ⟨fun heq _ => ⟨hrec, fun _ => ?_⟩, fun h => by rw [(h hnew).2 rfl]⟩
        by_contra hlast
        exact leaderDetail_ne hlast _ _ _ (congrArg AuditEntry.detail (List.cons.inj heq).1)
    · rw [if_neg fun h => hrec h.2]
      by_cases hback : leaderAt obs (n + 1) = lastSeenLeader obs n
      · rw [if_neg fun h => h.2 hback, if_pos hback]
        exact iff_of_true rfl fun _ _ => hrec
      · rw [if_pos ⟨hnew, hback⟩, if_neg hback]
        exact iff_of_false (List.cons_ne_nil _ _).symm fun h => hrec (h hnew).1
  · have hseen : lastSeenLeader obs (n + 1) = leaderAt obs n := if_pos hprev
    rw [hseen]
    by_cases hsame : leaderAt obs (n + 1) = leaderAt obs n
    · rw [if_neg fun h => h.1.2 hsame, if_neg fun h => h.2 hsame, if_pos hsame]
      exact iff_of_true rfl fun _ h => absurd h hprev
    rw [if_neg hsame]
    by_cases hrec : (obs (n + 1)).Records .leaderChanged
    · rw [if_pos ⟨⟨hnew, hsame⟩, hrec⟩, if_pos ⟨hnew, hsame⟩]
      exact iff_of_true rfl fun _ => ⟨hrec, fun h => absurd h hprev⟩
    · rw [if_neg fun h => hrec h.2, if_pos ⟨hnew, hsame⟩]
      exact iff_of_false (List.cons_ne_nil _ _).symm fun h => hrec (h hnew).1

/-- Changes of leader are recorded as such, at every observation but the first, exactly if each has
its line written and comes right after another leader, and if no leader comes back after a gap. -/
theorem handovers_recorded (obs : ℕ → Observation) (N : ℕ) :
    (∀ n, 0 < n → n < N →
      (linesAt obs n).filter (·.kind = .leaderChanged) = handoverLines obs n) ↔
    ∀ n, n + 1 < N → leaderAt obs (n + 1) ≠ 0 → LeaderSeen obs n := by
  constructor
  · intro h n hn
    exact (handover_step obs n).mp (h (n + 1) n.succ_pos hn)
  · intro h n hpos hn
    obtain ⟨m, rfl⟩ := Nat.exists_eq_succ_of_ne_zero hpos.ne'
    exact (handover_step obs m).mpr (h m hn)

def tick (seconds : ℤ) (quorum : Bool) (leader commit : ℕ) : Observation where
  snap := ⟨[⟨commit⟩], 7, 7, quorum, 5, leader, 0, 0, none, none⟩
  stepdowns := 0
  stepdownsOK := true
  now := seconds * second
  clock := fun _ => seconds * second
  file := fun _ => .takes

def feed (ticks : List Observation) (n : ℕ) : Observation := ticks.getD n (tick 0 false 0 0)

/-- Node 1 leads before and after a gap, and after another gap node 2 does. -/
def leaderGaps : ℕ → Observation :=
  feed [tick 0 true 1 100, tick 5 true 0 100, tick 10 true 1 200, tick 15 true 0 200,
    tick 20 true 2 300]

theorem handover_after_gap :
    ((linesAt leaderGaps 2).map fun e => (e.kind, e.detail)) =
      [(.leaderChanged, "node 1 now leader at term 5")] ∧
    handoverLines leaderGaps 2 = [] ∧
    ((linesAt leaderGaps 4).map fun e => (e.kind, e.detail)) =
      [(.leaderChanged, "node 2 now leader at term 5")] ∧
    (handoverLines leaderGaps 4).map AuditEntry.detail = ["node 2 replaced node 1 at term 5"] := by
  decide

/-! ## Progress -/

def Serving (obs : ℕ → Observation) (n : ℕ) : Prop :=
  (obs n).snap.quorum = true ∧ leaderAt obs n ≠ 0

/-- From observation `m` to observation `n` the commit index stands still. -/
def Frozen (obs : ℕ → Observation) (m n : ℕ) : Prop :=
  ∀ k ≤ n, m ≤ k → commitAt obs k = commitAt obs n

/-- At observation `n` it has stood still for as long as a stall takes. -/
def Still (obs : ℕ → Observation) (n : ℕ) : Prop :=
  ∃ m ≤ n, Frozen obs m n ∧ nowAt obs m + auditStallAfter ≤ nowAt obs n

instance (n : ℕ) : Decidable (Serving obs n) := inferInstanceAs (Decidable (_ ∧ _))

instance (m n : ℕ) : Decidable (Frozen obs m n) :=
  inferInstanceAs (Decidable (∀ k ≤ n, m ≤ k → commitAt obs k = commitAt obs n))

instance (n : ℕ) : Decidable (Still obs n) :=
  inferInstanceAs (Decidable (∃ m ≤ n, Frozen obs m n ∧
    nowAt obs m + auditStallAfter ≤ nowAt obs n))

theorem Frozen.refl (n : ℕ) : Frozen obs n n := fun k hk hn => by rw [le_antisymm hk hn]

theorem Frozen.succ (h : Frozen obs m n) (heq : commitAt obs (n + 1) = commitAt obs n) :
    Frozen obs m (n + 1) := by
  intro k hk hm
  rcases Nat.le_succ_iff.mp hk with hle | rfl
  · rw [h k hle hm, heq]
  · rfl

theorem Frozen.trans (h : Frozen obs k m) (h' : Frozen obs m n) (hle : m ≤ n) :
    Frozen obs k n := by
  intro j hj hk
  rcases Nat.le_total m j with hmj | hjm
  · exact h' j hj hmj
  · rw [h j hjm hk, h' m hle le_rfl]

theorem stallAfter_le_timeSub {t u : ℤ} :
    auditStallAfter ≤ timeSub t u ↔ u + auditStallAfter ≤ t := by
  unfold timeSub auditStallAfter second
  omega

def AuditKind.isProgress (kind : AuditKind) : Bool :=
  kind = .progressStalled ∨ kind = .progressResumed

def progressLines (obs : ℕ → Observation) (n : ℕ) : List AuditEntry :=
  (edgesAt obs n).filter (·.kind.isProgress)

theorem progressLines_zero (obs : ℕ → Observation) : progressLines obs 0 = [] := rfl

theorem progressLines_succ (obs : ℕ → Observation) (n : ℕ) : progressLines obs (n + 1) =
    ((auditAt obs (n + 1)).progressEdge (obs (n + 1))).2.2 := by
  have hleader : ((auditAt obs (n + 1)).leaderEdge (obs (n + 1))).filter (·.kind.isProgress) =
      [] :=
    List.filter_eq_nil_iff.mpr fun e he => by
      simp [AuditLog.mem_leaderEdge he, AuditKind.isProgress]
  rw [progressLines, filter_edgesAt obs n (p := AuditKind.isProgress) rfl rfl rfl, hleader,
    List.nil_append]
  refine List.filter_eq_self.mpr fun e he => ?_
  rcases AuditLog.mem_progressEdge he with h | h <;> simp [h, AuditKind.isProgress]

theorem observe_progress (obs : ℕ → Observation) (n : ℕ) : ∃ r,
    AuditLog.Progress (auditAt obs (n + 1)) (obs (n + 1)) r ∧
    (auditAt obs (n + 2)).commitSince = r.1 ∧ (auditAt obs (n + 2)).stalled = r.2.1 ∧
    progressLines obs (n + 1) = r.2.2 := by
  refine ⟨_, AuditLog.progressEdge_cases _ _, ?_, ?_, progressLines_succ obs n⟩
  · rw [auditAt, AuditLog.observe, if_neg (by simp [auditAt_started])]
  · rw [auditAt, AuditLog.observe, if_neg (by simp [auditAt_started])]

theorem commitSince_spec (obs : ℕ → Observation) (n : ℕ) :
    ∃ m ≤ n, (auditAt obs (n + 1)).commitSince = nowAt obs m ∧ Frozen obs m n := by
  induction n with
  | zero => exact ⟨0, le_rfl, rfl, Frozen.refl 0⟩
  | succ n ih =>
    obtain ⟨m, hm, hsince, hfr⟩ := ih
    obtain ⟨r, hr, hs, -, -⟩ := observe_progress obs n
    rw [hs]
    cases hr with
    | moved => exact ⟨n + 1, le_rfl, rfl, Frozen.refl _⟩
    | resumed => exact ⟨n + 1, le_rfl, rfl, Frozen.refl _⟩
    | stalled heq =>
      rw [auditAt_lastCommit] at heq
      exact ⟨m, by omega, hsince, hfr.succ heq⟩
    | still heq =>
      rw [auditAt_lastCommit] at heq
      exact ⟨m, by omega, hsince, hfr.succ heq⟩

/-- What a stall that has been reported and not yet ended was reported on. -/
structure StalledSince (obs : ℕ → Observation) (m n : ℕ) : Prop where
  le : m ≤ n
  line : ∃ e ∈ edgesAt obs m, e.kind = .progressStalled ∧ e.commitIndex = commitAt obs m
  still : Still obs m
  frozen : Frozen obs m n
  quiet : ∀ k ≤ n, m < k → progressLines obs k = []

theorem stalled_spec (obs : ℕ → Observation) (n : ℕ)
    (h : (auditAt obs (n + 1)).stalled = true) : ∃ m, StalledSince obs m n := by
  induction n with
  | zero => cases h
  | succ n ih =>
    obtain ⟨r, hr, -, hs, hlines⟩ := observe_progress obs n
    rw [hs] at h
    cases hr with
    | moved => cases h
    | resumed => cases h
    | stalled heq _ _ _ hage detail =>
      rw [auditAt_lastCommit] at heq
      obtain ⟨m, hm, hsince, hfr⟩ := commitSince_spec obs n
      rw [hsince, stallAfter_le_timeSub] at hage
      have hmem : (obs (n + 1)).entry .progressStalled detail ∈ progressLines obs (n + 1) := by
        rw [hlines]
        exact List.mem_singleton_self _
      exact ⟨n + 1, le_rfl, ⟨_, List.mem_of_mem_filter hmem, rfl, rfl⟩,
        ⟨m, by omega, hfr.succ heq, hage⟩, Frozen.refl _, fun k hk hlt => by omega⟩
    | still heq =>
      rw [auditAt_lastCommit] at heq
      obtain ⟨m, hst⟩ := ih h
      refine ⟨m, by have := hst.le; omega, hst.line, hst.still, hst.frozen.succ heq,
        fun k hk hlt => ?_⟩
      rcases Nat.le_succ_iff.mp hk with hle | rfl
      · exact hst.quiet k hle hlt
      · exact hlines

/-! ### Lines -/

theorem mem_progressLines (he : e ∈ edgesAt obs n) (hk : e.kind.isProgress = true) :
    e ∈ progressLines obs n := List.mem_filter.mpr ⟨he, hk⟩

theorem stalled_line (he : e ∈ edgesAt obs n) (hk : e.kind = .progressStalled) :
    Serving obs n ∧ Still obs n := by
  replace he := mem_progressLines he (by simp [hk, AuditKind.isProgress])
  cases n with
  | zero => cases he
  | succ n =>
    obtain ⟨r, hr, -, -, hlines⟩ := observe_progress obs n
    rw [hlines] at he
    cases hr with
    | moved => cases he
    | resumed =>
      rw [List.mem_singleton.mp he] at hk
      cases hk
    | stalled heq hq hl _ hage =>
      rw [auditAt_lastCommit] at heq
      obtain ⟨m, hm, hsince, hfr⟩ := commitSince_spec obs n
      rw [hsince, stallAfter_le_timeSub] at hage
      exact ⟨⟨hq, hl⟩, m, by omega, hfr.succ heq, hage⟩
    | still => cases he

theorem resumed_line (he : e ∈ edgesAt obs n) (hk : e.kind = .progressResumed) :
    ∃ n', n = n' + 1 ∧ commitAt obs n ≠ commitAt obs n' ∧ e.commitIndex = commitAt obs n ∧
      ∃ m, StalledSince obs m n' := by
  replace he := mem_progressLines he (by simp [hk, AuditKind.isProgress])
  cases n with
  | zero => cases he
  | succ n =>
    obtain ⟨r, hr, -, -, hlines⟩ := observe_progress obs n
    rw [hlines] at he
    cases hr with
    | moved => cases he
    | resumed hne hs detail =>
      rw [auditAt_lastCommit] at hne
      rw [List.mem_singleton.mp he]
      exact ⟨n, rfl, hne, rfl, stalled_spec obs n hs⟩
    | stalled =>
      rw [List.mem_singleton.mp he] at hk
      cases hk
    | still => cases he

/-! ### Alternation -/

/-- A stall, its end, a stall, and so on. -/
def Alternates (kinds : List AuditKind) : Prop :=
  ∀ i kind, kinds[i]? = some kind →
    kind = if i % 2 = 0 then .progressStalled else .progressResumed

theorem Alternates.snoc {kinds : List AuditKind} (h : Alternates kinds) {kind : AuditKind}
    (hk : kind = if kinds.length % 2 = 0 then .progressStalled else .progressResumed) :
    Alternates (kinds ++ [kind]) := by
  intro i k hi
  rcases Nat.lt_trichotomy i kinds.length with hlt | rfl | hgt
  · rw [List.getElem?_append_left hlt] at hi
    exact h i k hi
  · rw [List.getElem?_concat_length] at hi
    exact (Option.some.inj hi).symm.trans hk
  · rw [List.getElem?_eq_none (by simpa using Nat.succ_le_of_lt hgt)] at hi
    cases hi

def progressKinds (obs : ℕ → Observation) : ℕ → List AuditKind
  | 0 => []
  | N + 1 => progressKinds obs N ++ (progressLines obs N).map AuditEntry.kind

theorem progress_alternates (obs : ℕ → Observation) (N : ℕ) :
    Alternates (progressKinds obs N) ∧
      ((auditAt obs N).stalled = true ↔ (progressKinds obs N).length % 2 = 1) := by
  induction N with
  | zero =>
    exact ⟨fun i kind hi => by simp [progressKinds] at hi,
      by simp [auditAt, AuditLog.opened, progressKinds]⟩
  | succ N ih =>
    obtain ⟨halt, hodd⟩ := ih
    rw [progressKinds]
    cases N with
    | zero =>
      rw [progressLines_zero, List.map_nil, List.append_nil]
      exact ⟨halt, by rw [← hodd]; exact iff_of_false (by simp [auditAt, AuditLog.observe,
        AuditLog.opened]) (by simp [auditAt, AuditLog.opened])⟩
    | succ n =>
      obtain ⟨r, hr, -, hs, hlines⟩ := observe_progress obs n
      rw [hs, hlines]
      cases hr with
      | moved _ hst =>
        rw [List.map_nil, List.append_nil, ← hodd, hst]
        exact ⟨halt, Iff.rfl⟩
      | resumed _ hst =>
        have hlen := hodd.mp hst
        refine ⟨halt.snoc (by rw [if_neg (by omega)]; rfl), ?_⟩
        simp only [Bool.false_eq_true, false_iff, List.length_append, List.length_map,
          List.length_singleton]
        omega
      | stalled _ _ _ hst =>
        have hlen : ¬ (progressKinds obs (n + 1)).length % 2 = 1 := fun h => by
          simp [hodd.mpr h] at hst
        refine ⟨halt.snoc (by rw [if_pos (by omega)]; rfl), ?_⟩
        simp only [true_iff, List.length_append, List.length_map, List.length_singleton]
        omega
      | still =>
        rw [List.map_nil, List.append_nil]
        exact ⟨halt, hodd⟩

def ProgressRecorded (obs : ℕ → Observation) (N : ℕ) : Prop :=
  ∀ n < N, ∀ e ∈ progressLines obs n, e ∈ linesAt obs n

theorem progress_written (h : ProgressRecorded obs N) :
    (auditLines obs N).filter (·.kind.isProgress) = (List.range N).flatMap (progressLines obs) := by
  induction N with
  | zero => rfl
  | succ N ih =>
    have hprev : ProgressRecorded obs N := fun n hn => h n (by omega)
    rw [auditLines, List.filter_append, ih hprev, List.range_succ, List.flatMap_append,
      List.flatMap_singleton, filter_linesAt obs N AuditKind.isProgress,
      Observation.write_eq_filter]
    refine congrArg _ (List.filter_eq_self.mpr fun e he => ?_)
    have hmem := h N N.lt_succ_self e he
    rw [linesAt_eq, Observation.write_eq_filter] at hmem
    exact (List.mem_filter.mp hmem).2

theorem progressKinds_eq (obs : ℕ → Observation) (N : ℕ) :
    progressKinds obs N = ((List.range N).flatMap (progressLines obs)).map AuditEntry.kind := by
  induction N with
  | zero => rfl
  | succ N ih => rw [progressKinds, ih, List.range_succ, List.flatMap_append,
      List.flatMap_singleton, List.map_append]

/-- Where every line on progress is written, where quorum and a leader were there for the whole
minute whenever they are there and the commit index has stood still for it, and where the index does
not fall after such a minute: every stall that is reported is one, and its end is reported when the
index has passed the value it stood at. -/
theorem stall_lines_sound (obs : ℕ → Observation) (N : ℕ)
    (htime : ∀ n < N, ∀ m ≤ n, nowAt obs m ≤ nowAt obs n) (hwrite : ProgressRecorded obs N)
    (hserve : ∀ n < N, Serving obs n → Still obs n →
      ∀ k ≤ n, nowAt obs n - auditStallAfter < nowAt obs k → Serving obs k)
    (hfall : ∀ n, n + 1 < N → commitAt obs (n + 1) < commitAt obs n → ¬ Still obs n) :
    Alternates (((auditLines obs N).filter (·.kind.isProgress)).map AuditEntry.kind) ∧
    (∀ n < N, ∀ e ∈ linesAt obs n, e.kind = .progressStalled →
      (∃ m ≤ n, nowAt obs m + auditStallAfter ≤ nowAt obs n) ∧
      ∀ k ≤ n, nowAt obs n - auditStallAfter < nowAt obs k →
        Serving obs k ∧ commitAt obs k = commitAt obs n) ∧
    ∀ n < N, ∀ e ∈ linesAt obs n, e.kind = .progressResumed →
      ∃ m < n, (∃ e' ∈ linesAt obs m, e'.kind = .progressStalled ∧
        e'.commitIndex < e.commitIndex) ∧
        ∀ k < n, m < k → (linesAt obs k).filter (·.kind.isProgress) = [] := by
  refine ⟨?_, fun n hn e he hk => ?_, fun n hn e he hk => ?_⟩
  · rw [progress_written hwrite, ← progressKinds_eq]
    exact (progress_alternates obs N).1
  · obtain ⟨hserving, hstill⟩ := stalled_line (mem_edgesAt he) hk
    obtain ⟨m, hm, hfr, hage⟩ := id hstill
    refine ⟨⟨m, hm, hage⟩, fun k hkn hwin => ?_⟩
    -- an observation inside the minute comes after the one the index stands still from
    have hmk : m ≤ k := by
      by_contra hlt
      have := htime m (by omega) k (by omega)
      omega
    exact ⟨hserve n hn hserving hstill k hkn hwin, hfr k hkn hmk⟩
  · obtain ⟨n, rfl, hne, hidx, m, hst⟩ := resumed_line (mem_edgesAt he) hk
    have hmn := hst.le
    obtain ⟨e', he', hk', hidx'⟩ := hst.line
    have hline : e' ∈ linesAt obs m :=
      hwrite m (by omega) e' (mem_progressLines he' (by simp [hk', AuditKind.isProgress]))
    have hstill : Still obs n := by
      obtain ⟨m₀, hm₀, hfr, hage⟩ := hst.still
      have := htime n (by omega) m hmn
      exact ⟨m₀, by omega, hfr.trans hst.frozen hmn, by omega⟩
    have hup : commitAt obs n < commitAt obs (n + 1) := by
      by_contra hle
      exact hfall n hn (by omega) hstill
    refine ⟨m, by omega, ⟨e', hline, hk', ?_⟩, fun k hkn hmk => ?_⟩
    · rw [hidx', hidx, hst.frozen m hmn le_rfl]
      exact hup
    · have hquiet := hst.quiet k (by omega) hmk
      rw [progressLines] at hquiet
      rw [filter_linesAt obs k AuditKind.isProgress, hquiet, Observation.write_nil]

def recovered : ℕ → Observation :=
  feed [tick 0 true 1 100, tick 5 true 1 300, tick 30 true 1 300, tick 75 true 1 300,
    tick 80 true 1 300, tick 90 true 1 400]

theorem stall_lines_recovered :
    progressKinds recovered 6 = [.progressStalled, .progressResumed] ∧
    Alternates (((auditLines recovered 6).filter (·.kind.isProgress)).map AuditEntry.kind) :=
  have hfall : ∀ n < 5, commitAt recovered (n + 1) < commitAt recovered n → ¬ Still recovered n :=
    by decide
  have hwrite : ∀ n < 6, ∀ e ∈ progressLines recovered n, e ∈ linesAt recovered n := by decide
  ⟨by decide, (stall_lines_sound recovered 6 (by decide) hwrite (by decide)
    fun n hn => hfall n (by omega)).1⟩

/-- In the minute before the report the cluster has no leader for a while; what ends the stall is
that the node with the highest commit index drops out of the view. -/
def leaderlessMinute : ℕ → Observation :=
  feed [tick 0 true 1 300, tick 30 true 0 300, tick 60 true 1 300, tick 65 true 1 290]

theorem stall_reported_across_gap :
    .progressStalled ∈ (linesAt leaderlessMinute 2).map AuditEntry.kind ∧
    (nowAt leaderlessMinute 2 - auditStallAfter < nowAt leaderlessMinute 1 ∧
      leaderAt leaderlessMinute 1 = 0) ∧
    ((linesAt leaderlessMinute 3).map fun e => (e.kind, e.commitIndex)) =
      [(.progressResumed, 290)] ∧
    commitAt leaderlessMinute 2 = 300 := by
  decide

end KMC.ControlPlane
