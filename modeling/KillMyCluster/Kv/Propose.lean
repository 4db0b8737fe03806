import KillMyCluster.Kv.Calls
import KillMyCluster.Kv.Refine

/-! What a call is told. `waiters` and `recent` are keyed by log index, and an index is given out
again when an uncommitted entry is replaced; the applier then hands the result of one command to
the call of another. Where the entry applied at an index is of the term that the call was given
with it, it is the call's own entry. -/

namespace KMC

open LeaderLog Trace

variable {cfg : KvConfig} {g g' : Ghost} {s t : KvState} {a : KvAction} {p k i : ℕ}
  {x x' : KvCall} {res : ApplyResult}

/-! ## The tables of a process -/

def KvState.Applied (s : KvState) (p i : ℕ) (res : ApplyResult) : Prop :=
  ∃ o ∈ s.outcomes, o.server = p ∧ o.epoch = (s.raft.servers p).epoch ∧ o.entry.index = i ∧
    o.result = res

structure TablesMove (s t : KvState) (p : ℕ) : Prop where
  epoch : (t.raft.servers p).epoch = (s.raft.servers p).epoch ∨ t.kvs p = {}
  recent : ∀ i res, (t.kvs p).recent.get i = some res →
    (s.kvs p).recent.get i = some res ∨ (s.kvs p).applier = .notifying i res
  waiters : ∀ i k, (t.kvs p).waiters.get i = some k →
    (s.kvs p).waiters.get i = some k ∨ ∃ x, s.live k = some x ∧ x.server = p
  applier : ∀ i res, (t.kvs p).applier = .notifying i res →
    (s.kvs p).applier = .notifying i res ∨ t.Applied p i res

theorem TablesMove.same (he : (t.raft.servers p).epoch = (s.raft.servers p).epoch)
    (hk : t.kvs p = s.kvs p) : TablesMove s t p := by
  refine ⟨.inl he, ?_, ?_, ?_⟩ <;> rw [hk]
  · exact fun _ _ => .inl
  · exact fun _ _ => .inl
  · exact fun _ _ => .inl

theorem TablesMove.fresh (hk : t.kvs p = {}) : TablesMove s t p := by
  refine ⟨.inr hk, ?_, ?_, ?_⟩ <;> rw [hk]
  · intro i res h
    simp at h
  · intro i k h
    simp at h
  · intro i res h
    cases h

theorem TablesMove.advance {r : ReadState} : TablesMove s (s.advance r) p := by
  by_cases he : (r.base.servers p).epoch = (s.raft.servers p).epoch
  · exact .same he (if_pos he)
  · exact .fresh (if_neg he)

theorem TablesMove.set {q : ℕ} {kv : KvServer} (hraft : t.raft = s.raft)
    (hkvs : t.kvs = Function.update s.kvs q kv)
    (h : (∀ i res, kv.recent.get i = some res →
        (s.kvs q).recent.get i = some res ∨ (s.kvs q).applier = .notifying i res) ∧
      (∀ i k, kv.waiters.get i = some k →
        (s.kvs q).waiters.get i = some k ∨ ∃ x, s.live k = some x ∧ x.server = q) ∧
      ∀ i res, kv.applier = .notifying i res →
        (s.kvs q).applier = .notifying i res ∨ t.Applied q i res) : TablesMove s t p := by
  by_cases hp : p = q
  · subst hp
    refine ⟨.inl (by rw [hraft]), ?_, ?_, ?_⟩ <;> rw [hkvs, Function.update_self]
    · exact h.1
    · exact h.2.1
    · exact h.2.2
  · exact .same (by rw [hraft]) (by rw [hkvs, Function.update_of_ne hp])

theorem TablesMove.advance_set {q : ℕ} {kv : KvServer} {r : ReadState} {b : Action}
    (hr : readStep cfg.raft s.reads (.cluster b) = some r) (hb : b ≠ .restart q)
    (hreads : t.reads = r) (hkvs : t.kvs = Function.update (s.advance r).kvs q kv)
    (hkv : kv.recent = (s.kvs q).recent ∧ kv.waiters = (s.kvs q).waiters ∧
      ∀ i res, kv.applier = .notifying i res → (s.kvs q).applier = .notifying i res) :
    TablesMove s t p := by
  have hraft : t.raft = r.base := congrArg ReadState.base hreads
  by_cases hp : p = q
  · subst hp
    have he : (t.raft.servers p).epoch = (s.raft.servers p).epoch := by
      rw [hraft]
      rcases readStep_follows hr (P := fun y => y = b) (fun y hy => (Option.some.inj hy).symm) with
        heq | ⟨y, hy, rfl⟩
      · rw [heq]
      · exact ((step_sent_grows hy p).resolve_right fun h => hb h.1).1
    refine ⟨.inl he, ?_, ?_, ?_⟩ <;> rw [hkvs, Function.update_self]
    · rw [hkv.1]
      exact fun _ _ => .inl
    · rw [hkv.2.1]
      exact fun _ _ => .inl
    · exact fun i res h => .inl (hkv.2.2 i res h)
  · have hrest : t.kvs p = (s.advance r).kvs p := by rw [hkvs, Function.update_of_ne hp]
    by_cases he : (r.base.servers p).epoch = (s.raft.servers p).epoch
    · exact .same (hraft ▸ he) (hrest.trans (if_pos he))
    · exact .fresh (hrest.trans (if_neg he))

theorem kvStep_tables (hs : kvStep cfg s a = some t) (p : ℕ) : TablesMove s t p := by
  cases kvStep_cases hs with
  | reads _ _ => exact .advance
  | call _ _ => exact .same rfl rfl
  | enqueue _ _ => exact .set rfl rfl ⟨fun _ _ => .inl, fun _ _ => .inl, fun _ _ => .inl⟩
  | propose _ hr => exact .advance_set hr (by simp) rfl rfl ⟨rfl, rfl, fun _ _ => id⟩
  | leave _ _ hw =>
    exact .set rfl rfl ⟨fun _ _ => .inl, fun i j h => .inl (hw i j h), fun _ _ => .inl⟩
  | @wait k index term x hx _ =>
    refine .set rfl rfl ⟨fun _ _ => .inl, fun i j h => ?_, fun _ _ => .inl⟩
    rw [Table.get_set] at h
    split at h
    · obtain rfl := Option.some.inj h
      exact .inr ⟨x, hx, rfl⟩
    · exact .inl h
  | find _ _ hw _ =>
    exact .set rfl rfl ⟨fun i res h => .inl (Table.get_of_delete h),
      fun i j h => .inl (hw i j h), fun _ _ => .inl⟩
  | receive _ _ => exact .same rfl rfl
  | restore _ _ _ _ =>
    exact .set rfl rfl ⟨fun _ _ => .inl, fun _ _ => .inl, fun _ _ h => by cases h⟩
  | apply hn _ _ _ =>
    refine .set rfl rfl ⟨fun _ _ => .inl, fun _ _ => .inl, fun i res h => .inr ?_⟩
    obtain ⟨rfl, rfl⟩ := Applier.notifying.inj h
    exact ⟨_, List.mem_append_right _ (List.mem_singleton.mpr rfl), rfl, rfl, rfl, rfl⟩
  | panics _ => exact .advance
  | @notify q index n res calls app _ happ _ happ' =>
    refine .set rfl rfl ⟨fun i r h => ?_, fun i j h => ?_, fun i r h => ?_⟩
    · unfold KvServer.settle at h
      split at h
      · exact .inl h
      · simp only [Table.get_prune] at h
        split at h
        · cases h
        rw [Table.get_set] at h
        split at h
        · rename_i hi
          obtain rfl := Option.some.inj h
          exact .inr (hi ▸ happ)
        · exact .inl h
    · unfold KvServer.settle at h
      split at h
      · exact .inl (Table.get_of_delete h)
      · exact .inl h
    · rcases happ' with rfl | rfl <;> cases h
  | go happ =>
    refine .set rfl rfl ⟨fun _ _ => .inl, fun _ _ => .inl, fun i r h => ?_⟩
    rcases happ with rfl | rfl | ⟨j, -, rfl⟩ <;> cases h
  | compact _ _ _ hr =>
    exact .advance_set hr (by simp) rfl rfl ⟨rfl, rfl, fun _ _ h => by cases h⟩

/-! ## Steps -/

def KvState.Hands (s : KvState) (a : KvAction) (k i : ℕ) : Prop :=
  ((a = .register k ∨ a = .timeout k) ∧
    ∃ x, s.calls[k]? = some x ∧ (s.kvs x.server).recent.get i ≠ none) ∨
  ∃ p res, a = .notify p ∧ (s.kvs p).applier = .notifying i res ∧
    (s.kvs p).waiters.get i = some k

/-- No persister error, and whenever a call is given a result for its index, the entry that its
process applied there is of the term that `raft.Propose` returned with the index. -/
def ReliableMatched (s : KvState) (a : KvAction) : Prop :=
  a.Reliable ∧ ∀ k x i T, s.calls[k]? = some x → x.status.attempt = some (i, T) → s.Hands a k i →
    ∀ o ∈ s.outcomes, o.server = x.server → o.epoch = x.epoch → o.entry.index = i → o.entry.term = T

/-- An entry of the call was committed and applied by the call's own process, with this result. -/
def KvCall.Answered (s : KvState) (x : KvCall) (res : ApplyResult) : Prop :=
  ∃ o ∈ s.outcomes, o.server = x.server ∧ o.epoch = x.epoch ∧ o.entry ∈ x.proposed ∧
    o.entry.data = x.cmd.encode ∧ o.entry.index ≤ o.commitIndex ∧ o.result = res

/-- What a process holds in its tables and its hands, it has applied; and what it has applied was
committed. -/
structure Shelves (g : Ghost) (s : KvState) : Prop where
  outcomes : ∀ o ∈ s.outcomes, o.entry.index ≤ o.commitIndex ∧
    ∃ T L, Committed g T L ∧ L[o.entry.index - 1]? = some o.entry
  recent : ∀ p i res, (s.kvs p).recent.get i = some res → s.Applied p i res
  notifying : ∀ p i res, (s.kvs p).applier = .notifying i res → s.Applied p i res
  waiters : ∀ p i k, (s.kvs p).waiters.get i = some k →
    ∃ x, s.calls[k]? = some x ∧ x.server = p ∧ x.epoch = (s.raft.servers p).epoch

theorem shelves_init (cfg : KvConfig) : Shelves State.init cfg.init := by
  refine ⟨?_, ?_, ?_, ?_⟩ <;> simp [KvConfig.init]

theorem KvState.Applied.step (h : s.Applied p i res) (hs : kvStep cfg s a = some t)
    (he : (t.raft.servers p).epoch = (s.raft.servers p).epoch) : t.Applied p i res := by
  obtain ⟨o, ho, h1, h2, h3⟩ := h
  exact ⟨o, kvStep_outcomes_subset hs ho, h1, h2.trans he.symm, h3⟩

theorem Shelves.step (h : Shelves g s) (hk : KvSim cfg g s) (hg : Grew g g')
    (hs : kvStep cfg s a = some t) : Shelves g' t := by
  have hi := hk.sim.rel.inv
  refine ⟨fun o ho => ?_, fun p i res hget => ?_, fun p i res happ => ?_, fun p i k hw => ?_⟩
  · have hold : ∀ o ∈ s.outcomes, o.entry.index ≤ o.commitIndex ∧
        ∃ T L, Committed g' T L ∧ L[o.entry.index - 1]? = some o.entry := by
      intro o ho
      obtain ⟨h1, T, L, hL, hLo⟩ := h.outcomes o ho
      exact ⟨h1, T, L, hL.mono hi hg le_rfl, hLo⟩
    rcases kvStep_outcomes hs with hout | ⟨p, n, e, cmd, hn, -, hmsg, -, hout⟩ <;> rw [hout] at ho
    · exact hold o ho
    rcases List.mem_append.mp ho with ho | ho
    · exact hold o ho
    obtain rfl := List.mem_singleton.mp ho
    obtain ⟨hidx, T, L, hL, hLe⟩ := hk.command_committed hmsg
    obtain ⟨j, hj, hle, -⟩ := hk.sends.up p n hn
    have hindex := hj.index_le _ (List.mem_append_left _ (List.mem_of_getElem? hmsg))
    refine ⟨(hindex.trans hle).trans (hk.sim.rel.up p n hn).applied_le, T, L,
      hL.mono hi hg le_rfl, ?_⟩
    simpa [hidx] using hLe
  · obtain ⟨hep | hfresh, hrec, -, -⟩ := kvStep_tables hs p
    · rcases hrec i res hget with hr | hr
      · exact (h.recent p i res hr).step hs hep
      · exact (h.notifying p i res hr).step hs hep
    · simp [hfresh] at hget
  · obtain ⟨hep | hfresh, -, -, hnot⟩ := kvStep_tables hs p
    · rcases hnot i res happ with hr | hr
      · exact (h.notifying p i res hr).step hs hep
      · exact hr
    · rw [hfresh] at happ
      cases happ
  · obtain ⟨hep | hfresh, -, hwait, -⟩ := kvStep_tables hs p
    swap
    · simp [hfresh] at hw
    obtain ⟨x, hx, h1, h2⟩ : ∃ x, s.calls[k]? = some x ∧ x.server = p ∧
        x.epoch = (s.raft.servers p).epoch := by
      rcases hwait i k hw with hold | ⟨x, hlive, rfl⟩
      · exact h.waiters p i k hold
      · obtain ⟨hx, -, hepoch⟩ := KvState.live_some hlive
        exact ⟨x, hx, rfl, hepoch.symm⟩
    obtain ⟨x', hx', hm⟩ := kvStep_call_stays hs hx
    obtain ⟨h3, h4, -⟩ := hm.fixed
    exact ⟨x', hx', h3.trans h1, h4.trans (h2.trans hep.symm)⟩

/-! ## The calls -/

/-- The entry of an attempt is in the log of its term, and a result is that of an own entry. -/
structure Told (g : Ghost) (s : KvState) : Prop where
  booked : ∀ (k : ℕ) (x : KvCall) (i T : ℕ), s.calls[k]? = some x →
    x.status.attempt = some (i, T) →
    ∃ e ∈ x.proposed, e.index = i ∧ 1 ≤ i ∧ (g.tlog T)[i - 1]? = some e
  results : ∀ (k : ℕ) (x : KvCall) (res : ApplyResult), s.calls[k]? = some x →
    x.status.result = some res → x.Answered s res

theorem told_init (cfg : KvConfig) : Told State.init cfg.init := by
  refine ⟨?_, ?_⟩ <;> simp [KvConfig.init]

/-- The entry applied at the index and of the term of an attempt is the call's. -/
theorem Told.answered (h : Told g s) (hd : Proposed s) (hsh : Shelves g s) (hi : cfg.raft.Inv g)
    (hx : s.calls[k]? = some x) {T : ℕ} (hat : x.status.attempt = some (i, T)) {o : Outcome}
    (ho : o ∈ s.outcomes) (hsrv : o.server = x.server) (hep : o.epoch = x.epoch)
    (hidx : o.entry.index = i) (hterm : o.entry.term = T) : x.Answered s o.result := by
  obtain ⟨e, he, hei, h1, htlog⟩ := h.booked k x i T hx hat
  obtain ⟨hci, T', L, hL, hLo⟩ := hsh.outcomes o ho
  rw [hidx] at hLo
  have hpre := (hi.committed_good hL _ _ hLo).2
  rw [hterm] at hpre
  have hget : (g.tlog T)[i - 1]? = some o.entry := by
    refine prefix_getElem hpre ?_
    rw [List.getElem?_take_of_lt (by omega), hLo]
  have heq : o.entry = e := Option.mem_unique hget htlog
  exact ⟨o, ho, hsrv, hep, heq ▸ he, hd k x hx _ (heq ▸ he), hci, rfl⟩

theorem KvCall.Answered.step (h : x.Answered s res) (hs : kvStep cfg s a = some t)
    (hm : CallMove s t a k x x') : x'.Answered t res := by
  have hp : x.proposed ⊆ x'.proposed := by
    cases hm with
    | made _ => exact List.subset_append_left _ _
    | accepted _ _ _ _ _ _ => exact List.subset_append_left _ _
    | _ => exact List.Subset.refl _
  obtain ⟨h1, h2, h3⟩ := hm.fixed
  obtain ⟨o, ho, hsrv, hep, hmem, hdata, hrest⟩ := h
  exact ⟨o, kvStep_outcomes_subset hs ho, hsrv.trans h1.symm, hep.trans h2.symm, hp hmem,
    h3 ▸ hdata, hrest⟩

/-- A leader's entries are in the log of its term. -/
theorem KvSim.booked (h : KvSim cfg g t) {n : Node} {e : LogEntry} (hn : t.raft.node p = some n)
    (hr : n.role = .leader) (hT : e.term = n.currentTerm) (he : e ∈ n.log.reals) :
    1 ≤ e.index ∧ (g.tlog e.term)[e.index - 1]? = some e := by
  have hup := h.sim.rel.up p n hn
  obtain ⟨j, hj⟩ := List.mem_iff_getElem?.mp he
  have hidx := hup.core.log.wf j e hj
  rw [hup.core.log.reals, List.getElem?_drop] at hj
  rw [hT, (hup.lead hr).tlog, hidx]
  refine ⟨by omega, ?_⟩
  rw [← hj]
  congr 1
  omega

theorem Told.step (h : Told g s) (hd : Proposed s) (hsh : Shelves g s) (hk : KvSim cfg g s)
    (hk' : KvSim cfg g' t) (hg : Grew g g') (ha : ReliableMatched s a)
    (hs : kvStep cfg s a = some t) : Told g' t := by
  have hi := hk.sim.rel.inv
  refine ⟨fun k x' i T hx' hat => ?_, fun k x' res hx' hres => ?_⟩
  · rcases kvStep_call hs hx' with ⟨x, hx, hm⟩ | ⟨-, hst, -⟩
    swap
    · rw [hst] at hat
      cases hat
    -- the log of a term only grows
    have hmono : ∀ {i T : ℕ}, x.status.attempt = some (i, T) →
        ∃ e ∈ x.proposed, e.index = i ∧ 1 ≤ i ∧ (g'.tlog T)[i - 1]? = some e := by
      intro i T hat
      obtain ⟨e, he, h1, h2, h3⟩ := h.booked k x i T hx hat
      exact ⟨e, he, h1, h2, prefix_getElem (hi.tlog_prefix hg T) h3⟩
    cases hm with
    | same => exact hmono hat
    | leaves hnone _ => exact absurd (hnone.symm.trans hat) (by simp)
    | made _ =>
      obtain ⟨e, he, hrest⟩ := hmono hat
      exact ⟨e, List.mem_append_left _ he, hrest⟩
    | @accepted q n es e _ hmem hn hrole hterm hlog =>
      obtain ⟨rfl, rfl⟩ := Prod.mk.inj (Option.some.inj hat)
      obtain ⟨h1, h2⟩ := hk'.booked hn hrole hterm hlog
      exact ⟨e, List.mem_append_right _ hmem, rfl, h1, h2⟩
    | waits hst => exact hmono (by rw [hst]; exact hat)
    | finds _ _ _ _ => cases hat
    | receives _ => cases hat
    | notified _ _ _ hst => exact hmono (by rw [hst]; exact hat)
  · rcases kvStep_call hs hx' with ⟨x, hx, hm⟩ | ⟨-, hst, -⟩
    swap
    · rw [hst] at hres
      cases hres
    have hold : ∀ {res}, x.status.result = some res → x'.Answered t res :=
      fun hr => (h.results k x _ hx hr).step hs hm
    -- an entry whose term is the attempt's
    have hmatch : ∀ {i T o}, x.status.attempt = some (i, T) → s.Hands a k i → o ∈ s.outcomes →
        o.server = x.server → o.epoch = x.epoch → o.entry.index = i → x'.Answered t o.result :=
      fun hat hh ho hsrv hep hidx => (h.answered hd hsh hi hx hat ho hsrv hep hidx
        (ha.2 k x _ _ hx hat hh _ ho hsrv hep hidx)).step hs hm
    cases hm with
    | same => exact hold hres
    | leaves _ hnone => exact absurd (hnone.symm.trans hres) (by simp)
    | made _ => exact hold hres
    | accepted _ _ _ _ _ _ => cases hres
    | waits _ => cases hres
    | finds hlive hact hat hrec =>
      obtain rfl := Option.some.inj hres
      obtain ⟨-, -, hep⟩ := KvState.live_some hlive
      obtain ⟨o, ho, hsrv, ho2, hidx, rfl⟩ := hsh.recent _ _ _ hrec
      exact hmatch hat (.inl ⟨hact, x, hx, by simp [hrec]⟩) ho hsrv (ho2.trans hep) hidx
    | receives hst =>
      obtain rfl := Option.some.inj hres
      exact hold (by rw [hst]; rfl)
    | @notified q index term r hact happ hw hst =>
      obtain rfl := Option.some.inj hres
      obtain ⟨y, hy, hsrv', hep'⟩ := hsh.waiters q index k hw
      obtain rfl := Option.mem_unique hx hy
      obtain ⟨o, ho, hsrv, hep, hidx, rfl⟩ := hsh.notifying q index _ happ
      exact hmatch (by rw [hst]; rfl) (.inr ⟨q, _, hact, happ, hw⟩) ho (hsrv.trans hsrv'.symm)
        (hep.trans hep'.symm) hidx

/-- A call that returns a result was told that of its own command: an entry made for it, with its
bytes, was committed and applied by its process, and this is what `Apply` returned. -/
theorem told_own_result (hs : Reaches (kvStep cfg) ReliableMatched cfg.init s)
    (hx : s.calls[k]? = some x) (hdone : x.status = .done (.ok res)) : x.Answered s res := by
  obtain ⟨g, -, -, -, htold⟩ := KvSim.invariant
    (I := fun g s => Proposed s ∧ Shelves g s ∧ Told g s) (fun _ _ h => h.1)
    ⟨proposed_init cfg, shelves_init cfg, told_init cfg⟩
    (fun g g' s a t hk hk' hg h ha ht =>
      ⟨h.1.step ht, h.2.1.step hk hg ht, h.2.2.step h.1 h.2.1 hk hk' hg ha ht⟩) hs
  exact htold.results k x res hx (by rw [hdone]; rfl)

/-- As long as everything is of one term, nothing is mixed up. -/
def KvState.oneTerm (s : KvState) (T : ℕ) : Bool :=
  (s.calls.all fun x => x.status.attempt.all fun y => y.2 = T) &&
    s.outcomes.all fun o => o.entry.term = T

theorem KvState.oneTerm_matched {T : ℕ} (ha : a.Reliable) (h : s.oneTerm T = true) :
    ReliableMatched s a := by
  simp only [KvState.oneTerm, Bool.and_eq_true, List.all_eq_true, decide_eq_true_eq] at h
  refine ⟨ha, fun k x i T' hx hat _ o ho _ _ _ => ?_⟩
  have hcall := h.1 x (List.mem_of_getElem? hx)
  rw [hat] at hcall
  simp only [Option.all_some, decide_eq_true_eq] at hcall
  rw [h.2 o ho, hcall]

def putReturns : List KvAction :=
  firstPut ++ [.register 0] ++ onNodes [.applierTake 1, .applierSend 1] ++
    [.take 1, .apply 1, .notify 1, .receive 0]

theorem putReturns_reliable : ∀ a ∈ putReturns, a.Reliable := by
  simp only [putReturns, List.forall_mem_append]
  refine ⟨⟨⟨firstPut_reliable, ?_⟩, reliable_onNodes ?_⟩, ?_⟩
  · simp [KvAction.Reliable]
  · simp [Action.Reliable, Action.io]
  · simp [KvAction.Reliable]

theorem told_own_result_pair : ∃ s x, Reaches (kvStep .pair) ReliableMatched KvConfig.pair.init s ∧
    s.calls[0]? = some x ∧ x.status = .done (.ok ⟨true, none, false⟩) ∧
    x.Answered s ⟨true, none, false⟩ := by
  have hs := Reaches.of_exec (kvStep .pair) ReliableMatched KvConfig.pair.init putReturns
    (Along.imp (P := fun s a => s.oneTerm 1 = true) (fun s a ha h => KvState.oneTerm_matched
      (putReturns_reliable a ha) h) (by decide)) rfl
  have hx := show (((exec (kvStep .pair) KvConfig.pair.init putReturns).get rfl).calls)[0]? =
    some _ from rfl
  exact ⟨_, _, hs, hx, rfl, told_own_result hs hx rfl⟩

/-- Node 1 of a trio puts the entry of a call at index 1 and loses its leadership. Node 2 is elected
without that entry, gets another call and replaces it; node 1 applies what stands there now. -/
def replaced : List KvAction :=
  onNodes [.restart 1, .restart 2, .restart 3, .tick 1 {}, .deliver 0 false {}, .respond 0 0 {},
      .deliver 2 false {}, .respond 2 0 {}] ++
    [.call 1 (.put [1] 5 [7] (some [1])), .enqueue 0, .propose 1 0 {}, .register 0] ++
    onNodes [.tick 2 {}, .deliver 5 false {}, .respond 5 0 {}, .deliver 7 false {},
      .respond 7 0 {}] ++
    [.call 2 (.cas [2] 9 [8] (some [9]) (some [2])), .enqueue 1, .propose 2 0 {}] ++
    onNodes [.replicate 2 1, .deliver 8 false {}, .respond 8 0 {}, .replicate 2 1,
      .deliver 9 false {}, .applierTake 1, .applierSend 1] ++
    [.take 1, .apply 1, .notify 1, .receive 0]

theorem replaced_reliable : ∀ a ∈ replaced, a.Reliable := by
  simp only [replaced, List.forall_mem_append]
  refine ⟨⟨⟨⟨⟨reliable_onNodes ?_, ?_⟩, reliable_onNodes ?_⟩, ?_⟩, reliable_onNodes ?_⟩, ?_⟩
  · simp [Action.Reliable, Action.io]
  · simp [KvAction.Reliable]
  · simp [Action.Reliable, Action.io]
  · simp [KvAction.Reliable]
  · simp [Action.Reliable, Action.io]
  · simp [KvAction.Reliable]

/-- The put returns the result of the failed compare-and-swap; it was never applied. -/
theorem told_other_result : ∃ s x, Reaches (kvStep .trio) (fun _ a => a.Reliable)
      KvConfig.trio.init s ∧ s.calls[0]? = some x ∧
    x.cmd = ⟨opPut, [1], 5, [7], some [1], none⟩ ∧
    x.status = .done (.ok ⟨false, none, false⟩) ∧
    s.outcomes.map (fun o => Command.decode o.entry.data) =
      [.ok ⟨opCAS, [2], 9, [8], some [2], some [9]⟩] ∧
    ¬ x.Answered s ⟨false, none, false⟩ := by
  have hs := Reaches.of_exec (kvStep .trio) (fun _ a => a.Reliable) KvConfig.trio.init replaced
    (.of_forall (fun _ => replaced_reliable) _) rfl
  have hx := show (((exec (kvStep .trio) KvConfig.trio.init replaced).get rfl).calls)[0]? =
    some _ from rfl
  refine ⟨_, _, hs, hx, rfl, rfl, rfl, ?_⟩
  rintro ⟨o, ho, -, -, hmem, -⟩
  obtain rfl := List.mem_singleton.mp ho
  revert hmem
  decide

end KMC
