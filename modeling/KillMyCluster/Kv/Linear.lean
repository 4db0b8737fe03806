import KillMyCluster.Kv.Queried
import KillMyCluster.Kv.Places

/-! The store is linearizable. A write takes effect where the first of its entries is committed, a
read sees the machine of its process between two entries, and both places are within the time of
the call. That needs what the code does not see to on its own: results that are handed out by index
belong to the term of the call, reads do not overtake the applier, are confirmed by heartbeats and
wait for a leader that has committed in its own term, and a command that is proposed again has a
client, a request number and a place in the window of the table. -/

namespace KMC

open LeaderLog Linear Trace

/-! ## What is asked of a run -/

def KvAction.Settled (s : KvState) : KvAction → Prop
  | .reads b => b.Settled s.reads
  | _ => True

/-- Results are matched with the terms of their calls, and reads are fresh: they do not overtake the
applier, are polled and are settled. -/
structure KvAction.MatchedFresh (s : KvState) (a : KvAction) : Prop where
  matched : ReliableMatched s a
  drained : ReliableDrained s a
  polled : a.Polled s
  settled : a.Settled s

def MatchedFresh (s : StoreState) (a : StoreAction) : Prop := ∀ b ∈ a.act, b.MatchedFresh s.kv

/-! ## Writes -/

structure KvState.Coherent (cfg : KvConfig) (g : Ghost) (s : KvState) : Prop where
  sim : KvSim cfg g s
  fed : Fed cfg s
  refines : Refines cfg g s
  gapless : Gapless s
  proposed : Proposed s
  shelves : Shelves g s
  told : Told g s
  ascribed : Ascribed g s

theorem kvCoherent_init (cfg : KvConfig) : cfg.init.Coherent cfg State.init :=
  ⟨kvSim_init cfg, fed_init cfg, refines_init cfg, gapless_init cfg, proposed_init cfg,
    shelves_init cfg, told_init cfg, ascribed_init cfg⟩

theorem KvState.Coherent.step {cfg : KvConfig} {g : Ghost} {s t : KvState} {a : KvAction}
    (h : s.Coherent cfg g) (ha : ReliableMatched s a) (hs : kvStep cfg s a = some t) :
    ∃ g', Grew g g' ∧ t.Coherent cfg g' := by
  obtain ⟨g', hg, hk'⟩ := h.sim.step ha.1 hs
  exact ⟨g', hg, hk', h.fed.step hs, h.refines.step h.fed h.sim hk' hg hs,
    h.gapless.step h.refines h.fed h.sim hs, h.proposed.step hs, h.shelves.step h.sim hg hs,
    h.told.step h.proposed h.shelves h.sim hk' hg ha hs,
    h.ascribed.step h.sim hk' hg ha.1 hs⟩

/-! ## Reads -/

variable {cfg : KvConfig} {g g' g₀ : Ghost} {s t u : StoreState} {a : StoreAction} {k c : ℕ}
  {x : GetCall} {res : ApplyResult}

/-- A read that has returned `res` saw the machine after `place` entries, and had been let through
for no more than those. -/
structure GetCall.Looked (g : Ghost) (s : KvState) (x : GetCall) (res : ApplyResult) : Prop where
  machine : ∃ m, Built g s.outcomes m x.place ∧ res = m.answer x.key
  covered : Covered s.outcomes x.place
  index : ∃ r ∈ s.reads.results, r.call = x.call ∧ r.ok = true ∧ r.index ≤ x.place

structure StoreState.Coherent (cfg : KvConfig) (g : Ghost) (s : StoreState) : Prop where
  kv : s.kv.Coherent cfg g
  chronicle : Chronicle s
  queried : Queried s.kv s.gets
  granted : ∀ x ∈ s.gets, x.status = .granted →
    ∃ r ∈ s.kv.reads.results, r.call = x.call ∧ r.ok = true
  looked : ∀ x ∈ s.gets, ∀ res, x.status = .done (.ok res) → x.Looked g s.kv res

theorem storeCoherent_init (cfg : KvConfig) : cfg.store.Coherent cfg State.init :=
  ⟨kvCoherent_init cfg, chronicle_init cfg, queried_init cfg, by simp [KvConfig.store],
    by simp [KvConfig.store]⟩

theorem kvStep_results {s t : KvState} {a : KvAction} (hs : kvStep cfg s a = some t) :
    s.reads.results ⊆ t.reads.results := by
  rcases kvStep_reads hs with heq | ⟨b, hb, -, -⟩
  · rw [heq]
    exact List.Subset.refl _
  · exact readStep_results hb

theorem GetCall.Looked.step {s t : KvState} {a : KvAction} (h : x.Looked g s res)
    (hi : cfg.raft.Inv g) (hg : Grew g g') (hs : kvStep cfg s a = some t) : x.Looked g' t res := by
  obtain ⟨⟨m, hm, hres⟩, hc, r, hr, hrest⟩ := h
  have hsub := kvStep_outcomes_subset hs
  exact ⟨⟨m, hm.mono hi hg hsub, hres⟩, hc.mono hsub, r, kvStep_results hs hr, hrest⟩

theorem StoreState.Coherent.step (h : s.Coherent cfg g) (ha : MatchedFresh s a)
    (hs : storeStep cfg s a = some t) : ∃ g', Grew g g' ∧ t.Coherent cfg g' := by
  have hchron := h.chronicle.step hs
  have hi := h.kv.sim.sim.rel.inv
  have hmem : ∀ {k : ℕ} {x y z : GetCall}, s.liveGet k = some x → z ∈ s.gets.set k y →
      z ∈ s.gets ∨ z = y := fun _ hz => List.mem_or_eq_of_mem_set hz
  cases storeStep_cases hs with
  | @kv b v _ hk =>
    obtain ⟨g', hg, hv⟩ := h.kv.step (ha b rfl).matched hk
    refine ⟨g', hg, hv, hchron, h.queried.kv h.kv.fed h.kv.sim hv.sim (ha b rfl).drained
      (ha b rfl).polled hk, fun x hx hst => ?_, fun x hx res hst => ?_⟩
    · obtain ⟨r, hr, hrest⟩ := h.granted x hx hst
      exact ⟨r, kvStep_results hk hr, hrest⟩
    · exact (h.looked x hx res hst).step hi hg hk
  | @get p held api v hk =>
    have hb := ha _ rfl
    obtain ⟨g', hg, hv⟩ := h.kv.step hb.matched hk
    have hqueried := h.queried.kv h.kv.fed h.kv.sim hv.sim hb.drained hb.polled hk
    refine ⟨g', hg, hv, hchron, h.queried.get hqueried hk, fun x hx hst => ?_,
      fun x hx res hst => ?_⟩
    · rcases List.mem_append.mp hx with hx | hx
      · obtain ⟨r, hr, hrest⟩ := h.granted x hx hst
        exact ⟨r, kvStep_results hk hr, hrest⟩
      · obtain rfl := List.mem_singleton.mp hx
        cases hst
    · rcases List.mem_append.mp hx with hx | hx
      · exact (h.looked x hx res hst).step hi hg hk
      · obtain rfl := List.mem_singleton.mp hx
        cases hst
  | @grant k x r hx hst hr hcall hok =>
    obtain ⟨hget, -⟩ := StoreState.liveGet_some hx
    refine ⟨g, .refl g, h.kv, hchron, h.queried.set hget rfl rfl rfl, fun y hy hst => ?_,
      fun y hy res hst => ?_⟩
    · rcases hmem hx hy with hy | rfl
      · exact h.granted y hy hst
      · exact ⟨r, hr, hcall, hok⟩
    · rcases hmem hx hy with hy | rfl
      · exact h.looked y hy res hst
      · cases hst
  | @fail _ k x err hx hst _ =>
    obtain ⟨hget, -⟩ := StoreState.liveGet_some hx
    refine ⟨g, .refl g, h.kv, hchron, h.queried.set hget rfl rfl rfl, fun y hy hst => ?_,
      fun y hy res hst => ?_⟩
    · rcases hmem hx hy with hy | rfl
      · exact h.granted y hy hst
      · cases hst
    · rcases hmem hx hy with hy | rfl
      · exact h.looked y hy res hst
      · cases hst
  | @look k x hx hst =>
    obtain ⟨hget, hepoch⟩ := StoreState.liveGet_some hx
    refine ⟨g, .refl g, h.kv, hchron, h.queried.set hget rfl rfl rfl, fun y hy hst => ?_,
      fun y hy res hst' => ?_⟩
    · rcases hmem hx hy with hy | rfl
      · exact h.granted y hy hst
      · cases hst
    · rcases hmem hx hy with hy | rfl
      · exact h.looked y hy res hst'
      · obtain ⟨r, hr, hcall, hok⟩ := h.granted x (List.mem_of_getElem? hget) hst
        obtain rfl := Except.ok.inj (GetStatus.done.inj hst')
        refine ⟨⟨_, h.kv.refines.machines x.server, rfl⟩, h.kv.gapless.machines x.server, r, hr,
          hcall, hok, ?_⟩
        exact (h.queried.results r hr hok).2 x (List.mem_of_getElem? hget) hcall.symm hepoch

/-! ## Marks -/

/-- What the state `u` of a run has to do with a later state `s`: the writes that are not yet called
in `u` get their entries behind what is committed, the reads that are not yet called have to cover
it, and the places of those that have returned stay what they are. -/
structure Mark (cfg : KvConfig) (g₀ : Ghost) (u : StoreState) (g : Ghost) (s : StoreState) :
    Prop where
  grew : Grew g₀ g
  outcomes : u.kv.outcomes ⊆ s.kv.outcomes
  calls : ∀ (k : ℕ) (x : KvCall), u.kv.calls[k]? = some x →
    ∃ x', s.kv.calls[k]? = some x' ∧ x.proposed ⊆ x'.proposed
  behind : Behind g₀ u.kv.calls.length s.kv
  gets : ∀ (k : ℕ) (x : GetCall) (res : ApplyResult), u.gets[k]? = some x →
    x.status = .done (.ok res) → s.gets[k]? = some x
  later : ∀ (k : ℕ) (x : GetCall), u.gets.length ≤ k → s.gets[k]? = some x →
    u.kv.reads.calls ≤ x.call
  reads : u.kv.reads.calls ≤ s.kv.reads.calls
  watched : ∀ T L, Committed g₀ T L → ∀ id, u.kv.reads.calls ≤ id →
    LateRead cfg.setting u.kv.raft g₀ L.length id s.kv.reads

theorem Mark.refl (h : s.Coherent cfg g) : Mark cfg g s g s where
  grew := .refl g
  outcomes := List.Subset.refl _
  calls _ x hx := ⟨x, hx, List.Subset.refl _⟩
  behind k x hk hx := by
    rw [List.getElem?_eq_none hk] at hx
    cases hx
  gets _ _ _ hx _ := hx
  later k x hk hx := by
    rw [List.getElem?_eq_none hk] at hx
    cases hx
  reads := le_rfl
  watched T L hL id hid := by
    have hnum := h.queried.numbered
    refine ⟨.refl h.kv.sim.sim, fun p _ _ _ _ hm _ => ?_, fun p _ hm _ => ?_,
      fun r hr heq hround => ?_⟩
    · exact absurd (hnum.batched p _ hm) (by omega)
    · exact absurd (hnum.batched p _ hm) (by omega)
    · exact absurd (hnum.returned r hr hround) (by omega)

/-- The writing side makes a step. -/
theorem Mark.kv {v : KvState} {b : KvAction} (evs : List StoreEvent) (h : Mark cfg g₀ u g s)
    (hu : u.Coherent cfg g₀) (hc : s.Coherent cfg g) (hg : Grew g g') (hb : b.MatchedFresh s.kv)
    (hs : kvStep cfg s.kv b = some v) :
    Mark cfg g₀ u g' { s with kv := v, history := evs } where
  grew := h.grew.trans hg
  outcomes := List.Subset.trans h.outcomes (kvStep_outcomes_subset hs)
  calls k x hx := by
    obtain ⟨y, hy, hsub⟩ := h.calls k x hx
    obtain ⟨z, hz, hm⟩ := kvStep_call_stays hs hy
    exact ⟨z, hz, List.Subset.trans hsub hm.proposed⟩
  behind := h.behind.step hu.kv.sim.sim.rel.inv h.grew hc.kv.sim hs
  gets := h.gets
  later := h.later
  reads := by
    rcases kvStep_reads hs with heq | ⟨c, hc, -⟩
    · exact heq ▸ h.reads
    · exact h.reads.trans (readStep_calls hc)
  watched T L hL id hid := by
    rcases kvStep_reads hs with heq | ⟨c, hc, hrel, hset⟩
    · exact heq ▸ h.watched T L hL id hid
    · refine (h.watched T L hL id hid).step_committed (fun _ _ => cfg.allowed) hu.kv.sim.sim hL
        ⟨hrel hb.drained.1, ?_⟩ hc
      rcases hset with rfl | ⟨y, rfl⟩
      · exact hb.settled
      · trivial

theorem Mark.setGet {x' : GetCall} {evs : List StoreEvent} (h : Mark cfg g₀ u g s)
    (hx : s.gets[k]? = some x) (hst : ∀ res, x.status ≠ .done (.ok res))
    (hcall : x'.call = x.call) :
    Mark cfg g₀ u g { s.setGet k x' with history := evs } where
  grew := h.grew
  outcomes := h.outcomes
  calls := h.calls
  behind := h.behind
  gets j y res hy hst' := by
    have hold := h.gets j y res hy hst'
    have hne : k ≠ j := by
      rintro rfl
      obtain rfl := Option.mem_unique hx hold
      exact hst res hst'
    simpa only [StoreState.setGet, List.getElem?_set, if_neg hne] using hold
  later j y hj hy := by
    simp only [StoreState.setGet, List.getElem?_set] at hy
    split at hy
    · rename_i hkj
      subst hkj
      split at hy
      · obtain rfl := Option.some.inj hy
        exact hcall ▸ h.later k x hj hx
      · cases hy
    · exact h.later j y hj hy
  reads := h.reads
  watched := h.watched

theorem Mark.step (h : Mark cfg g₀ u g s) (hu : u.Coherent cfg g₀) (hc : s.Coherent cfg g)
    (hg : Grew g g') (ha : MatchedFresh s a) (hs : storeStep cfg s a = some t) :
    Mark cfg g₀ u g' t := by
  have hgrew : ∀ {t}, Mark cfg g₀ u g t → Mark cfg g₀ u g' t :=
    fun h => { h with grew := h.grew.trans hg }
  cases storeStep_cases hs with
  | @kv b v _ hk => exact h.kv _ hu hc hg (ha b rfl) hk
  | @get p held api v hk =>
    have hv := h.kv s.history hu hc hg (ha _ rfl) hk
    refine ⟨hv.grew, hv.outcomes, hv.calls, hv.behind, fun k x res hx hst => ?_,
      fun k x hk hx => ?_, hv.reads, hv.watched⟩
    · have hold := h.gets k x res hx hst
      exact List.getElem?_append_left (List.getElem?_eq_some_iff.mp hold).1 ▸ hold
    · rcases getElem_concat hx with ⟨-, hx⟩ | ⟨-, rfl⟩
      · exact h.later k x hk hx
      · exact h.reads
  | grant hx hst _ _ _ =>
    exact hgrew (h.setGet (StoreState.liveGet_some hx).1 (by simp [hst]) rfl)
  | fail hx hst _ => exact hgrew (h.setGet (StoreState.liveGet_some hx).1 (by simp [hst]) rfl)
  | look hx hst => exact hgrew (h.setGet (StoreState.liveGet_some hx).1 (by simp [hst]) rfl)

theorem storeStep_history (hs : storeStep cfg s a = some t) :
    ∃ evs, t.history = s.history ++ evs ∧ evs.length ≤ 1 := by
  cases storeStep_cases hs with
  | @kv b v _ hk =>
    refine ⟨_, rfl, ?_⟩
    have hshown := kvStep_shown hk
    generalize s.kv.seen b v = evs at hshown
    cases hshown <;> simp
  | get _ => exact ⟨_, rfl, le_rfl⟩
  | grant _ _ _ _ _ => exact ⟨[], (List.append_nil _).symm, by simp⟩
  | fail _ _ _ => exact ⟨[], (List.append_nil _).symm, by simp⟩
  | look _ _ => exact ⟨_, rfl, le_rfl⟩

/-- There is a mark at every event of the history. -/
theorem store_marked (hs : Reaches (storeStep cfg) MatchedFresh cfg.store s) :
    ∃ g, s.Coherent cfg g ∧ ∀ m ≤ s.history.length, ∃ g₀ u, u.Coherent cfg g₀ ∧
      u.history = s.history.take m ∧ Mark cfg g₀ u g s := by
  refine hs.invariant (I := fun s => ∃ g, s.Coherent cfg g ∧ ∀ m ≤ s.history.length, ∃ g₀ u,
    u.Coherent cfg g₀ ∧ u.history = s.history.take m ∧ Mark cfg g₀ u g s) ?_ ?_
  · rintro s a t ⟨g, hc, hmarks⟩ ha ht
    obtain ⟨g', hg, hc'⟩ := hc.step ha ht
    refine ⟨g', hc', fun m hm => ?_⟩
    obtain ⟨evs, hevs, hlen⟩ := storeStep_history ht
    by_cases hold : m ≤ s.history.length
    · obtain ⟨g₀, u, hu, hhist, hmark⟩ := hmarks m hold
      refine ⟨g₀, u, hu, ?_, hmark.step hu hc hg ha ht⟩
      rw [hevs, List.take_append_of_le_length hold, hhist]
    · refine ⟨g', t, hc', (List.take_of_length_le ?_).symm, .refl hc'⟩
      rw [hevs, List.length_append] at hm ⊢
      omega
  · refine ⟨State.init, storeCoherent_init cfg, fun m hm => ?_⟩
    exact ⟨State.init, cfg.store, storeCoherent_init cfg, by simp [KvConfig.store],
      .refl (storeCoherent_init cfg)⟩

/-! ## The result -/

section Result

variable {es : List LogEntry} {cmds : List Command}

theorem KvState.returned_some {s : KvState} (h : s.returned k = some res) :
    ∃ x, s.calls[k]? = some x ∧ x.status = .done (.ok res) := by
  obtain ⟨x, hx, h⟩ := Option.bind_eq_some_iff.mp h
  refine ⟨x, hx, ?_⟩
  unfold CallStatus.returned at h
  split at h
  · rename_i hst
    rw [hst, Option.some.inj h]
  · cases h

theorem StoreState.returned_some (h : s.returned (.read k) = some res) :
    ∃ x, s.gets[k]? = some x ∧ x.status = .done (.ok res) := by
  obtain ⟨x, hx, h⟩ := Option.bind_eq_some_iff.mp h
  refine ⟨x, hx, ?_⟩
  unfold GetStatus.returned at h
  split at h
  · rename_i hst
    rw [hst, Option.some.inj h]
  · cases h

/-- A write that has returned by a mark has an entry within what was committed then. -/
theorem Mark.written (h : Mark cfg g₀ u g s) (hu : u.Coherent cfg g₀) (hc : s.Coherent cfg g)
    (hw : Whole g s.kv.outcomes es cmds) (hret : u.returned (.write c) = some res) :
    ∃ x T L k, s.kv.calls[c]? = some x ∧
      Committed g₀ T L ∧ x.EntryAt es k ∧ k < L.length := by
  obtain ⟨y, hy, hst⟩ := KvState.returned_some hret
  obtain ⟨o, ho, -, -, hmem, -⟩ := hu.kv.told.results c y res hy (by rw [hst]; rfl)
  obtain ⟨x, hx, hsub⟩ := h.calls c y hy
  have hos := h.outcomes ho
  obtain ⟨k, -, hidx, hk, -⟩ := hw.outcome hc.kv.sim.sim.rel.inv hos
    (hc.kv.refines.outcomes o hos)
  obtain ⟨es', _, _, hh, hlen, -⟩ := hu.kv.refines.outcomes o ho
  obtain ⟨T, hT⟩ := hh.committed
  refine ⟨x, T, _, k, hx, hT, ⟨o.entry, hk, hsub hmem⟩, ?_⟩
  rw [List.length_append, List.length_singleton]
  omega

/-- A read that has returned by a mark saw what was committed then. -/
theorem Mark.seen (h : Mark cfg g₀ u g s) (hu : u.Coherent cfg g₀)
    (hret : u.returned (.read c) = some res) :
    ∃ x T L, s.gets[c]? = some x ∧ Committed g₀ T L ∧ x.place = L.length := by
  obtain ⟨x, hx, hst⟩ := StoreState.returned_some hret
  obtain ⟨m, ⟨es', _, hh, hlen, -⟩, -⟩ := (hu.looked x (List.mem_of_getElem? hx) res hst).machine
  obtain ⟨T, hT⟩ := hh.committed
  exact ⟨x, T, es', h.gets c x res hx hst, hT, hlen.symm⟩

/-- A write that has not been called by a mark has its entries behind what was committed then. -/
theorem Mark.unwritten {T : ℕ} {x : KvCall} {L : List LogEntry} (h : Mark cfg g₀ u g s)
    (hu : u.Coherent cfg g₀) (hc : s.Coherent cfg g) (hw : Whole g s.kv.outcomes es cmds)
    (hcall : u.called (.write c) = none) (hx : s.kv.calls[c]? = some x) (hk : x.EntryAt es k)
    (hL : Committed g₀ T L) : L.length ≤ k := by
  obtain ⟨e, he, hmem⟩ := hk
  have hnew : u.kv.calls.length ≤ c := by simpa [StoreState.called] using hcall
  have hidx := hw.numbered k e he
  obtain ⟨T', hT'⟩ := hw.committed
  have := behind_committed hu.kv.sim.sim.rel.inv hc.kv.sim.sim.rel.inv h.grew hL hT'
    (by rw [hidx]; exact he) (by omega) (h.behind c x hnew hx e hmem)
  omega

/-- A read that has not been called by a mark sees all that was committed then. -/
theorem Mark.unseen {T : ℕ} {L : List LogEntry} (h : Mark cfg g₀ u g s) (hc : s.Coherent cfg g)
    (hcall : u.called (.read c) = none) (hx : s.gets[c]? = some x)
    (hst : x.status = .done (.ok res)) (hL : Committed g₀ T L) : L.length ≤ x.place := by
  have hnew : u.gets.length ≤ c := by simpa [StoreState.called] using hcall
  obtain ⟨r, hr, hrc, hok, hle⟩ := (hc.looked x (List.mem_of_getElem? hx) res hst).index
  have hround := (hc.queried.results r hr hok).1
  exact ((h.watched T L hL x.call (h.later c x hnew hx)).results r hr hrc hround).trans hle

/-- What has returned by a mark has its place within what was committed then. -/
theorem Mark.ends {i : CallId} (h : Mark cfg g₀ u g s) (hu : u.Coherent cfg g₀)
    (hc : s.Coherent cfg g) (hw : Whole g s.kv.outcomes es cmds) (hret : u.returned i = some res) :
    ∃ T L, Committed g₀ T L ∧
      (∀ c x, i = .write c → s.kv.calls[c]? = some x → ∃ k < L.length, x.EntryAt es k) ∧
      ∀ c x, i = .read c → s.gets[c]? = some x → x.place ≤ L.length := by
  cases i with
  | write c =>
    obtain ⟨y, T, L, k, hy, hL, hat, hlt⟩ := h.written hu hc hw hret
    refine ⟨T, L, hL, fun c' x heq hx => ?_, fun _ _ heq => by cases heq⟩
    obtain rfl := CallId.write.inj heq
    obtain rfl := Option.mem_unique hx hy
    exact ⟨k, hlt, hat⟩
  | read c =>
    obtain ⟨y, T, L, hy, hL, hplace⟩ := h.seen hu hret
    refine ⟨T, L, hL, fun _ _ heq => (by cases heq), fun c' x heq hx => ?_⟩
    obtain rfl := CallId.read.inj heq
    obtain rfl := Option.mem_unique hx hy
    exact hplace.le

/-- A write that has returned was told the result of an entry of its own. -/
theorem StoreState.Coherent.answered (hc : s.Coherent cfg g)
    (hret : s.returned (.write c) = some res) : ∃ (x : KvCall) (o : Outcome),
      s.kv.calls[c]? = some x ∧ o ∈ s.kv.outcomes ∧ o.entry ∈ x.proposed ∧ o.result = res := by
  obtain ⟨x, hx, hst⟩ := KvState.returned_some hret
  obtain ⟨o, ho, -, -, hmem, -, -, hres⟩ := hc.kv.told.results c x res hx (by rw [hst]; rfl)
  exact ⟨x, o, hx, ho, hmem, hres⟩

namespace StoreState

def written (s : StoreState) : CallId → Option KvCall
  | .write k => s.kv.calls[k]?
  | .read _ => none

def view (s : StoreState) : CallId → Option (ℕ × Bytes)
  | .write _ => none
  | .read k => s.gets[k]?.bind fun x => x.status.returned.map fun _ => (x.place, x.key)

end StoreState

theorem StoreState.view_some {i : CallId} {p : ℕ} {key : Bytes} (h : s.view i = some (p, key)) :
    ∃ c x res, i = .read c ∧ s.gets[c]? = some x ∧ x.status = .done (.ok res) ∧ p = x.place ∧
      key = x.key := by
  cases i with
  | write c => cases h
  | read c =>
    obtain ⟨x, hx, h⟩ := Option.bind_eq_some_iff.mp h
    obtain ⟨res, hres, h⟩ := Option.map_eq_some_iff.mp h
    obtain ⟨rfl, rfl⟩ := Prod.mk.inj h
    refine ⟨c, x, res, rfl, hx, ?_, rfl, rfl⟩
    unfold GetStatus.returned at hres
    split at hres
    · rename_i hst
      rw [hst, Option.some.inj hres]
    · cases hres

/-- The calls of the store have their places within their times. -/
theorem StoreState.Coherent.placement (hc : s.Coherent cfg g)
    (hmarks : ∀ m ≤ s.history.length, ∃ g₀ u, u.Coherent cfg g₀ ∧
      u.history = s.history.take m ∧ Mark cfg g₀ u g s)
    (hw : Whole g s.kv.outcomes es cmds) (hsafe : ∀ x ∈ s.kv.calls, x.Safe s.kv) :
    Nonempty (Placement g s.kv es s.history) := by
  have hcalls : ∀ {i x}, s.written i = some x → ∃ c, i = .write c ∧ s.kv.calls[c]? = some x := by
    intro i x hx
    cases i with
    | write c => exact ⟨c, rfl, hx⟩
    | read c => cases hx
  refine ⟨⟨s.called, s.returned, s.written, s.view, hc.chronicle, fun i x hx => ?_,
    fun i i' x x' e hx hx' he he' => ?_, fun o ho => ?_, fun i x res hx hret => ?_,
    fun i p key hv => ?_, fun i hret => ?_, fun i j hij => ?_⟩⟩
  · obtain ⟨c, rfl, hcall⟩ := hcalls hx
    exact ⟨by simp [StoreState.called, hcall], rfl, hsafe x (List.mem_of_getElem? hcall),
      hc.kv.proposed c x hcall⟩
  · obtain ⟨c, rfl, hcall⟩ := hcalls hx
    obtain ⟨c', rfl, hcall'⟩ := hcalls hx'
    rw [hc.kv.ascribed.sole c c' x x' e hcall hcall' he he']
  · obtain ⟨c, x, hx, hmem⟩ := hc.kv.ascribed.origins.outcomes o ho
    exact ⟨.write c, x, hx, hmem⟩
  · obtain ⟨c, rfl, hcall⟩ := hcalls hx
    obtain ⟨y, o, hy, ho, hmem, rfl⟩ := hc.answered hret
    obtain rfl := Option.mem_unique hcall hy
    exact ⟨o, ho, hmem, rfl⟩
  · obtain ⟨c, x, res, rfl, hx, hst, rfl, rfl⟩ := StoreState.view_some hv
    obtain ⟨⟨m, hm, rfl⟩, hcov, -⟩ := hc.looked x (List.mem_of_getElem? hx) res hst
    exact ⟨by simp [StoreState.called, hx], hcov, m, _, hm,
      by rw [StoreState.returned_read hx, hst]; rfl, rfl⟩
  · obtain ⟨res, hret⟩ := Option.ne_none_iff_exists'.mp hret
    cases i with
    | write c =>
      obtain ⟨x, hx, -⟩ := KvState.returned_some hret
      exact .inl (by simp [StoreState.written, hx])
    | read c =>
      obtain ⟨x, hx, hst⟩ := StoreState.returned_some hret
      exact .inr (by simp [StoreState.view, hx, hst, GetStatus.returned])
  · obtain ⟨m, hm, ⟨res, hret⟩, hcall⟩ := hc.chronicle.before hij
    obtain ⟨g₀, u, hu, hhist, hmark⟩ := hmarks m hm
    rw [← hhist, hu.chronicle.returns] at hret
    have hcalled : u.called j = none := by
      by_contra hne
      obtain ⟨op, hop⟩ := Option.ne_none_iff_exists'.mp hne
      exact hcall op (hhist ▸ (hu.chronicle.calls j op).mpr hop)
    obtain ⟨T, L, hL, hwrite, hread⟩ := hmark.ends hu hc hw hret
    refine ⟨L.length, fun x hx => ?_, fun p key hv => ?_, fun x k hx hat => ?_, fun p key hv => ?_⟩
    · obtain ⟨c, rfl, hx⟩ := hcalls hx
      exact hwrite c x rfl hx
    · obtain ⟨c, x, -, rfl, hx, -, rfl, -⟩ := StoreState.view_some hv
      exact hread c x rfl hx
    · obtain ⟨c, rfl, hx⟩ := hcalls hx
      exact hmark.unwritten hu hc hw hcalled hx hat hL
    · obtain ⟨c, x, res, rfl, hx, hst, rfl, -⟩ := StoreState.view_some hv
      exact hmark.unseen hc hcalled hx hst hL

end Result

/-- Whatever clients call on whatever processes, with crashes, restarts, changes of leader, retries
and snapshots in between: there is an order of their operations that one machine, alone, would have
answered as they were answered, and in which no operation comes before one that had returned when
it was called. -/
theorem store_linearizable (hs : Reaches (storeStep cfg) MatchedFresh cfg.store s)
    (hsafe : ∀ x ∈ s.kv.calls, x.Safe s.kv) : Linearizable storeObject s.history := by
  obtain ⟨g, hc, hmarks⟩ := store_marked hs
  obtain ⟨es, cmds, hw⟩ := hc.kv.refines.whole hc.kv.gapless hc.kv.sim.sim.rel.inv
  obtain ⟨P⟩ := hc.placement hmarks hw hsafe
  exact P.linearizable hw hc.kv.sim.sim.rel.inv hc.kv.refines.outcomes

/-! ## A run -/

instance (s : KvState) : (a : KvAction) → Decidable (a.Settled s)
  | .reads b => inferInstanceAs (Decidable (b.Settled s.reads))
  | .call .. | .enqueue .. | .propose .. | .refuse .. | .register .. | .receive .. | .cancel ..
  | .timeout .. | .take .. | .apply .. | .notify .. | .gate .. | .compact .. => isTrue trivial

/-- Everything is of one term and nothing is in flight when a wait of the readers ends after a
round. -/
def StoreState.calm (s : StoreState) (a : StoreAction) : Bool :=
  a.act.all fun b => s.kv.oneTerm 1 && decide (b.Settled s.kv) && match b with
    | .reads (.applied p) => match (s.kv.reads.readers p).phase with
      | .waiting _ round => round && (s.kv.inFlight p).isEmpty
      | _ => true
    | .reads (.appliedLeased _ _) => false
    | _ => true

theorem StoreState.calm_matchedFresh (hrel : ∀ b ∈ a.act, b.Reliable) (h : s.calm a = true) :
    MatchedFresh s a := by
  intro b hb
  simp only [StoreState.calm, Option.all_eq_true, Bool.and_eq_true, decide_eq_true_eq] at h
  obtain ⟨⟨hone, hset⟩, hread⟩ := h b hb
  have hwait : ∀ {p : ℕ}, b = .reads (.applied p) → ∀ {i : ℕ} {round : Bool},
      (s.kv.reads.readers p).phase = .waiting i round →
      round = true ∧ s.kv.inFlight p = [] := by
    rintro p rfl i round hph
    simpa [hph] using hread
  have hleased : ∀ {p i : ℕ}, b ≠ .reads (.appliedLeased p i) := by
    rintro p i rfl
    cases hread
  refine ⟨KvState.oneTerm_matched (hrel b hb) hone, ⟨hrel b hb, fun p r haw m hm => ?_⟩, ?_, hset⟩
  · cases b with
    | reads c =>
      cases c with
      | applied q =>
        simp only [KvState.awaited, ReadState.awaited] at haw
        split at haw
        · rename_i hph
          obtain ⟨rfl, rfl⟩ := Prod.mk.inj (Option.some.inj haw)
          rw [(hwait rfl hph).2] at hm
          cases hm
        · cases haw
      | appliedLeased => exact absurd rfl hleased
      | _ => cases haw
    | _ => cases haw
  · unfold KvAction.Polled
    split
    · split
      · rename_i hph
        exact (hwait rfl hph).1
      · trivial
    · exact absurd rfl hleased
    · trivial

/-- A put is proposed again after a timeout, with the put of another client in between; then a
read. -/
def putTwiceRead : List StoreAction :=
  (putTwice [1] 5).map .kv ++ [.get 1 false (.get [7])] ++
    (readPair.drop 1 ++ [KvAction.reads (.applied 1)]).map .kv ++ [.grant 0, .look 0]

theorem putTwiceRead_reliable : ∀ a ∈ putTwiceRead, ∀ b ∈ a.act, b.Reliable := by
  have hkv : ∀ {acts : List KvAction}, (∀ b ∈ acts, b.Reliable) →
      ∀ a ∈ acts.map StoreAction.kv, ∀ b ∈ a.act, b.Reliable := by
    intro acts h a ha b hb
    obtain ⟨c, hc, rfl⟩ := List.mem_map.mp ha
    obtain rfl := Option.some.inj hb
    exact h c hc
  simp only [putTwiceRead, List.forall_mem_append]
  refine ⟨⟨⟨hkv (putTwice_reliable _ _), ?_⟩, hkv ?_⟩, ?_⟩
  · simp [StoreAction.act, KvAction.Reliable, ReadAction.Reliable, ReadAction.act]
  · rw [List.forall_mem_append]
    refine ⟨fun b hb => readPair_reliable b (List.mem_of_mem_drop hb), ?_⟩
    simp [KvAction.Reliable, ReadAction.Reliable, ReadAction.act]
  · simp [StoreAction.act]

theorem store_linearizable_pair : ∃ s,
    Reaches (storeStep .pair) MatchedFresh KvConfig.pair.store s ∧
    s.history = [.call (.write 0) (.write ⟨opPut, [1], 5, [7], some [1], none⟩),
      .call (.write 1) (.write ⟨opPut, [2], 9, [7], some [2], none⟩),
      .ret (.write 1) ⟨true, some [1], false⟩, .ret (.write 0) ⟨true, none, true⟩,
      .call (.read 0) (.read [7]), .ret (.read 0) ⟨true, some [2], false⟩] ∧
    Linearizable storeObject s.history := by
  have hs := Reaches.of_exec (storeStep .pair) MatchedFresh KvConfig.pair.store putTwiceRead
    (Along.imp (P := fun s a => s.calm a = true) (fun s a ha h => StoreState.calm_matchedFresh
      (putTwiceRead_reliable a ha) h) (by decide)) rfl
  refine ⟨_, hs, rfl, store_linearizable hs fun x hx => ?_⟩
  obtain ⟨i, hi⟩ := List.mem_iff_getElem?.mp hx
  rcases i with _ | _ | i
  · obtain rfl := Option.some.inj hi
    exact ⟨⟨by decide, by decide, by decide⟩, fun _ => guarded_put rfl rfl⟩
  · obtain rfl := Option.some.inj hi
    exact ⟨⟨by decide, by decide, by decide⟩, fun h => absurd h (by decide)⟩
  · cases hi

end KMC
