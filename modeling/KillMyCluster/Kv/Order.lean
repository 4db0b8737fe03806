import KillMyCluster.Durable.Memory
import KillMyCluster.Kv.Propose

/-! Entries and the calls they were made for. Whatever a machine applies was proposed, for one call
and no other; and a call that begins when an entry has been applied gets its own entries behind
it. -/

namespace KMC

open LeaderLog Trace

variable {cfg : KvConfig} {g g' : Ghost} {s t : KvState} {a : KvAction} {p k : ℕ} {x x' : KvCall}
  {e : LogEntry} {o o' : Outcome} {n : Node} {io : Io}

/-! ## Leaders -/

/-- A leader has led before the step, or nobody has led its term. -/
theorem Setting.Sim.led_before {K : Setting} {s t : State} {a : Action} {m : Node}
    (h : K.Sim g s) (h' : K.Sim g' t) (hg : Grew g g') (hs : KMC.step K.cfg s a = some t)
    (hm : t.node p = some m) (hr : m.role = .leader) :
    (∃ n, s.node p = some n ∧ n.role = .leader ∧ n.currentTerm = m.currentTerm) ∨
      g.leader m.currentTerm = none := by
  have hlead := ((h'.rel.up p m hm).lead hr).leader
  have hfresh : g.leader m.currentTerm ≠ some p → g.leader m.currentTerm = none := by
    intro hne
    by_contra hled
    obtain ⟨c, hc⟩ := Option.ne_none_iff_exists'.mp hled
    have := (hg.leader _ _ hc).symm.trans hlead
    exact hne (hc.trans this)
  cases step_lineage hs hm with
  | @acts n io e hn hsec _ _ he =>
    subst he
    have hup := h.rel.up p n hn
    rcases hsec.turn with hturn | ⟨-, heq⟩
    · cases hturn with
      | keeps h1 h2 _ => exact .inl ⟨n, hn, h1 ▸ hr, h2.symm⟩
      | follows h1 _ => rw [h1] at hr; cases hr
      | stands h1 _ => rw [h1] at hr; cases hr
      | leads _ _ hfrom =>
        refine .inr (hfresh ?_)
        rcases hfrom with ⟨hcand, hT⟩ | ⟨-, hT⟩
        · exact hT ▸ (hup.cand hcand).2
        · intro hled
          have := h.rel.inv.cand_le _ _ _ (h.rel.inv.elected _ _ hled).1
          have hterm := hup.core.vote.term
          omega
    · rw [heq] at hr ⊢
      exact .inl ⟨n, hn, hr, rfl⟩
  | rests hn _ he =>
    subst he
    exact .inl ⟨_, hn, hr, rfl⟩
  | starts _ _ _ he =>
    subst he
    cases hr

/-- The log of a leader's term is as long as its log. -/
theorem Setting.Sim.tlog_length {K : Setting} {s : State} (h : K.Sim g s) (hn : s.node p = some n)
    (hr : n.role = .leader) : (g.tlog n.currentTerm).length = n.log.lastIndex := by
  have hup := h.rel.up p n hn
  rw [(hup.lead hr).tlog, hup.core.log.lastIndex]

/-! ## Entries -/

def KvState.batch (s : KvState) (p m : ℕ) : List ℕ := (s.kvs p).props.take (m + 1)

def KvState.Makes (s : KvState) (a : KvAction) (k : ℕ) (e : LogEntry) : Prop :=
  ∃ p m io n, a = .propose p m io ∧ s.raft.node p = some n ∧ n.role = .leader ∧
    (k, e) ∈ (s.batch p m).zip
      (Node.newEntries n.currentTerm n.log.lastIndex ((s.batch p m).map s.data))

theorem commitPropBatch_made {fail : Call → Bool} {batch : List Bytes} {es : List LogEntry}
    (h : (n.commitPropBatch fail batch).2 = some es) :
    n.role = .leader ∧ es = Node.newEntries n.currentTerm n.log.lastIndex batch := by
  unfold Node.commitPropBatch at h
  split at h
  · cases h
  rename_i hrole
  simp only at h
  split at h
  · cases h
  · exact ⟨not_not.mp hrole, (Option.some.inj h).symm⟩

theorem foldl_accepted_proposed (x : KvCall) (es : List LogEntry) :
    (es.foldl KvCall.accepted x).proposed = x.proposed := by
  rcases foldl_accepted x es with h | ⟨e, -, h⟩ <;> rw [h]

/-- What `answerProps` adds to the entries of a call. -/
theorem answerProps_proposed {ks : List ℕ} {entries : Option (List LogEntry)} {calls : List KvCall}
    (h : (answerProps ks entries io calls)[k]? = some x') :
    ∃ x, calls[k]? = some x ∧ x'.proposed = x.proposed ++
      (((ks.zip (entries.getD [])).filter fun q => q.1 = k).map Prod.snd) := by
  unfold answerProps at h
  split at h
  · simp only [Option.getD_some] at h ⊢
    split at h
    · rw [updateCalls_get, updateCalls_get, Option.map_map] at h
      obtain ⟨x, hx, rfl⟩ := Option.map_eq_some_iff.mp h
      refine ⟨x, hx, ?_⟩
      rw [Function.comp_apply, foldl_accepted_proposed, foldl_record]
    · rw [updateCalls_get] at h
      obtain ⟨x, hx, rfl⟩ := Option.map_eq_some_iff.mp h
      exact ⟨x, hx, by rw [foldl_record]⟩
  · have hrefused : ∀ (y : KvCall) (us : List Unit),
        (us.foldl (fun x _ => x.refused) y).proposed = y.proposed := by
      intro y us
      rcases foldl_refused y us with h | h <;> rw [h]
    simp only [Option.getD_none, List.zip_nil_right, List.filter_nil, List.map_nil, List.append_nil]
    split at h
    · rw [updateCalls_get] at h
      obtain ⟨x, hx, rfl⟩ := Option.map_eq_some_iff.mp h
      exact ⟨x, hx, hrefused x _⟩
    · exact ⟨x', h, rfl⟩

/-- An entry of a call was there before or is made by the step. -/
theorem kvStep_proposed (hs : kvStep cfg s a = some t) (hx' : t.calls[k]? = some x')
    (he : e ∈ x'.proposed) :
    (∃ x, s.calls[k]? = some x ∧ e ∈ x.proposed) ∨ s.Makes a k e := by
  have hmodify : ∀ {j : ℕ} {f : KvCall → KvCall}, (s.calls.modify j f)[k]? = some x' →
      (∀ y, (f y).proposed = y.proposed) → ∃ x, s.calls[k]? = some x ∧ e ∈ x.proposed := by
    intro j f h hf
    obtain ⟨x, hx, rfl⟩ := getElem_modify_calls h
    refine ⟨x, hx, ?_⟩
    split at he
    · exact hf x ▸ he
    · exact he
  cases kvStep_cases hs with
  | call _ _ =>
    rcases getElem_concat hx' with ⟨-, hx⟩ | ⟨-, rfl⟩
    · exact .inl ⟨x', hx, he⟩
    · cases he
  | @propose p m io n r hn hr =>
    obtain ⟨x, hx, hp⟩ := answerProps_proposed hx'
    rw [hp] at he
    rcases List.mem_append.mp he with he | he
    · exact .inl ⟨x, hx, he⟩
    right
    obtain ⟨⟨j, e'⟩, hmine, rfl⟩ := List.mem_map.mp he
    obtain ⟨hq, hj⟩ := List.mem_filter.mp hmine
    obtain rfl : j = k := by simpa using hj
    clear hmine
    cases hes : (n.commitPropBatch io.fail (((s.kvs p).props.take (m + 1)).map s.data)).2 with
    | none =>
      rw [hes] at hq
      simp at hq
    | some es =>
      rw [hes] at hq
      obtain ⟨hrole, rfl⟩ := commitPropBatch_made hes
      exact ⟨p, m, io, n, rfl, hn, hrole, hq⟩
  | enqueue _ _ => exact .inl (hmodify hx' fun _ => rfl)
  | leave _ _ _ => exact .inl (hmodify hx' fun _ => rfl)
  | wait _ _ => exact .inl (hmodify hx' fun _ => rfl)
  | find _ _ _ _ => exact .inl (hmodify hx' fun _ => rfl)
  | receive _ _ => exact .inl (hmodify hx' fun _ => rfl)
  | notify _ _ hcalls _ =>
    rcases hcalls with ⟨-, rfl⟩ | ⟨j, -, rfl⟩
    · exact .inl ⟨x', hx', he⟩
    · refine .inl (hmodify hx' fun y => ?_)
      unfold KvCall.deliver
      split
      · split <;> rfl
      · rfl
  | reads _ _ | restore _ _ _ _ | apply _ _ _ _ | panics _ | go _ | compact _ _ _ _ =>
    exact .inl ⟨x', hx', he⟩

theorem kvStep_propose {m : ℕ} (hs : kvStep cfg s (.propose p m io) = some t) :
    ∃ n r, s.raft.node p = some n ∧ readStep cfg.raft s.reads
        (.cluster (.propose p ((s.batch p m).map s.data) io)) = some r ∧ t.reads = r := by
  simp only [kvStep, Option.bind_eq_bind, Option.bind_eq_some_iff] at hs
  obtain ⟨n, hn, hs⟩ := hs
  split at hs
  · cases hs
  obtain ⟨r, hr, hs⟩ := Option.bind_eq_some_iff.mp hs
  obtain rfl := Option.some.inj hs
  exact ⟨n, r, hn, hr, rfl⟩

/-- An entry is made behind the log of its leader. -/
theorem KvState.Makes.behind (h : s.Makes a k e) : ∃ p n, s.raft.node p = some n ∧
    n.role = .leader ∧ e.term = n.currentTerm ∧ n.log.lastIndex < e.index := by
  obtain ⟨p, m, io, n, -, hn, hrole, hmem⟩ := h
  obtain ⟨i, hi⟩ := List.mem_iff_getElem?.mp (List.of_mem_zip hmem).2
  obtain ⟨hidx, hterm⟩ := Node.newEntries_spec _ _ _ i e hi
  exact ⟨p, n, hn, hrole, hterm, by omega⟩

/-- If its leader survives the step, the entry is in its log. -/
theorem KvState.Makes.logged (h : s.Makes a k e) (ha : a.Reliable)
    (hs : kvStep cfg s a = some t) : ∃ p n, s.raft.node p = some n ∧ n.role = .leader ∧
      e.term = n.currentTerm ∧ ∀ m, t.raft.node p = some m → m.role = .leader ∧
        e.term = m.currentTerm ∧ e ∈ m.log.reals := by
  obtain ⟨p, m, io, n, rfl, hn, hrole, hmem⟩ := h
  obtain ⟨-, r, -, hr, hreads⟩ := kvStep_propose hs
  have hraft : t.raft = r.base := congrArg ReadState.base hreads
  obtain ⟨i, hi⟩ := List.mem_iff_getElem?.mp (List.of_mem_zip hmem).2
  refine ⟨p, n, hn, hrole, (Node.newEntries_spec _ _ _ i e hi).2, fun m' hm' => ?_⟩
  have hes : (n.commitPropBatch io.fail ((s.batch p m).map s.data)).2 =
      some (Node.newEntries n.currentTerm n.log.lastIndex ((s.batch p m).map s.data)) := by
    simp [Node.commitPropBatch, hrole, Io.fail, show io.fault = fun _ => none from ha]
  obtain ⟨-, hlive⟩ := propose_accepted hn hr hes
  cases hc : io.crash with
  | none =>
    obtain ⟨n', hn', hrole', hlog⟩ := hlive hc
    rw [hraft, hn'] at hm'
    obtain rfl := Option.some.inj hm'
    exact ⟨hrole', hlog e (List.mem_of_getElem? hi)⟩
  | some kr =>
    simp only [readStep] at hr
    split at hr
    · cases hr
    obtain ⟨u, hu, rfl⟩ := Option.map_eq_some_iff.mp hr
    obtain ⟨_, _, -, -, rfl⟩ := State.local_some hu
    simp [hraft, ReadState.advance, State.finish, hc, State.node, State.setServer,
      Server.die] at hm'

theorem kvStep_calls_length (hs : kvStep cfg s a = some t) : s.calls.length ≤ t.calls.length := by
  by_contra hlt
  obtain ⟨x', hx', -⟩ := kvStep_call_stays hs (List.getElem?_eq_getElem (not_le.mp hlt))
  rw [List.getElem?_eq_none le_rfl] at hx'
  cases hx'

def Queued (s : KvState) : Prop := ∀ p, ∀ k ∈ (s.kvs p).props, k < s.calls.length

theorem queued_init (cfg : KvConfig) : Queued cfg.init := by
  intro p k hk
  cases hk

theorem kvStep_props (hs : kvStep cfg s a = some t) (hk : k ∈ (t.kvs p).props) :
    k ∈ (s.kvs p).props ∨ k < s.calls.length := by
  have hadvance : ∀ {r : ReadState}, k ∈ ((s.advance r).kvs p).props →
      k ∈ (s.kvs p).props ∨ k < s.calls.length := by
    intro r h
    simp only [KvState.advance] at h
    split at h
    · exact .inl h
    · cases h
  have hset : ∀ {u : KvState} {q : ℕ} {kv : KvServer}, k ∈ ((u.setKv q kv).kvs p).props →
      (k ∈ (u.kvs p).props → k ∈ (s.kvs p).props ∨ k < s.calls.length) →
      (k ∈ kv.props → k ∈ (s.kvs q).props ∨ k < s.calls.length) →
      k ∈ (s.kvs p).props ∨ k < s.calls.length := by
    intro u q kv h hu hkv
    simp only [KvState.setKv] at h
    by_cases hp : p = q
    · subst hp
      rw [Function.update_self] at h
      exact hkv h
    · rw [Function.update_of_ne hp] at h
      exact hu h
  cases kvStep_cases hs with
  | reads _ _ => exact hadvance hk
  | call _ _ | receive _ _ => exact .inl hk
  | @enqueue j x hx _ =>
    refine hset hk .inl fun h => ?_
    rcases List.mem_append.mp h with h | h
    · exact .inl h
    · obtain rfl := List.mem_singleton.mp h
      exact .inr (List.getElem?_eq_some_iff.mp (KvState.live_some hx).1).1
  | propose _ _ => exact hset hk hadvance fun h => .inl (List.mem_of_mem_drop h)
  | leave _ _ _ | wait _ _ | find _ _ _ _ | restore _ _ _ _ | apply _ _ _ _ | go _ =>
    exact hset hk .inl .inl
  | panics _ => exact hadvance hk
  | @notify q index n res calls app _ _ _ _ =>
    refine hset hk .inl fun h => .inl ?_
    unfold KvServer.settle at h
    split at h <;> exact h
  | compact _ _ _ _ => exact hset hk hadvance .inl

theorem Queued.step (h : Queued s) (hs : kvStep cfg s a = some t) : Queued t := by
  intro p k hk
  have hlen := kvStep_calls_length hs
  rcases kvStep_props hs hk with hk | hk
  · exact (h p k hk).trans_le hlen
  · exact hk.trans_le hlen

def KvState.Owned (s : KvState) (e : LogEntry) : Prop :=
  ∃ (k : ℕ) (x : KvCall), s.calls[k]? = some x ∧ e ∈ x.proposed

theorem CallMove.proposed (h : CallMove s t a k x x') : x.proposed ⊆ x'.proposed := by
  cases h with
  | made _ => exact List.subset_append_left _ _
  | accepted _ _ _ _ _ _ => exact List.subset_append_left _ _
  | _ => exact List.Subset.refl _

theorem KvState.Owned.step (h : s.Owned e) (hs : kvStep cfg s a = some t) : t.Owned e := by
  obtain ⟨k, x, hx, he⟩ := h
  obtain ⟨x', hx', hm⟩ := kvStep_call_stays hs hx
  exact ⟨k, x', hx', hm.proposed he⟩

theorem Node.newEntries_length (T : ℕ) (batch : List Bytes) (last : ℕ) :
    (Node.newEntries T last batch).length = batch.length := by
  induction batch generalizing last with
  | nil => rfl
  | cons data batch ih => simp [Node.newEntries, ih]

/-- The entries of a batch that was taken belong to the calls of the batch. -/
theorem answerProps_owned {ks : List ℕ} (hks : ∀ k ∈ ks, k < s.calls.length)
    (hrole : n.role = .leader) (hio : io.fault = fun _ => none)
    (hcalls : t.calls = answerProps ks (n.commitPropBatch io.fail (ks.map s.data)).2 io s.calls)
    (he : e ∈ Node.newEntries n.currentTerm n.log.lastIndex (ks.map s.data)) : t.Owned e := by
  have hes : (n.commitPropBatch io.fail (ks.map s.data)).2 =
      some (Node.newEntries n.currentTerm n.log.lastIndex (ks.map s.data)) := by
    simp [Node.commitPropBatch, hrole, Io.fail, hio]
  obtain ⟨i, hi⟩ := List.mem_iff_getElem?.mp he
  have hlt := (List.getElem?_eq_some_iff.mp hi).1
  rw [Node.newEntries_length, List.length_map] at hlt
  have hk := hks _ (List.getElem_mem hlt)
  rw [← answerProps_length ks (n.commitPropBatch io.fail (ks.map s.data)).2 io, ← hcalls] at hk
  obtain ⟨x', hx'⟩ : ∃ x', t.calls[ks[i]]? = some x' := ⟨_, List.getElem?_eq_getElem hk⟩
  refine ⟨ks[i], x', hx', ?_⟩
  rw [hcalls, hes] at hx'
  obtain ⟨x, -, hp⟩ := answerProps_proposed hx'
  rw [hp]
  refine List.mem_append_right _ (List.mem_map.mpr ⟨(ks[i], e), List.mem_filter.mpr ⟨?_, ?_⟩, rfl⟩)
  · refine List.mem_of_getElem? (i := i) ?_
    rw [List.getElem?_zip_eq_some]
    exact ⟨List.getElem?_eq_getElem hlt, hi⟩
  · simp

/-- The nodes get the proposals of calls, and the entries made of them belong to those calls. -/
theorem kvStep_proposals (hs : kvStep cfg s a = some t) (ha : a.Reliable) (hq : Queued s) :
    Follows cfg s t.raft fun y => y.Reliable ∧ ∀ p batch io, y = .propose p batch io →
      ∀ n, s.raft.node p = some n → n.role = .leader →
        ∀ e ∈ Node.newEntries n.currentTerm n.log.lastIndex batch, t.Owned e := by
  cases kvStep_cases hs with
  | @reads b u hb hr =>
    refine readStep_follows hr fun y hy => ⟨ha y hy, fun p batch io heq => ?_⟩
    subst heq
    cases b with
    | cluster z =>
      obtain rfl := Option.some.inj hy
      cases hb
    | beat | ack | confirmed => cases Option.some.inj hy
    | _ => cases hy
  | @propose p m io n r hn hr =>
    refine readStep_follows hr fun y hy => ?_
    obtain rfl := Option.some.inj hy
    refine ⟨ha, fun p' batch io' heq n' hn' hrole e he => ?_⟩
    obtain ⟨rfl, rfl, rfl⟩ := Action.propose.inj heq
    obtain rfl := Option.mem_unique hn hn'
    exact answerProps_owned (fun k hk => hq p k (List.mem_of_mem_take hk)) hrole ha rfl he
  | panics hr =>
    refine readStep_follows hr fun y hy => ?_
    obtain rfl := Option.some.inj hy
    exact ⟨rfl, fun p batch io heq => by cases heq⟩
  | compact _ _ _ hr =>
    refine readStep_follows hr fun y hy => ?_
    obtain rfl := Option.some.inj hy
    exact ⟨ha, fun p batch io heq => by cases heq⟩
  | _ => exact .inl rfl

/-! ## Whose entries they are -/

structure Origins (s : KvState) : Prop where
  queued : Queued s
  recorded : Recorded s.raft
  entered : Entered s.Owned s.raft
  handed : Handed s.Owned s.raft
  outcomes : ∀ o ∈ s.outcomes, s.Owned o.entry

theorem origins_init (cfg : KvConfig) : Origins cfg.init where
  queued := queued_init cfg
  recorded := recorded_init cfg.raft
  entered := entered_init cfg.raft
  handed := by simp [Handed, KvConfig.init, KvState.raft, Config.init]
  outcomes := by simp [KvConfig.init]

theorem Origins.step (h : Origins s) (hk : KvSim cfg g s) (ha : a.Reliable)
    (hs : kvStep cfg s a = some t) : Origins t := by
  have hmono : ∀ e, s.Owned e → t.Owned e := fun e he => he.step hs
  have hent := h.entered.imp hmono
  have hhand : Handed t.Owned s.raft := fun p x hx => hmono x (h.handed p x hx)
  obtain ⟨hrec, hent', hhand'⟩ :
      Recorded t.raft ∧ Entered t.Owned t.raft ∧ Handed t.Owned t.raft := by
    rcases kvStep_proposals hs ha h.queued with heq | ⟨b, hb, hrel, hnew⟩
    · exact heq ▸ ⟨h.recorded, hent, hhand⟩
    · refine ⟨h.recorded.step hrel.logWrites.tidy hb, ?_, hhand.step hent
        (fun p n hn => (hk.sim.rel.up p n hn).first_le) hb⟩
      refine hent.step_at h.recorded hrel.sure hb fun p io n eff hn hsec => ?_
      generalize t.raft = r at hsec
      cases hsec with
      | propose => exact hnew _ _ _ rfl n hn
      | _ => trivial
  refine ⟨h.queued.step hs, hrec, hent', hhand', fun o ho => ?_⟩
  rcases kvStep_outcomes hs with hout | ⟨p, n, e, cmd, -, -, hmsg, -, hout⟩ <;> rw [hout] at ho
  · exact hmono _ (h.outcomes o ho)
  rcases List.mem_append.mp ho with ho | ho
  · exact hmono _ (h.outcomes o ho)
  · obtain rfl := List.mem_singleton.mp ho
    exact hmono _ (h.handed p e (List.mem_append_left _ (List.mem_of_getElem? hmsg)))

/-- Entries are made in terms that have a leader, and as long as it leads they are in its log. -/
def Issued (g : Ghost) (s : KvState) : Prop :=
  ∀ (k : ℕ) (x : KvCall), s.calls[k]? = some x → ∀ e ∈ x.proposed, g.leader e.term ≠ none ∧
    ∀ p n, s.raft.node p = some n → n.role = .leader → n.currentTerm = e.term →
      e.index ≤ n.log.lastIndex

theorem issued_init (cfg : KvConfig) : Issued State.init cfg.init := by simp [Issued, KvConfig.init]

theorem Issued.step (h : Issued g s) (hk : KvSim cfg g s) (hk' : KvSim cfg g' t) (hg : Grew g g')
    (ha : a.Reliable) (hs : kvStep cfg s a = some t) : Issued g' t := by
  intro k x' hx' e he
  rcases kvStep_proposed hs hx' he with ⟨x, hx, hold⟩ | hmake
  · obtain ⟨hled, hlog⟩ := h k x hx e hold
    refine ⟨hg.led hled, fun p m hm hr hT => ?_⟩
    rcases kvStep_raft hs with heq | ⟨b, hb, -⟩
    · exact hlog p m (heq ▸ hm) hr hT
    rcases hk.sim.led_before hk'.sim hg hb hm hr with ⟨n, hn, hr', hT'⟩ | hnone
    · -- the log of the term has grown
      have h1 := hlog p n hn hr' (hT'.trans hT)
      rw [← hk.sim.tlog_length hn hr', hT'] at h1
      rw [← hk'.sim.tlog_length hm hr]
      exact h1.trans (hk.sim.rel.inv.tlog_prefix hg m.currentTerm).length_le
    · exact absurd (hT ▸ hnone) hled
  · obtain ⟨p, n, hn, hr, hT, hlog⟩ := hmake.logged ha hs
    have hlead := ((hk.sim.rel.up p n hn).lead hr).leader
    refine ⟨hg.led (by rw [hT, hlead]; simp), fun q m hm hr' hT' => ?_⟩
    have hlead' := ((hk'.sim.rel.up q m hm).lead hr').leader
    rw [hT', hT, hg.leader _ _ hlead] at hlead'
    obtain rfl := Option.some.inj hlead'
    obtain ⟨-, hterm, hmem⟩ := hlog m hm
    have hget := (List.getElem?_eq_some_iff.mp (hk'.booked hm hr' hterm hmem).2).1
    rw [hterm, hk'.sim.tlog_length hm hr'] at hget
    omega

/-- No entry was made for two calls. -/
def Sole (s : KvState) : Prop :=
  ∀ (k k' : ℕ) (x x' : KvCall) (e : LogEntry), s.calls[k]? = some x → s.calls[k']? = some x' →
    e ∈ x.proposed → e ∈ x'.proposed → k = k'

theorem KvState.Makes.sole {k' : ℕ} (h : s.Makes a k e) (h' : s.Makes a k' e) : k = k' := by
  obtain ⟨p, m, io, n, rfl, hn, -, hmem⟩ := h
  obtain ⟨p', m', io', n', heq, hn', -, hmem'⟩ := h'
  obtain ⟨rfl, rfl, rfl⟩ := KvAction.propose.inj heq
  obtain rfl := Option.mem_unique hn hn'
  obtain ⟨i, hi⟩ := List.mem_iff_getElem?.mp hmem
  obtain ⟨i', hi'⟩ := List.mem_iff_getElem?.mp hmem'
  rw [List.getElem?_zip_eq_some] at hi hi'
  have h1 := (Node.newEntries_spec _ _ _ i e hi.2).1
  have h2 := (Node.newEntries_spec _ _ _ i' e hi'.2).1
  obtain rfl : i = i' := by omega
  exact Option.mem_unique hi.1 hi'.1

theorem Sole.step (h : Sole s) (hi : Issued g s) (hs : kvStep cfg s a = some t) : Sole t := by
  -- an entry that is made lies behind all that its leader has made before
  have hnew : ∀ {j j' : ℕ} {y : KvCall} {e : LogEntry}, s.calls[j]? = some y → e ∈ y.proposed →
      ¬ s.Makes a j' e := by
    intro j j' y e hy he hmake
    obtain ⟨p, n, hn, hr, hT, hlt⟩ := hmake.behind
    have := (hi j y hy e he).2 p n hn hr hT.symm
    omega
  intro k k' x x' e hx hx' he he'
  rcases kvStep_proposed hs hx he with ⟨y, hy, hold⟩ | hmake <;>
    rcases kvStep_proposed hs hx' he' with ⟨y', hy', hold'⟩ | hmake'
  · exact h k k' y y' e hy hy' hold hold'
  · exact absurd hmake' (hnew hy hold)
  · exact absurd hmake (hnew hy' hold')
  · exact hmake.sole hmake'

structure Ascribed (g : Ghost) (s : KvState) : Prop where
  origins : Origins s
  issued : Issued g s
  sole : Sole s

theorem ascribed_init (cfg : KvConfig) : Ascribed State.init cfg.init :=
  ⟨origins_init cfg, issued_init cfg, by simp [Sole, KvConfig.init]⟩

theorem Ascribed.step (h : Ascribed g s) (hk : KvSim cfg g s) (hk' : KvSim cfg g' t)
    (hg : Grew g g') (ha : a.Reliable) (hs : kvStep cfg s a = some t) : Ascribed g' t :=
  ⟨h.origins.step hk ha hs, h.issued.step hk hk' hg ha hs, h.sole.step h.issued hs⟩

/-- Whatever a process applies is the command of a call: the entry was made for that call, and for
no other. -/
theorem applied_was_called (hs : Reaches (kvStep cfg) (fun _ a => a.Reliable) cfg.init s)
    (ho : o ∈ s.outcomes) : ∃! k : ℕ, ∃ x : KvCall, s.calls[k]? = some x ∧ o.entry ∈ x.proposed ∧
      o.entry.data = x.cmd.encode := by
  obtain ⟨g, -, hd, hl⟩ := KvSim.invariant (I := fun g s => Proposed s ∧ Ascribed g s)
    (fun _ _ h => h) ⟨proposed_init cfg, ascribed_init cfg⟩
    (fun g g' s a t hk hk' hg h ha ht => ⟨h.1.step ht, h.2.step hk hk' hg ha ht⟩) hs
  obtain ⟨k, x, hx, he⟩ := hl.origins.outcomes o ho
  refine ⟨k, ⟨x, hx, he, hd k x hx _ he⟩, ?_⟩
  rintro k' ⟨x', hx', he', -⟩
  exact hl.sole k' k x' x _ hx' hx he' he

theorem applied_was_called_pair : ∃ s : KvState, ∃ o ∈ s.outcomes,
    Reaches (kvStep .pair) (fun _ a => a.Reliable) KvConfig.pair.init s ∧
    o.entry = ⟨1, 1, Command.encode ⟨opPut, [1], 5, [7], some [1], none⟩⟩ ∧
    ∃! k : ℕ, ∃ x : KvCall, s.calls[k]? = some x ∧ o.entry ∈ x.proposed ∧
      o.entry.data = x.cmd.encode := by
  have hs := Reaches.of_exec (kvStep .pair) (fun _ a => a.Reliable) KvConfig.pair.init putReturns
    (.of_forall (fun _ => putReturns_reliable) _) rfl
  have ho := List.mem_of_getElem? (show (((exec (kvStep .pair) KvConfig.pair.init
    putReturns).get rfl).outcomes)[0]? = some _ from rfl)
  exact ⟨_, _, ho, hs, rfl, applied_was_called hs ho⟩

/-! ## The order of calls -/

/-- An invariant that speaks of the abstract log, over a run that goes on from a state. -/
theorem KvSim.since {I : Ghost → KvState → Prop} {P : KvState → KvAction → Prop}
    (hP : ∀ s a, P s a → a.Reliable) (h : KvSim cfg g s) (hI : I g s)
    (hstep : ∀ g g' s a t, KvSim cfg g s → KvSim cfg g' t → Grew g g' → I g s → P s a →
      kvStep cfg s a = some t → I g' t)
    (hst : Reaches (kvStep cfg) P s t) : ∃ g', KvSim cfg g' t ∧ Grew g g' ∧ I g' t := by
  refine hst.invariant (I := fun t => ∃ g', KvSim cfg g' t ∧ Grew g g' ∧ I g' t) ?_
    ⟨g, h, .refl g, hI⟩
  rintro s a t ⟨g₁, hg₁, hgr, hi⟩ ha hs
  obtain ⟨g₂, hgr₂, hg₂⟩ := hg₁.step (hP s a ha) hs
  exact ⟨g₂, hg₂, hgr.trans hgr₂, hstep g₁ g₂ s a t hg₁ hg₂ hgr₂ hi ha hs⟩

/-- The entries of the calls from `first` on lie behind the logs of `g`. -/
def Behind (g : Ghost) (first : ℕ) (s : KvState) : Prop :=
  ∀ (k : ℕ) (x : KvCall), first ≤ k → s.calls[k]? = some x →
    ∀ e ∈ x.proposed, (g.tlog e.term).length < e.index

theorem Behind.step {g₀ : Ghost} {first : ℕ} (h : Behind g₀ first s) (hi : cfg.raft.Inv g₀)
    (hg₀ : Grew g₀ g) (hk : KvSim cfg g s) (hs : kvStep cfg s a = some t) :
    Behind g₀ first t := by
  intro k x' hfirst hx' e he
  rcases kvStep_proposed hs hx' he with ⟨x, hx, hold⟩ | hmake
  · exact h k x hfirst hx e hold
  · obtain ⟨p, n, hn, hr, hT, hlt⟩ := hmake.behind
    have := (hi.tlog_prefix hg₀ e.term).length_le
    rw [hT, hk.sim.tlog_length hn hr] at this
    exact hT ▸ this.trans_lt hlt

/-- What is behind the logs of a state is behind what is committed in it. -/
theorem behind_committed {L L' : List LogEntry} {T T' : ℕ} (hi : cfg.raft.Inv g)
    (hi' : cfg.raft.Inv g') (hg : Grew g g') (hL : Committed g T L) (hL' : Committed g' T' L')
    (he : L'[e.index - 1]? = some e) (h1 : 1 ≤ e.index)
    (hb : (g.tlog e.term).length < e.index) : L.length < e.index := by
  by_contra hle
  have hlt : e.index - 1 < L.length := by omega
  -- it would have been committed, and so in the log of its term
  have hget := List.getElem?_eq_getElem hlt
  have hsame := hi'.committed_unique (hL.mono hi hg le_rfl) hL' hget he
  rw [hsame] at hget
  have hlen := (hi.committed_good hL _ _ hget).2.length_le
  rw [List.length_take] at hlen
  omega

/-- A call that begins when an entry has been applied, anywhere, gets its own entries behind that
one: what is applied of it is applied after it. -/
theorem later_call_behind (hs : Reaches (kvStep cfg) (fun _ a => a.Reliable) cfg.init s)
    (ho : o ∈ s.outcomes) (hst : Reaches (kvStep cfg) (fun _ a => a.Reliable) s t)
    (hk : s.calls.length ≤ k) (hx : t.calls[k]? = some x) (ho' : o' ∈ t.outcomes)
    (he : o'.entry ∈ x.proposed) : o.entry.index < o'.entry.index := by
  obtain ⟨g, hsim, hr⟩ := kv_refines hs
  have hi := hsim.sim.rel.inv
  have hfed : Fed cfg s := hs.invariant (fun _ _ _ h _ => h.step) (fed_init cfg)
  have hnone : Behind g s.calls.length s := by
    intro k x hk hx
    rw [List.getElem?_eq_none hk] at hx
    cases hx
  obtain ⟨g', hsim', hg, -, hr', -, hb⟩ := hsim.since
    (I := fun g₁ u => Fed cfg u ∧ Refines cfg g₁ u ∧ Grew g g₁ ∧ Behind g s.calls.length u)
    (fun _ _ h => h) ⟨hfed, hr, .refl g, hnone⟩
    (fun g₁ g₂ u a v hk hk' hg h _ hv => ⟨h.1.step hv, h.2.1.step h.1 hk hk' hg hv,
      h.2.2.1.trans hg, h.2.2.2.step hi h.2.2.1 hk hv⟩) hst
  obtain ⟨es, _, _, hh, hlen, -, -⟩ := hr.outcomes o ho
  obtain ⟨es', _, _, hh', hlen', -, -⟩ := hr'.outcomes o' ho'
  obtain ⟨T, hT⟩ := hh.committed
  obtain ⟨T', hT'⟩ := hh'.committed
  have hget : (es' ++ [o'.entry])[o'.entry.index - 1]? = some o'.entry := by
    rw [← hlen', Nat.add_sub_cancel, List.getElem?_concat_length]
  have := behind_committed hi hsim'.sim.rel.inv hg hT hT' hget (by omega) (hb k x hk hx _ he)
  rw [List.length_append, List.length_singleton] at this
  omega

def secondPut : List KvAction :=
  [.call 1 (.put [2] 9 [8] (some [2])), .enqueue 1, .propose 1 0 {}] ++
    onNodes [.replicate 1 2, .deliver 3 false {}, .respond 3 0 {}, .applierTake 1,
      .applierSend 1] ++ [.take 1, .apply 1]

theorem secondPut_reliable : ∀ a ∈ secondPut, a.Reliable := by
  simp only [secondPut, List.forall_mem_append]
  refine ⟨⟨?_, reliable_onNodes ?_⟩, ?_⟩
  · simp [KvAction.Reliable]
  · simp [Action.Reliable, Action.io]
  · simp [KvAction.Reliable]

theorem later_call_behind_pair : ∃ s t : KvState, ∃ o ∈ s.outcomes, ∃ o' ∈ t.outcomes,
    Reaches (kvStep .pair) (fun _ a => a.Reliable) KvConfig.pair.init s ∧
    Reaches (kvStep .pair) (fun _ a => a.Reliable) s t ∧ s.calls.length = 1 ∧
    (∃ x, t.calls[1]? = some x ∧ o'.entry ∈ x.proposed) ∧ o.entry.index < o'.entry.index := by
  have hs := Reaches.of_exec (kvStep .pair) (fun _ a => a.Reliable) KvConfig.pair.init putReturns
    (.of_forall (fun _ => putReturns_reliable) _) rfl
  have ht := Reaches.of_exec (kvStep .pair) (fun _ a => a.Reliable)
    ((exec (kvStep .pair) KvConfig.pair.init putReturns).get rfl) secondPut
    (.of_forall (fun _ => secondPut_reliable) _) rfl
  have ho := List.mem_of_getElem? (show (((exec (kvStep .pair) KvConfig.pair.init
    putReturns).get rfl).outcomes)[0]? = some _ from rfl)
  have ho' := List.mem_of_getElem? (show (((exec (kvStep .pair) ((exec (kvStep .pair)
    KvConfig.pair.init putReturns).get rfl) secondPut).get rfl).outcomes)[1]? = some _ from rfl)
  have hx := show (((exec (kvStep .pair) ((exec (kvStep .pair) KvConfig.pair.init
    putReturns).get rfl) secondPut).get rfl).calls)[1]? = some _ from rfl
  have hmem := List.mem_of_getElem? (show ((((exec (kvStep .pair) ((exec (kvStep .pair)
    KvConfig.pair.init putReturns).get rfl) secondPut).get rfl).calls)[1]?.get rfl).proposed[0]? =
    some _ from rfl)
  exact ⟨_, _, _, ho, _, ho', hs, ht, rfl, ⟨_, hx, hmem⟩,
    later_call_behind hs ho ht (Nat.le_refl 1) hx ho' hmem⟩

end KMC
