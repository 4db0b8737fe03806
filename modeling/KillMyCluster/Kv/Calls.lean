import KillMyCluster.Kv.Runs

/-! What a step does to a client call: the entries made for it, the index and term of its current
attempt, and the result it holds or has returned. -/

namespace KMC

variable {cfg : KvConfig} {s t : KvState} {a : KvAction} {p k : ℕ} {x x' : KvCall}

/-- The index and term that `raft.Propose` returned to the current attempt. -/
def CallStatus.attempt : CallStatus → Option (ℕ × ℕ)
  | .registering index term | .waiting index term _ => some (index, term)
  | _ => none

def CallStatus.result : CallStatus → Option ApplyResult
  | .waiting _ _ (some res) | .done (.ok res) => some res
  | _ => none

/-! ## The answers of `commitPropBatch` -/

theorem updateCalls_get {β : Type} (f : KvCall → β → KvCall) (ps : List (ℕ × β))
    (calls : List KvCall) (k : ℕ) : (updateCalls f ps calls)[k]? =
      calls[k]?.map fun x => ((ps.filter fun q => q.1 = k).map Prod.snd).foldl f x := by
  induction ps generalizing calls with
  | nil => simp [updateCalls]
  | cons q ps ih =>
    change (updateCalls f ps (calls.modify q.1 (f · q.2)))[k]? = _
    rw [ih, List.getElem?_modify]
    by_cases hq : q.1 = k <;> simp [hq, Function.comp_def]

theorem updateCalls_length {β : Type} (f : KvCall → β → KvCall) (ps : List (ℕ × β))
    (calls : List KvCall) : (updateCalls f ps calls).length = calls.length := by
  induction ps generalizing calls with
  | nil => rfl
  | cons q ps ih => exact (ih _).trans (List.length_modify ..)

theorem answerProps_length (ks : List ℕ) (entries : Option (List LogEntry)) (io : Io)
    (calls : List KvCall) : (answerProps ks entries io calls).length = calls.length := by
  unfold answerProps
  split
  · simp only
    split <;> simp only [updateCalls_length]
  · split <;> simp only [updateCalls_length]

theorem foldl_record (x : KvCall) (es : List LogEntry) :
    es.foldl KvCall.record x = { x with proposed := x.proposed ++ es } := by
  induction es generalizing x with
  | nil => simp
  | cons e es ih =>
    rw [List.foldl_cons, ih]
    simp [KvCall.record]

theorem foldl_accepted (x : KvCall) (es : List LogEntry) : es.foldl KvCall.accepted x = x ∨
    ∃ e ∈ es, es.foldl KvCall.accepted x = { x with status := .registering e.index e.term } := by
  induction es generalizing x with
  | nil => exact .inl rfl
  | cons e es ih =>
    rw [List.foldl_cons]
    have hstep : x.accepted e = x ∨
        x.accepted e = { x with status := .registering e.index e.term } := by
      unfold KvCall.accepted
      split
      · exact .inr rfl
      · exact .inl rfl
    rcases hstep with h | h <;> rw [h]
    · rcases ih x with hx | ⟨e', he', hx⟩
      · exact .inl hx
      · exact .inr ⟨e', List.mem_cons_of_mem _ he', hx⟩
    · rcases ih { x with status := .registering e.index e.term } with hx | ⟨e', he', hx⟩
      · exact .inr ⟨e, List.mem_cons_self, hx⟩
      · exact .inr ⟨e', List.mem_cons_of_mem _ he', hx⟩

theorem foldl_refused (x : KvCall) (es : List Unit) :
    es.foldl (fun x _ => x.refused) x = x ∨
      es.foldl (fun x _ => x.refused) x = { x with status := .done (.error .notLeader) } := by
  induction es generalizing x with
  | nil => exact .inl rfl
  | cons e es ih =>
    rw [List.foldl_cons]
    have hstep : x.refused = x ∨ x.refused = { x with status := .done (.error .notLeader) } := by
      unfold KvCall.refused
      split
      · exact .inr rfl
      · exact .inl rfl
    rcases hstep with h | h <;> rw [h]
    · exact ih x
    · rcases ih { x with status := .done (.error .notLeader) } with hx | hx
      · exact .inr hx
      · exact .inr hx

theorem zip_newEntries {T last : ℕ} {f : ℕ → Bytes} {ks : List ℕ} {e : LogEntry}
    (h : (k, e) ∈ ks.zip (Node.newEntries T last (ks.map f))) : e.data = f k := by
  induction ks generalizing last with
  | nil => simp at h
  | cons j ks ih =>
    simp only [List.map_cons, Node.newEntries, List.zip_cons_cons, List.mem_cons,
      Prod.mk.injEq] at h
    rcases h with ⟨rfl, rfl⟩ | h
    · rfl
    · exact ih h

/-- A batch that was answered: the node leads, and the entries are in its log. -/
theorem propose_accepted {r : ReadState} {batch : List Bytes} {io : Io} {n : Node}
    {es : List LogEntry} (hn : s.raft.node p = some n)
    (hr : readStep cfg.raft s.reads (.cluster (.propose p batch io)) = some r)
    (hes : (n.commitPropBatch io.fail batch).2 = some es) :
    es = Node.newEntries n.currentTerm n.log.lastIndex batch ∧
    (io.crash = none → ∃ n', r.base.node p = some n' ∧ n'.role = .leader ∧
      ∀ e ∈ es, e.term = n'.currentTerm ∧ e ∈ n'.log.reals) := by
  simp only [readStep] at hr
  split at hr
  · cases hr
  obtain ⟨u, hu, rfl⟩ := Option.map_eq_some_iff.mp hr
  obtain ⟨n₁, e₁, hn₁, he₁, rfl⟩ := State.local_some hu
  obtain rfl := Option.mem_unique hn hn₁
  obtain rfl := Option.some.inj he₁
  unfold Node.commitPropBatch at hes ⊢
  split at hes
  · cases hes
  rename_i hrole
  rw [if_neg hrole]
  simp only at hes ⊢
  split at hes
  · cases hes
  rename_i hf
  rw [if_neg hf]
  obtain rfl := Option.some.inj hes
  refine ⟨rfl, fun hc => ⟨{ n with
    log := n.log.append (Node.newEntries n.currentTerm n.log.lastIndex batch) },
    ?_, by simpa using hrole, ?_⟩⟩
  · simp [ReadState.advance, State.finish, hc, State.node]
  · intro e he
    obtain ⟨j, hj⟩ := List.mem_iff_getElem?.mp he
    refine ⟨(Node.newEntries_spec _ batch _ j e hj).2, ?_⟩
    rw [RaftLog.append_reals]
    exact List.mem_append_right _ he

/-! ## One call -/

inductive CallMove (s t : KvState) (a : KvAction) (k : ℕ) (x : KvCall) : KvCall → Prop
  | same : CallMove s t a k x x
  /-- The call leaves its attempt. -/
  | leaves {st : CallStatus} : st.attempt = none → st.result = none →
      CallMove s t a k x { x with status := st }
  /-- Entries are made for the call. -/
  | made {es : List LogEntry} : (∀ e ∈ es, e.data = x.cmd.encode) →
      CallMove s t a k x { x with proposed := x.proposed ++ es }
  | accepted {p : ℕ} {n : Node} {es : List LogEntry} {e : LogEntry} :
      (∀ e ∈ es, e.data = x.cmd.encode) → e ∈ es → t.raft.node p = some n → n.role = .leader →
      e.term = n.currentTerm → e ∈ n.log.reals →
      CallMove s t a k x { x with
        proposed := x.proposed ++ es, status := .registering e.index e.term }
  | waits {index term : ℕ} : x.status = .registering index term →
      CallMove s t a k x { x with status := .waiting index term none }
  | finds {index term : ℕ} {res : ApplyResult} : s.live k = some x →
      a = .register k ∨ a = .timeout k → x.status.attempt = some (index, term) →
      (s.kvs x.server).recent.get index = some res →
      CallMove s t a k x { x with status := .done (.ok res) }
  | receives {index term : ℕ} {res : ApplyResult} : x.status = .waiting index term (some res) →
      CallMove s t a k x { x with status := .done (.ok res) }
  | notified {p index term : ℕ} {res : ApplyResult} : a = .notify p →
      (s.kvs p).applier = .notifying index res → (s.kvs p).waiters.get index = some k →
      x.status = .waiting index term none →
      CallMove s t a k x { x with status := .waiting index term (some res) }

theorem KvState.live_some (h : s.live k = some x) : s.calls[k]? = some x ∧
    (∃ n, s.raft.node x.server = some n) ∧ (s.raft.servers x.server).epoch = x.epoch := by
  simp only [KvState.live, Option.bind_eq_bind, Option.bind_eq_some_iff] at h
  obtain ⟨y, hy, n, hn, h⟩ := h
  split at h
  · rename_i he
    obtain rfl := Option.some.inj h
    exact ⟨hy, ⟨n, hn⟩, he⟩
  · cases h

theorem answerProps_call {ks : List ℕ} {io : Io} {n : Node} {r : ReadState} {calls : List KvCall}
    (hraft : t.raft = r.base) (hn : s.raft.node p = some n)
    (hr : readStep cfg.raft s.reads (.cluster (.propose p (ks.map s.data) io)) = some r)
    (hcalls : calls = answerProps ks (n.commitPropBatch io.fail (ks.map s.data)).2 io s.calls)
    (h : calls[k]? = some x') : ∃ x, s.calls[k]? = some x ∧ CallMove s t a k x x' := by
  subst hcalls
  unfold answerProps at h
  split at h
  · rename_i entries hes
    obtain ⟨hnew, hacc⟩ := propose_accepted hn hr hes
    set mine := ((ks.zip entries).filter fun q => q.1 = k).map Prod.snd with hmine
    have hmem : ∀ e ∈ mine, (k, e) ∈ ks.zip entries := by
      intro e he
      obtain ⟨⟨j, e'⟩, hq, rfl⟩ := List.mem_map.mp he
      obtain ⟨hq, hj⟩ := List.mem_filter.mp hq
      simp only [decide_eq_true_eq] at hj
      exact hj ▸ hq
    have hdata : ∀ x, s.calls[k]? = some x → ∀ e ∈ mine, e.data = x.cmd.encode := by
      intro x hx e he
      have := hmem e he
      rw [hnew] at this
      rw [zip_newEntries this]
      simp [KvState.data, hx]
    simp only at h
    split at h
    · rename_i hc
      obtain ⟨n', hn', hrole, hlog⟩ := hacc hc
      rw [updateCalls_get, updateCalls_get, Option.map_map] at h
      obtain ⟨x, hx, rfl⟩ := Option.map_eq_some_iff.mp h
      refine ⟨x, hx, ?_⟩
      simp only [Function.comp_apply, ← hmine, foldl_record]
      rcases foldl_accepted { x with proposed := x.proposed ++ mine } mine with hf | ⟨e, he, hf⟩
      · rw [hf]
        exact .made (hdata x hx)
      · rw [hf]
        obtain ⟨h1, h2⟩ := hlog e (List.of_mem_zip (hmem e he)).2
        exact .accepted (hdata x hx) he (hraft ▸ hn') hrole h1 h2
    · rw [updateCalls_get] at h
      obtain ⟨x, hx, rfl⟩ := Option.map_eq_some_iff.mp h
      refine ⟨x, hx, ?_⟩
      rw [foldl_record]
      exact .made (hdata x hx)
  · split at h
    · rw [updateCalls_get] at h
      obtain ⟨x, hx, rfl⟩ := Option.map_eq_some_iff.mp h
      refine ⟨x, hx, ?_⟩
      rcases foldl_refused x (((ks.map (·, ())).filter fun q => q.1 = k).map Prod.snd) with hf | hf
      · rw [hf]
        exact .same
      · rw [hf]
        exact .leaves rfl rfl
    · exact ⟨x', h, .same⟩

theorem getElem_modify_calls {calls : List KvCall} {j : ℕ} {f : KvCall → KvCall}
    (h : (calls.modify j f)[k]? = some x') :
    ∃ x, calls[k]? = some x ∧ x' = if j = k then f x else x := by
  rw [List.getElem?_modify] at h
  obtain ⟨x, hx, hf⟩ := Option.map_eq_some_iff.mp h
  exact ⟨x, hx, hf.symm⟩

theorem kvStep_call (hs : kvStep cfg s a = some t) (h : t.calls[k]? = some x') :
    (∃ x, s.calls[k]? = some x ∧ CallMove s t a k x x') ∨
      (s.calls.length ≤ k ∧ x'.status = .proposing ∧ x'.proposed = []) := by
  have hset : ∀ {j : ℕ} {y : KvCall} {st : CallStatus}, s.live j = some y →
      (s.calls.modify j fun x => { x with status := st })[k]? = some x' →
      (j = k → CallMove s t a k y { y with status := st }) →
      ∃ x, s.calls[k]? = some x ∧ CallMove s t a k x x' := by
    intro j y st hy h hm
    obtain ⟨x, hx, rfl⟩ := getElem_modify_calls h
    refine ⟨x, hx, ?_⟩
    split
    · rename_i hjk
      subst hjk
      obtain rfl := Option.some.inj (hx.symm.trans (KvState.live_some hy).1)
      exact hm rfl
    · exact .same
  cases kvStep_cases hs with
  | reads _ _ => exact .inl ⟨x', h, .same⟩
  | call _ _ =>
    rcases getElem_concat h with ⟨-, h⟩ | ⟨rfl, rfl⟩
    · exact .inl ⟨x', h, .same⟩
    · exact .inr ⟨le_rfl, rfl, rfl⟩
  | enqueue hx _ => exact .inl (hset hx h fun _ => .leaves rfl rfl)
  | propose hn hr => exact .inl (answerProps_call rfl hn hr rfl h)
  | leave hx hst _ =>
    refine .inl (hset hx h fun _ => ?_)
    rcases hst with rfl | ⟨err, rfl⟩
    · exact .leaves rfl rfl
    · exact .leaves rfl rfl
  | wait hx hst => exact .inl (hset hx h fun _ => .waits hst)
  | find hx hst _ hres =>
    refine .inl (hset hx h fun hjk => ?_)
    subst hjk
    rcases hst with ⟨rfl, hst⟩ | ⟨rfl, ch, hst⟩
    · exact .finds hx (.inl rfl) (by rw [hst]; rfl) hres
    · exact .finds hx (.inr rfl) (by rw [hst]; rfl) hres
  | receive hx hst => exact .inl (hset hx h fun _ => .receives hst)
  | restore _ _ _ _ => exact .inl ⟨x', h, .same⟩
  | apply _ _ _ _ => exact .inl ⟨x', h, .same⟩
  | panics _ => exact .inl ⟨x', h, .same⟩
  | @notify q index n res calls app _ happ hcalls _ =>
    left
    rcases hcalls with ⟨-, rfl⟩ | ⟨j, hw, rfl⟩
    · exact ⟨x', h, .same⟩
    · obtain ⟨x, hx, rfl⟩ := getElem_modify_calls h
      refine ⟨x, hx, ?_⟩
      split
      · rename_i hjk
        subst hjk
        unfold KvCall.deliver
        split
        · rename_i i term hst
          split
          · rename_i hi
            subst hi
            exact .notified rfl happ hw hst
          · exact .same
        · exact .same
      · exact .same
  | go _ => exact .inl ⟨x', h, .same⟩
  | compact _ _ _ _ => exact .inl ⟨x', h, .same⟩

theorem CallMove.fixed (h : CallMove s t a k x x') :
    x'.server = x.server ∧ x'.epoch = x.epoch ∧ x'.cmd = x.cmd := by
  cases h <;> exact ⟨rfl, rfl, rfl⟩

/-- A call stays, with its process and its command. -/
theorem kvStep_call_stays (hs : kvStep cfg s a = some t) (hx : s.calls[k]? = some x) :
    ∃ x', t.calls[k]? = some x' ∧ CallMove s t a k x x' := by
  have hlen : s.calls.length ≤ t.calls.length := by
    cases kvStep_cases hs with
    | call _ _ => simp
    | enqueue _ _ => exact (List.length_modify ..).ge
    | propose _ _ => exact (answerProps_length ..).ge
    | leave _ _ _ => exact (List.length_modify ..).ge
    | wait _ _ => exact (List.length_modify ..).ge
    | find _ _ _ _ => exact (List.length_modify ..).ge
    | receive _ _ => exact (List.length_modify ..).ge
    | notify _ _ hcalls _ =>
      rcases hcalls with ⟨-, rfl⟩ | ⟨j, -, rfl⟩
      · exact le_rfl
      · exact (List.length_modify ..).ge
    | _ => exact le_rfl
  have hk := (List.getElem?_eq_some_iff.mp hx).1
  have hget := List.getElem?_eq_getElem (hk.trans_le hlen)
  rcases kvStep_call hs hget with ⟨y, hy, hm⟩ | ⟨hnew, -, -⟩
  · obtain rfl := Option.mem_unique hx hy
    exact ⟨_, hget, hm⟩
  · omega

def Proposed (s : KvState) : Prop :=
  ∀ (k : ℕ) (x : KvCall), s.calls[k]? = some x → ∀ e ∈ x.proposed, e.data = x.cmd.encode

theorem Proposed.step (h : Proposed s) (hs : kvStep cfg s a = some t) : Proposed t := by
  intro k x' hx'
  rcases kvStep_call hs hx' with ⟨x, hx, hm⟩ | ⟨-, -, hp⟩
  · have hold := h k x hx
    have hnew : ∀ es : List LogEntry, (∀ e ∈ es, e.data = x.cmd.encode) →
        ∀ e ∈ x.proposed ++ es, e.data = x.cmd.encode := fun es hes e he =>
      (List.mem_append.mp he).elim (hold e) (hes e)
    cases hm with
    | made hes => exact hnew _ hes
    | accepted hes _ _ _ _ _ => exact hnew _ hes
    | _ => exact hold
  · simp [hp]

theorem proposed_init (cfg : KvConfig) : Proposed cfg.init := by simp [Proposed, KvConfig.init]

end KMC
