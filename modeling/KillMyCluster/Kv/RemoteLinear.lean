import KillMyCluster.Kv.Linear
import KillMyCluster.Kv.Remote

/-! Remote clients see a linearizable store, and each of their requests has one effect, however many
nodes they sent it to and whatever became of the copies. An operation of a client is made of all the
calls that serve it, on any node and at any time; it takes effect where the first entry of any of
them is committed. -/

namespace KMC

open LeaderLog Linear Trace

variable {cfg : KvConfig} {g g' g₀ : Ghost} {s t u : RemoteState} {a : RemoteAction} {j k r c : ℕ}
  {q : Attempt} {i : CallId} {res : ApplyResult} {v : StoreState} {x' : RemoteOp}

/-! ## Calls of the store -/

section Store

variable {s t : StoreState} {op : Operation}

theorem StoreState.called_mono (hs : Chronicle s) (ht : Chronicle t)
    (hh : s.history <+: t.history) (hi : s.called i = some op) : t.called i = some op :=
  (ht.calls i op).mp (hh.subset ((hs.calls i op).mpr hi))

theorem StoreState.returned_mono (hs : Chronicle s) (ht : Chronicle t)
    (hh : s.history <+: t.history) (hi : s.returned i = some res) : t.returned i = some res :=
  (ht.returns i res).mp (hh.subset ((hs.returns i res).mpr hi))

theorem storeStep_extends {a : StoreAction} (hs : storeStep cfg s a = some t) :
    s.history <+: t.history := by
  obtain ⟨evs, hevs, -⟩ := storeStep_history hs
  exact ⟨evs, hevs.symm⟩

theorem kvStep_length {s t : KvState} {a : KvAction} (hs : kvStep cfg s a = some t)
    (ha : ∀ p api, a ≠ .call p api) : t.calls.length = s.calls.length := by
  have hshown := kvStep_shown hs
  generalize hevs : s.seen a t = evs at hshown
  cases hshown with
  | nothing hlen _ => exact hlen
  | ret hlen _ _ _ _ => exact hlen
  | call _ _ =>
    exfalso
    cases a with
    | call p api => exact ha p api rfl
    | register k | receive k | timeout k =>
      simp only [KvState.seen] at hevs
      cases hr : t.returned k <;> simp [hr] at hevs
    | _ => cases hevs

/-- Only the calls of the API begin writes. -/
theorem storeStep_length {a : StoreAction} (hs : storeStep cfg s a = some t)
    (ha : a.begins = false) : t.kv.calls.length = s.kv.calls.length := by
  cases storeStep_cases hs with
  | kv _ hk => exact kvStep_length hk fun p api heq => by subst heq; cases ha
  | get _ => cases ha
  | grant _ _ _ _ _ | fail _ _ _ | look _ _ => rfl

theorem StoreState.called_write : s.called (.write k) = none ↔ s.kv.calls.length ≤ k := by
  simp [StoreState.called]

end Store

/-- A request that arrives begins a call of its own. -/
theorem RemoteState.serve_called {dst : ℕ} {held : Bool} {req : RemoteRequest}
    (hs : storeStep cfg s.store (s.serve dst held req).1 = some v) :
    s.store.called (s.serve dst held req).2 = none ∧
      v.called (s.serve dst held req).2 = some req.operation ∧
      ∀ c, v.called (.write c) ≠ none → s.store.called (.write c) ≠ none ∨
        (s.serve dst held req).2 = .write c := by
  cases req with
  | get clientID requestID key =>
    cases storeStep_cases hs with
    | get hk =>
      refine ⟨by simp [RemoteState.serve, StoreState.called],
        by simp [RemoteState.serve, StoreState.called, RemoteRequest.operation, ReadApi.key],
        fun c hc => .inl fun hnone => hc ?_⟩
      rw [StoreState.called_write] at hnone ⊢
      exact (kvStep_length hk (by simp)).le.trans hnone
    | fail _ _ hact => cases hact
  | executeOnce req =>
    cases storeStep_cases hs with
    | @kv b v _ hk =>
      simp only [kvStep, Option.bind_eq_bind, Option.bind_eq_some_iff] at hk
      obtain ⟨n, -, hk⟩ := hk
      rw [req.api_command] at hk
      obtain rfl := Option.some.inj hk
      refine ⟨by simp [RemoteState.serve, StoreState.called],
        by simp [RemoteState.serve, StoreState.called, RemoteRequest.operation], fun c hc => ?_⟩
      by_cases heq : s.store.kv.calls.length = c
      · exact .inr (congrArg CallId.write heq)
      · refine .inl fun hnone => hc ?_
        rw [StoreState.called_write] at hnone ⊢
        rw [List.length_append, List.length_singleton]
        omega
    | fail _ _ hact => cases hact

/-! ## Operations and calls -/

namespace RemoteState

def called (s : RemoteState) (j : ℕ) : Option Operation := s.ops[j]?.map fun x => x.req.operation

def returned (s : RemoteState) (j : ℕ) : Option ApplyResult :=
  s.ops[j]?.bind fun x => x.status.result

end RemoteState

structure Linked (s : RemoteState) : Prop where
  tells : Tells s.history s.called s.returned
  asking : ∀ (j : ℕ) (x : RemoteOp) (id r : ℕ) (ids : List ℕ), s.ops[j]? = some x →
    x.status = .asking id r ids → ∃ q, s.attempts[r]? = some q ∧ q.op = j
  served : ∀ (r : ℕ) (q : Attempt) (i : CallId), s.attempts[r]? = some q → q.call = some i →
    ∃ op, s.called q.op = some op ∧ s.store.called i = some op
  sole : ∀ (r r' : ℕ) (q q' : Attempt) (i : CallId), s.attempts[r]? = some q →
    s.attempts[r']? = some q' → q.call = some i → q'.call = some i → r = r'
  every : ∀ c, s.store.called (.write c) ≠ none →
    ∃ (r : ℕ) (q : Attempt), s.attempts[r]? = some q ∧ q.call = some (.write c)
  answers : ∀ (j : ℕ) (x : RemoteOp) (r : ℕ) (res : ApplyResult), s.ops[j]? = some x →
    x.status = .returned r res → ∃ (q : Attempt) (i : CallId) (res' : ApplyResult),
      s.attempts[r]? = some q ∧ q.op = j ∧ q.call = some i ∧ s.store.returned i = some res' ∧
      res = res'.wire

theorem linked_init (cfg : KvConfig) (clients : ℕ → Client) : Linked (cfg.remote clients) where
  tells := tells_nil.congr (fun j => by simp [RemoteState.called, KvConfig.remote])
    fun j => by simp [RemoteState.returned, KvConfig.remote]
  asking := by simp [KvConfig.remote]
  served := by simp [KvConfig.remote]
  sole := by simp [KvConfig.remote]
  every c h := by simp [KvConfig.remote, KvConfig.store, KvConfig.init, StoreState.called] at h
  answers := by simp [KvConfig.remote]

theorem RemoteState.called_setOp {x : RemoteOp} (hx : s.ops[j]? = some x) (hreq : x'.req = x.req)
    (l : ℕ) : (s.setOp j x').called l = s.called l := by
  simp only [RemoteState.called, RemoteState.setOp, List.getElem?_set]
  split
  · rename_i hj
    subst hj
    rw [if_pos (List.getElem?_eq_some_iff.mp hx).1, hx, Option.map_some, Option.map_some, hreq]
  · rfl

theorem RemoteState.returned_setOp {x : RemoteOp} (hx : s.ops[j]? = some x) (l : ℕ) :
    (s.setOp j x').returned l = if j = l then x'.status.result else s.returned l := by
  simp only [RemoteState.returned, RemoteState.setOp, List.getElem?_set]
  split
  · rename_i hj
    subst hj
    rw [if_pos (List.getElem?_eq_some_iff.mp hx).1, Option.bind_some]
  · rfl

theorem RemoteState.ops_setOp {x y : RemoteOp} {l : ℕ} (hx : s.ops[j]? = some x)
    (hy : (s.setOp j x').ops[l]? = some y) : (l = j ∧ y = x') ∨ l ≠ j ∧ s.ops[l]? = some y := by
  simp only [RemoteState.setOp, List.getElem?_set] at hy
  split at hy
  · rename_i hj
    rw [if_pos (hj ▸ (List.getElem?_eq_some_iff.mp hx).1)] at hy
    exact .inl ⟨hj.symm, (Option.some.inj hy).symm⟩
  · rename_i hj
    exact .inr ⟨Ne.symm hj, hy⟩

theorem Linked.setOp {x : RemoteOp} (h : Linked s) (clients : ℕ → Client) (hx : s.ops[j]? = some x)
    (hold : x.status.result = none) (hreq : x'.req = x.req) (hnew : x'.status.result = none)
    (hask : ∀ id r ids, x'.status = .asking id r ids → ∃ q, s.attempts[r]? = some q ∧ q.op = j) :
    Linked { s.setOp j x' with clients := clients } where
  tells := by
    refine h.tells.congr (RemoteState.called_setOp hx hreq) fun l => ?_
    refine (RemoteState.returned_setOp hx l).trans ?_
    split
    · rename_i hj
      subst hj
      rw [hnew, RemoteState.returned, hx, Option.bind_some, hold]
    · rfl
  asking l y id r ids hy hst := by
    rcases RemoteState.ops_setOp hx hy with ⟨rfl, rfl⟩ | ⟨-, hy⟩
    · exact hask id r ids hst
    · exact h.asking l y id r ids hy hst
  served r q i hq hi := by
    obtain ⟨op, hop, hi⟩ := h.served r q i hq hi
    exact ⟨op, (RemoteState.called_setOp hx hreq _).trans hop, hi⟩
  sole := h.sole
  every := h.every
  answers l y r res hy hst := by
    rcases RemoteState.ops_setOp hx hy with ⟨rfl, rfl⟩ | ⟨-, hy⟩
    · rw [hst] at hnew
      cases hnew
    · exact h.answers l y r res hy hst

/-- A request is sent. -/
theorem Linked.attempt (h : Linked s) (j dst : ℕ) :
    Linked { s with attempts := s.attempts ++ [⟨j, dst, none⟩] } := by
  have hleft : ∀ {r : ℕ} {q : Attempt}, s.attempts[r]? = some q →
      (s.attempts ++ [(⟨j, dst, none⟩ : Attempt)])[r]? = some q := fun hq =>
    List.getElem?_append_left (List.getElem?_eq_some_iff.mp hq).1 ▸ hq
  have hcase : ∀ {r : ℕ} {q : Attempt} {i : CallId},
      (s.attempts ++ [(⟨j, dst, none⟩ : Attempt)])[r]? = some q → q.call = some i →
      s.attempts[r]? = some q := by
    intro r q i hq hi
    rcases getElem_concat hq with ⟨-, hq⟩ | ⟨-, rfl⟩
    · exact hq
    · cases hi
  refine ⟨h.tells, fun l x id r ids hx hst => ?_, fun r q i hq hi => ?_,
    fun r r' q q' i hq hq' hi hi' => ?_, fun c hc => ?_, fun l x r res hx hst => ?_⟩
  · obtain ⟨q, hq, hop⟩ := h.asking l x id r ids hx hst
    exact ⟨q, hleft hq, hop⟩
  · exact h.served r q i (hcase hq hi) hi
  · exact h.sole r r' q q' i (hcase hq hi) (hcase hq' hi') hi hi'
  · obtain ⟨r, q, hq, hi⟩ := h.every c hc
    exact ⟨r, q, hleft hq, hi⟩
  · obtain ⟨q, i, res', hq, hrest⟩ := h.answers l x r res hx hst
    exact ⟨q, i, res', hleft hq, hrest⟩

/-- A request arrives and its call begins. -/
theorem Linked.arrive {x : RemoteOp} {held : Bool} (h : Linked s) (hs : Chronicle s.store)
    (hv : Chronicle v) (hq : s.attempts[r]? = some q) (hx : s.ops[q.op]? = some x)
    (hnone : q.call = none) (hstep : storeStep cfg s.store (s.serve q.dst held x.req).1 = some v) :
    Linked { s with
      store := v
      attempts := s.attempts.set r { q with call := some (s.serve q.dst held x.req).2 } } := by
  obtain ⟨hfresh, hcall, hwrites⟩ := RemoteState.serve_called hstep
  have hpre := storeStep_extends hstep
  generalize (s.serve q.dst held x.req).2 = i₀ at hfresh hcall hwrites
  have hlt := (List.getElem?_eq_some_iff.mp hq).1
  -- an attempt of the new list is the one that arrived or an old one
  have hcase : ∀ {l : ℕ} {q' : Attempt},
      (s.attempts.set r { q with call := some i₀ })[l]? = some q' →
      (l = r ∧ q' = { q with call := some i₀ }) ∨ l ≠ r ∧ s.attempts[l]? = some q' := by
    intro l q' hq'
    rw [List.getElem?_set] at hq'
    split at hq'
    · rename_i hl
      exact .inl ⟨hl.symm, (Option.some.inj hq').symm⟩
    · rename_i hl
      exact .inr ⟨Ne.symm hl, hq'⟩
  have hkeep : ∀ {l : ℕ} {q' : Attempt}, s.attempts[l]? = some q' → ∃ q'',
      (s.attempts.set r { q with call := some i₀ })[l]? = some q'' ∧ q''.op = q'.op ∧
        (q'.call ≠ none → q'' = q') := by
    intro l q' hq'
    by_cases hl : r = l
    · subst hl
      obtain rfl := Option.mem_unique hq hq'
      exact ⟨_, List.getElem?_set_self hlt, rfl, fun hne => absurd hnone hne⟩
    · exact ⟨q', by rw [List.getElem?_set_ne hl]; exact hq', rfl, fun _ => rfl⟩
  have hnew : ∀ {l : ℕ} {q' : Attempt}, s.attempts[l]? = some q' → q'.call ≠ some i₀ := by
    intro l q' hq' hi
    obtain ⟨op, -, hop⟩ := h.served l q' i₀ hq' hi
    rw [hfresh] at hop
    cases hop
  refine ⟨h.tells, fun l y id r' ids hy hst => ?_, fun l q' i hq' hi => ?_,
    fun l l' q₁ q₂ i hq₁ hq₂ hi₁ hi₂ => ?_, fun c hc => ?_, fun l y r' res hy hst => ?_⟩
  · obtain ⟨q', hq', hop⟩ := h.asking l y id r' ids hy hst
    obtain ⟨q'', hq'', hop', -⟩ := hkeep hq'
    exact ⟨q'', hq'', hop'.trans hop⟩
  · rcases hcase hq' with ⟨rfl, rfl⟩ | ⟨-, hold⟩
    · obtain rfl := Option.some.inj hi
      exact ⟨x.req.operation, by simp [RemoteState.called, hx], hcall⟩
    · obtain ⟨op, hop, hci⟩ := h.served l q' i hold hi
      exact ⟨op, hop, StoreState.called_mono hs hv hpre hci⟩
  · rcases hcase hq₁ with ⟨rfl, rfl⟩ | ⟨-, hold₁⟩ <;> rcases hcase hq₂ with ⟨rfl, rfl⟩ | ⟨-, hold₂⟩
    · rfl
    · exact absurd (hi₂.trans hi₁.symm) (hnew hold₂)
    · exact absurd (hi₁.trans hi₂.symm) (hnew hold₁)
    · exact h.sole l l' q₁ q₂ i hold₁ hold₂ hi₁ hi₂
  · rcases hwrites c hc with hold | rfl
    · obtain ⟨l, q', hq', hi⟩ := h.every c hold
      obtain ⟨q'', hq'', -, heq⟩ := hkeep hq'
      obtain rfl := heq (by simp [hi])
      exact ⟨l, q'', hq'', hi⟩
    · exact ⟨r, _, List.getElem?_set_self hlt, rfl⟩
  · obtain ⟨q', i, res', hq', hop, hi, hret, hres⟩ := h.answers l y r' res hy hst
    obtain ⟨q'', hq'', -, heq⟩ := hkeep hq'
    obtain rfl := heq (by simp [hi])
    exact ⟨q'', i, res', hq'', hop, hi, StoreState.returned_mono hs hv hpre hret, hres⟩

/-- A client begins an operation. -/
theorem Linked.start (h : Linked s) (client prefer : ℕ) (req : RemoteRequest) :
    Linked { s with
      ops := s.ops ++ [⟨client, req, prefer, .looping⟩]
      history := s.history ++ [.call s.ops.length req.operation] } := by
  have hold : ∀ {l : ℕ} {op : Operation}, s.called l = some op →
      (s.ops ++ [(⟨client, req, prefer, .looping⟩ : RemoteOp)])[l]? = s.ops[l]? := by
    intro l op hl
    obtain ⟨x, hx, -⟩ := Option.map_eq_some_iff.mp hl
    exact List.getElem?_append_left (List.getElem?_eq_some_iff.mp hx).1
  refine ⟨h.tells.call ?_ ?_ (fun l hl => ?_) (fun l => ?_), fun l x id r ids hx hst => ?_,
    fun r q i hq hi => ?_, h.sole, h.every, fun l x r res hx hst => ?_⟩
  · simp [RemoteState.called]
  · simp [RemoteState.called]
  · simp only [RemoteState.called, getElem_concat_of_ne hl]
  · by_cases hl : l = s.ops.length
    · subst hl
      simp [RemoteState.returned, WalkStatus.result]
    · simp only [RemoteState.returned, getElem_concat_of_ne hl]
  · rcases getElem_concat hx with ⟨-, hx⟩ | ⟨-, rfl⟩
    · exact h.asking l x id r ids hx hst
    · cases hst
  · obtain ⟨op, hop, hcall⟩ := h.served r q i hq hi
    refine ⟨op, ?_, hcall⟩
    simp only [RemoteState.called, hold hop]
    exact hop
  · rcases getElem_concat hx with ⟨-, hx⟩ | ⟨-, rfl⟩
    · exact h.answers l x r res hx hst
    · cases hst

/-- A client takes the answer it has waited for. -/
theorem Linked.answer {x : RemoteOp} {id : ℕ} {ids : List ℕ} (h : Linked s)
    (clients : ℕ → Client) (hx : s.ops[j]? = some x) (hst : x.status = .asking id r ids)
    (hq : s.attempts[r]? = some q) (hi : q.call = some i)
    (hres : s.store.returned i = some res) :
    Linked { s.setOp j { x with status := .returned r res.wire } with
      clients := clients
      history := s.history ++ [.ret j res.wire] } := by
  have hset : ∀ {l : ℕ} {y : RemoteOp},
      (s.setOp j { x with status := .returned r res.wire }).ops[l]? = some y → _ :=
    RemoteState.ops_setOp hx
  have hcalled : ∀ l, (s.setOp j { x with status := .returned r res.wire }).called l = s.called l :=
    RemoteState.called_setOp hx rfl
  refine ⟨h.tells.ret ?_ ?_ (fun l hl => ?_) hcalled ?_,
    fun l y id' r' ids' hy hst' => ?_, fun r q i hq hi => ?_, h.sole, h.every,
    fun l y r' res' hy hst' => ?_⟩
  · simp [RemoteState.returned, hx, hst, WalkStatus.result]
  · exact (RemoteState.returned_setOp hx j).trans (if_pos rfl)
  · exact (RemoteState.returned_setOp hx l).trans (if_neg (Ne.symm hl))
  · simp [RemoteState.called, hx]
  · rcases hset hy with ⟨-, rfl⟩ | ⟨-, hy⟩
    · cases hst'
    · exact h.asking l y id' r' ids' hy hst'
  · obtain ⟨op, hop, hcall⟩ := h.served r q i hq hi
    exact ⟨op, (hcalled q.op).trans hop, hcall⟩
  · rcases hset hy with ⟨rfl, rfl⟩ | ⟨-, hy⟩
    · obtain ⟨rfl, rfl⟩ := WalkStatus.returned.inj hst'
      obtain ⟨q', hq', hop⟩ := h.asking l x id r ids hx hst
      obtain rfl := Option.mem_unique hq hq'
      exact ⟨q, i, res, hq, hop, hi, hres, rfl⟩
    · exact h.answers l y r' res' hy hst'

theorem Linked.step (h : Linked s) (hs : Chronicle s.store) (ht : Chronicle t.store)
    (hstep : remoteStep cfg s a = some t) : Linked t := by
  cases remoteStep_cases hstep with
  | @store b v hb hv =>
    have hpre := storeStep_extends hv
    refine ⟨h.tells, h.asking, fun r q i hq hi => ?_, h.sole, fun c hc => h.every c ?_,
      fun j x r res hx hst => ?_⟩
    · obtain ⟨op, hop, hcall⟩ := h.served r q i hq hi
      exact ⟨op, hop, StoreState.called_mono hs ht hpre hcall⟩
    · intro hnone
      refine hc ?_
      rw [StoreState.called_write] at hnone ⊢
      exact (storeStep_length hv hb).le.trans hnone
    · obtain ⟨q, i, res', h1, h2, h3, h4, h5⟩ := h.answers j x r res hx hst
      exact ⟨q, i, res', h1, h2, h3, StoreState.returned_mono hs ht hpre h4, h5⟩
  | start _ => exact h.start _ _ _
  | goes hx hw _ _ =>
    obtain ⟨hold, hnew, hask⟩ := hw.results
    exact h.setOp _ hx hold rfl hnew fun id r ids hst => absurd hst (hask id r ids)
  | @ask j id ids x hx hst _ =>
    refine (h.attempt j id).setOp s.clients hx (by rw [hst]; rfl) rfl rfl fun id r ids hst' => ?_
    obtain ⟨-, rfl, -⟩ := WalkStatus.asking.inj hst'
    exact ⟨_, List.getElem?_concat_length, rfl⟩
  | arrive hq hx hnone hv => exact h.arrive hs ht hq hx hnone hv
  | answer hx hst hq hi hres => exact h.answer _ hx hst hq hi hres

/-! ## Runs -/

def RemoteState.act (s : RemoteState) : RemoteAction → Option StoreAction
  | .store a => some a
  | .arrive r held => do
    let q ← s.attempts[r]?
    let x ← s.ops[q.op]?
    return (s.serve q.dst held x.req).1
  | _ => none

def RemoteMatchedFresh (s : RemoteState) (a : RemoteAction) : Prop :=
  ∀ b ∈ s.act a, MatchedFresh s.store b

theorem remoteStep_store (hs : remoteStep cfg s a = some t) :
    t.store = s.store ∨ ∃ b ∈ s.act a, storeStep cfg s.store b = some t.store := by
  cases remoteStep_cases hs with
  | store _ hv => exact .inr ⟨_, rfl, hv⟩
  | arrive hq hx _ hv => exact .inr ⟨_, by simp [RemoteState.act, hq, hx], hv⟩
  | start _ | goes _ _ _ _ | ask _ _ _ | answer _ _ _ _ _ => exact .inl rfl

theorem remoteStep_history (hs : remoteStep cfg s a = some t) :
    ∃ evs, t.history = s.history ++ evs ∧ evs.length ≤ 1 := by
  cases remoteStep_cases hs with
  | store _ _ | goes _ _ _ _ | ask _ _ _ | arrive _ _ _ _ =>
    exact ⟨[], (List.append_nil _).symm, by simp⟩
  | start _ | answer _ _ _ _ _ => exact ⟨_, rfl, le_rfl⟩

structure RemoteState.Coherent (cfg : KvConfig) (g : Ghost) (s : RemoteState) : Prop where
  store : s.store.Coherent cfg g
  linked : Linked s

theorem remoteCoherent_init (cfg : KvConfig) (clients : ℕ → Client) :
    (cfg.remote clients).Coherent cfg State.init :=
  ⟨storeCoherent_init cfg, linked_init cfg clients⟩

theorem RemoteState.Coherent.step (h : s.Coherent cfg g) (ha : RemoteMatchedFresh s a)
    (hs : remoteStep cfg s a = some t) : ∃ g', Grew g g' ∧ t.Coherent cfg g' := by
  have hnext : ∃ g', Grew g g' ∧ t.store.Coherent cfg g' := by
    rcases remoteStep_store hs with heq | ⟨b, hb, hv⟩
    · exact ⟨g, .refl g, heq ▸ h.store⟩
    · exact h.store.step (ha b hb) hv
  obtain ⟨g', hg, ht⟩ := hnext
  exact ⟨g', hg, ht, h.linked.step h.store.chronicle ht.chronicle hs⟩

/-- What a state `u` of a run leaves to a later state `s`: the calls made for attempts and the
answers of operations stay, and what was not yet called in `u` is served by calls that were not. -/
structure Carried (u s : RemoteState) : Prop where
  history : u.store.history <+: s.store.history
  attempts : ∀ (r : ℕ) (q : Attempt) (i : CallId), u.attempts[r]? = some q → q.call = some i →
    s.attempts[r]? = some q
  ops : ∀ (j : ℕ) (x : RemoteOp) (r : ℕ) (res : ApplyResult), u.ops[j]? = some x →
    x.status = .returned r res → s.ops[j]? = some x
  later : ∀ (r : ℕ) (q : Attempt) (i : CallId), s.attempts[r]? = some q → q.call = some i →
    u.called q.op = none → u.store.called i = none

theorem Carried.refl (h : Linked s) : Carried s s where
  history := List.prefix_rfl
  attempts _ _ _ hq _ := hq
  ops _ _ _ _ hx _ := hx
  later r q i hq hi hnone := by
    obtain ⟨op, hop, -⟩ := h.served r q i hq hi
    rw [hnone] at hop
    cases hop

theorem Carried.setOp {x : RemoteOp} (h : Carried u s) (hx : s.ops[j]? = some x)
    (hold : x.status.result = none) {clients : ℕ → Client}
    {evs : List (Event ℕ Operation ApplyResult)} :
    Carried u { s.setOp j x' with clients := clients, history := evs } where
  history := h.history
  attempts := h.attempts
  ops l y r res hy hst := by
    have hs := h.ops l y r res hy hst
    have hne : j ≠ l := by
      rintro rfl
      obtain rfl := Option.mem_unique hx hs
      rw [hst] at hold
      cases hold
    simpa only [RemoteState.setOp, List.getElem?_set_ne hne] using hs
  later := h.later

theorem Carried.attempt (h : Carried u s) (j dst : ℕ) :
    Carried u { s with attempts := s.attempts ++ [⟨j, dst, none⟩] } where
  history := h.history
  attempts r q i hq hi := by
    have hs := h.attempts r q i hq hi
    exact List.getElem?_append_left (List.getElem?_eq_some_iff.mp hs).1 ▸ hs
  ops := h.ops
  later r q i hq hi := by
    rcases getElem_concat hq with ⟨-, hq⟩ | ⟨-, rfl⟩
    · exact h.later r q i hq hi
    · cases hi

theorem Carried.arrive (h : Carried u s) (hu : Chronicle u.store) (hs : Chronicle s.store)
    (hpre : s.store.history <+: v.history) (hq : s.attempts[r]? = some q) (hnone : q.call = none)
    (hfresh : s.store.called i = none) :
    Carried u { s with store := v, attempts := s.attempts.set r { q with call := some i } } where
  history := h.history.trans hpre
  attempts l q' i' hq' hi' := by
    have hold := h.attempts l q' i' hq' hi'
    have hne : r ≠ l := by
      rintro rfl
      obtain rfl := Option.mem_unique hq hold
      rw [hnone] at hi'
      cases hi'
    simpa only [List.getElem?_set_ne hne] using hold
  ops := h.ops
  later l q' i' hq' hi' hop := by
    rcases List.mem_or_eq_of_mem_set (List.mem_of_getElem? hq') with hmem | rfl
    · obtain ⟨l', hl'⟩ := List.mem_iff_getElem?.mp hmem
      exact h.later l' q' i' hl' hi' hop
    · -- a call that begins now had not begun then
      obtain rfl := Option.some.inj hi'
      by_contra hne
      obtain ⟨op, hop⟩ := Option.ne_none_iff_exists'.mp hne
      have := StoreState.called_mono hu hs h.history hop
      rw [hfresh] at this
      cases this

theorem Carried.step (h : Carried u s) (hu : Chronicle u.store) (hs : Chronicle s.store)
    (hstep : remoteStep cfg s a = some t) : Carried u t := by
  cases remoteStep_cases hstep with
  | store _ hv => exact ⟨h.history.trans (storeStep_extends hv), h.attempts, h.ops, h.later⟩
  | start _ =>
    refine ⟨h.history, h.attempts, fun j x r res hx hst => ?_, h.later⟩
    have hold := h.ops j x r res hx hst
    exact List.getElem?_append_left (List.getElem?_eq_some_iff.mp hold).1 ▸ hold
  | goes hx hw _ _ => exact h.setOp hx hw.results.1
  | @ask j id _ _ hx hst _ => exact (h.attempt j id).setOp hx (by rw [hst]; rfl)
  | arrive hq _ hnone hv =>
    exact h.arrive hu hs (storeStep_extends hv) hq hnone (RemoteState.serve_called hv).1
  | answer hx hst _ _ _ => exact h.setOp hx (by rw [hst]; rfl)

/-- There is a mark at every event of the clients' history. -/
theorem remote_marked {clients : ℕ → Client}
    (hs : Reaches (remoteStep cfg) RemoteMatchedFresh (cfg.remote clients) s) :
    ∃ g, s.Coherent cfg g ∧ ∀ m ≤ s.history.length, ∃ g₀ u, u.Coherent cfg g₀ ∧
      u.history = s.history.take m ∧ Mark cfg g₀ u.store g s.store ∧ Carried u s := by
  refine hs.invariant (I := fun s => ∃ g, s.Coherent cfg g ∧ ∀ m ≤ s.history.length, ∃ g₀ u,
    u.Coherent cfg g₀ ∧ u.history = s.history.take m ∧ Mark cfg g₀ u.store g s.store ∧
      Carried u s) ?_ ?_
  · rintro s a t ⟨g, hc, hmarks⟩ ha ht
    obtain ⟨g', hg, hc'⟩ := hc.step ha ht
    refine ⟨g', hc', fun m hm => ?_⟩
    obtain ⟨evs, hevs, hlen⟩ := remoteStep_history ht
    by_cases hold : m ≤ s.history.length
    · obtain ⟨g₀, u, hu, hhist, hmark, hcar⟩ := hmarks m hold
      refine ⟨g₀, u, hu, ?_, ?_, hcar.step hu.store.chronicle hc.store.chronicle ht⟩
      · rw [hevs, List.take_append_of_le_length hold, hhist]
      · rcases remoteStep_store ht with heq | ⟨b, hb, hv⟩
        · exact heq ▸ { hmark with grew := hmark.grew.trans hg }
        · exact hmark.step hu.store hc.store hg (ha b hb) hv
    · refine ⟨g', t, hc', (List.take_of_length_le ?_).symm, .refl hc'.store, .refl hc'.linked⟩
      rw [hevs, List.length_append] at hm ⊢
      omega
  · have hinit := remoteCoherent_init cfg clients
    exact ⟨State.init, hinit, fun m hm => ⟨State.init, _, hinit, by simp [KvConfig.remote],
      .refl hinit.store, .refl hinit.linked⟩⟩

/-! ## The result -/

namespace RemoteState

def entries (s : RemoteState) (j : ℕ) : List LogEntry :=
  s.attempts.flatMap fun q =>
    if q.op = j then ((q.call.bind s.store.written).map KvCall.proposed).getD [] else []

def written (s : RemoteState) (j : ℕ) : Option KvCall :=
  (s.called j).bind fun op => match op with
    | .write cmd => some { server := 0, epoch := 0, cmd := cmd, proposed := s.entries j }
    | .read _ => none

def view (s : RemoteState) (j : ℕ) : Option (ℕ × Bytes) :=
  s.ops[j]?.bind fun x => match x.status with
    | .returned r _ => s.attempts[r]?.bind fun q => q.call.bind s.store.view
    | _ => none

variable {e : LogEntry} {x : KvCall} {p : ℕ} {key : Bytes}

theorem mem_entries : e ∈ s.entries j ↔ ∃ (r : ℕ) (q : Attempt) (c : ℕ) (y : KvCall),
    s.attempts[r]? = some q ∧ q.op = j ∧ q.call = some (.write c) ∧
    s.store.kv.calls[c]? = some y ∧ e ∈ y.proposed := by
  rw [entries, List.mem_flatMap]
  constructor
  · rintro ⟨q, hq, he⟩
    obtain ⟨r, hr⟩ := List.mem_iff_getElem?.mp hq
    split at he
    · rename_i hop
      cases hw : q.call.bind s.store.written with
      | none => simp [hw] at he
      | some y =>
        obtain ⟨i, hi, hy⟩ := Option.bind_eq_some_iff.mp hw
        cases i with
        | write c => exact ⟨r, q, c, y, hr, hop, hi, hy, by simpa [hw] using he⟩
        | read c => cases hy
    · cases he
  · rintro ⟨r, q, c, y, hr, rfl, hi, hy, he⟩
    exact ⟨q, List.mem_of_getElem? hr, by simpa [hi, StoreState.written, hy] using he⟩

theorem written_some (h : s.written j = some x) :
    s.called j = some (.write x.cmd) ∧ x.proposed = s.entries j := by
  obtain ⟨op, hop, h⟩ := Option.bind_eq_some_iff.mp h
  cases op with
  | write cmd =>
    obtain rfl := Option.some.inj h
    exact ⟨hop, rfl⟩
  | read key => cases h

theorem returned_some (h : s.returned j = some res) :
    ∃ x r, s.ops[j]? = some x ∧ x.status = .returned r res := by
  obtain ⟨x, hx, h⟩ := Option.bind_eq_some_iff.mp h
  unfold WalkStatus.result at h
  split at h
  · rename_i r _ hst
    exact ⟨x, r, hx, by rw [hst, Option.some.inj h]⟩
  · cases h

theorem view_some (h : s.view j = some (p, key)) : ∃ x r res q i, s.ops[j]? = some x ∧
    x.status = .returned r res ∧ s.attempts[r]? = some q ∧ q.call = some i ∧
    s.store.view i = some (p, key) := by
  obtain ⟨x, hx, h⟩ := Option.bind_eq_some_iff.mp h
  split at h
  · rename_i r res hst
    obtain ⟨q, hq, h⟩ := Option.bind_eq_some_iff.mp h
    obtain ⟨i, hi, h⟩ := Option.bind_eq_some_iff.mp h
    exact ⟨x, r, res, q, i, hx, hst, hq, hi, h⟩
  · cases h

end RemoteState

theorem ApplyResult.plain_wire (res : ApplyResult) : res.wire.plain = res.plain := by
  simp [ApplyResult.wire, ApplyResult.plain, ApplyResult.norm, Slice.norm_wire]

/-- A call that writes serves an operation which writes the same. -/
theorem Linked.writes {y : KvCall} (h : Linked s) (hq : s.attempts[r]? = some q)
    (hi : q.call = some (.write c)) (hy : s.store.kv.calls[c]? = some y) :
    s.called q.op = some (.write y.cmd) := by
  obtain ⟨op, hop, hcall⟩ := h.served r q _ hq hi
  rw [StoreState.called, hy, Option.map_some] at hcall
  exact hop.trans hcall.symm

theorem Linked.reads {y : GetCall} (h : Linked s) (hq : s.attempts[r]? = some q)
    (hi : q.call = some (.read c)) (hy : s.store.gets[c]? = some y) :
    s.called q.op = some (.read y.key) := by
  obtain ⟨op, hop, hcall⟩ := h.served r q _ hq hi
  rw [StoreState.called, hy, Option.map_some] at hcall
  exact hop.trans hcall.symm

theorem Linked.not_reads {x : KvCall} {y : GetCall} (h : Linked s) (hx : s.written q.op = some x)
    (hq : s.attempts[r]? = some q) (hi : q.call = some (.read c)) (hy : s.store.gets[c]? = some y) :
    False := by
  have hread := h.reads hq hi hy
  rw [(RemoteState.written_some hx).1] at hread
  cases hread

/-- The read that answered an operation. -/
theorem Linked.view {p : ℕ} {key : Bytes} (h : Linked s) (hv : s.view j = some (p, key)) :
    ∃ (r : ℕ) (q : Attempt) (c : ℕ) (y : GetCall) (res : ApplyResult), s.attempts[r]? = some q ∧
      q.op = j ∧ q.call = some (.read c) ∧ s.store.gets[c]? = some y ∧
      y.status = .done (.ok res) ∧ p = y.place ∧ key = y.key ∧
      s.returned j = some res.wire ∧ ∃ x, s.ops[j]? = some x ∧ x.status = .returned r res.wire := by
  obtain ⟨x, r, res, q, i, hx, hst, hq, hi, hv⟩ := RemoteState.view_some hv
  obtain ⟨c, y, res', rfl, hy, hst', rfl, rfl⟩ := StoreState.view_some hv
  obtain ⟨q', i', res'', hq', hop, hi', hret, rfl⟩ := h.answers j x r res hx hst
  obtain rfl := Option.mem_unique hq hq'
  obtain rfl := Option.mem_unique hi hi'
  rw [StoreState.returned_read hy, hst'] at hret
  obtain rfl := Option.some.inj hret
  exact ⟨r, q, c, y, res', hq, hop, hi, hy, hst', rfl, rfl,
    by simp [RemoteState.returned, hx, hst, WalkStatus.result], x, hx, hst⟩

section Result

variable {es : List LogEntry} {cmds : List Command}

/-- An operation that had returned by a mark has its place before those of the operations that were
not yet called then. -/
theorem RemoteState.Coherent.timely (hc : s.Coherent cfg g) (hu : u.Coherent cfg g₀)
    (hmark : Mark cfg g₀ u.store g s.store) (hcar : Carried u s)
    (hw : Whole g s.store.kv.outcomes es cmds) (hret : u.returned j = some res)
    (hcall : u.called k = none) : ∃ n,
      (∀ x, s.written j = some x → ∃ l < n, x.EntryAt es l) ∧
      (∀ p key, s.view j = some (p, key) → p ≤ n) ∧
      (∀ x l, s.written k = some x → x.EntryAt es l → n ≤ l) ∧
      ∀ p key, s.view k = some (p, key) → n ≤ p := by
  obtain ⟨x, r, hx, hst⟩ := RemoteState.returned_some hret
  obtain ⟨q, i, res', hq, rfl, hi, hret', -⟩ := hu.linked.answers j x r res hx hst
  have hq' := hcar.attempts r q i hq hi
  have hx' := hcar.ops q.op x r res hx hst
  obtain ⟨T, L, hL, hwrite, hread⟩ := hmark.ends hu.store hc.store hw hret'
  refine ⟨L.length, fun y hy => ?_, fun p key hv => ?_, fun y l hy hat => ?_, fun p key hv => ?_⟩
  · have hentries := (RemoteState.written_some hy).2
    cases i with
    | write c =>
      obtain ⟨z, hz, -⟩ := KvState.returned_some hret'
      obtain ⟨z', hz', -⟩ := hmark.calls c z hz
      obtain ⟨l, hl, e, he, hmem⟩ := hwrite c z' rfl hz'
      exact ⟨l, hl, e, he, hentries ▸ RemoteState.mem_entries.mpr
        ⟨r, q, c, z', hq', rfl, hi, hz', hmem⟩⟩
    | read c =>
      obtain ⟨z, hz, hzst⟩ := StoreState.returned_some hret'
      exact (hc.linked.not_reads hy hq' hi (hmark.gets c z res' hz hzst)).elim
  · obtain ⟨r', q', c, y, res'', hq'', -, hi', hy, -, rfl, -, -, x', hx'', hst'⟩ :=
      hc.linked.view hv
    -- the answer is still the one the operation had then
    obtain rfl := Option.mem_unique hx' hx''
    obtain ⟨rfl, -⟩ := WalkStatus.returned.inj (hst.symm.trans hst')
    obtain rfl := Option.mem_unique hq' hq''
    exact hread c y (Option.mem_unique hi hi') hy
  · obtain ⟨e, he, hmem⟩ := hat
    rw [(RemoteState.written_some hy).2] at hmem
    obtain ⟨r', q', c, z, hq'', rfl, hi', hz, hez⟩ := RemoteState.mem_entries.mp hmem
    exact hmark.unwritten hu.store hc.store hw (hcar.later r' q' _ hq'' hi' hcall) hz
      ⟨e, he, hez⟩ hL
  · obtain ⟨r', q', c, y, res'', hq'', rfl, hi', hy, hyst, rfl, -⟩ := hc.linked.view hv
    exact hmark.unseen hc.store (hcar.later r' q' _ hq'' hi' hcall) hy hyst hL

/-- The entries of an operation carry its command. -/
theorem RemoteState.Coherent.data {x : KvCall} {e : LogEntry} (hc : s.Coherent cfg g)
    (hx : s.written j = some x) (he : e ∈ x.proposed) : e.data = x.cmd.encode := by
  obtain ⟨hop, hentries⟩ := RemoteState.written_some hx
  rw [hentries] at he
  obtain ⟨r, q, c, y, hq, rfl, hi, hy, he⟩ := RemoteState.mem_entries.mp he
  have hwrite := hc.linked.writes hq hi hy
  rw [hop] at hwrite
  rw [Operation.write.inj (Option.some.inj hwrite)]
  exact hc.store.kv.proposed c y hy e he

/-- No entry is of two operations. -/
theorem RemoteState.Coherent.sole {e : LogEntry} (hc : s.Coherent cfg g)
    (he : e ∈ s.entries j) (he' : e ∈ s.entries k) : j = k := by
  obtain ⟨r, q, c, y, hq, rfl, hi, hy, he⟩ := RemoteState.mem_entries.mp he
  obtain ⟨r', q', c', y', hq', rfl, hi', hy', he'⟩ := RemoteState.mem_entries.mp he'
  obtain rfl := hc.store.kv.ascribed.sole c c' y y' e hy hy' he he'
  obtain rfl := hc.linked.sole r r' q q' _ hq hq' hi hi'
  rw [Option.mem_unique hq hq']

/-- An operation that has written was answered for one of its entries. -/
theorem RemoteState.Coherent.answered {x : KvCall} (hc : s.Coherent cfg g)
    (hx : s.written j = some x) (hret : s.returned j = some res) :
    ∃ o ∈ s.store.kv.outcomes, o.entry ∈ x.proposed ∧ res.plain = o.result.plain := by
  obtain ⟨y, r, hy, hst⟩ := RemoteState.returned_some hret
  obtain ⟨q, i, res', hq, rfl, hi, hret', rfl⟩ := hc.linked.answers j y r res hy hst
  cases i with
  | write c =>
    obtain ⟨z, o, hz, ho, hmem, rfl⟩ := hc.store.answered hret'
    refine ⟨o, ho, ?_, ApplyResult.plain_wire _⟩
    rw [(RemoteState.written_some hx).2]
    exact RemoteState.mem_entries.mpr ⟨r, q, c, z, hq, rfl, hi, hz, hmem⟩
  | read c =>
    obtain ⟨z, hz, -⟩ := StoreState.returned_some hret'
    exact (hc.linked.not_reads hx hq hi hz).elim

/-- The operations of the clients have their places within their times. -/
theorem RemoteState.Coherent.placement (hc : s.Coherent cfg g)
    (hmarks : ∀ m ≤ s.history.length, ∃ g₀ u, u.Coherent cfg g₀ ∧
      u.history = s.history.take m ∧ Mark cfg g₀ u.store g s.store ∧ Carried u s)
    (hw : Whole g s.store.kv.outcomes es cmds)
    (hsafe : ∀ j x, s.written j = some x → x.Safe s.store.kv) :
    Nonempty (Placement g s.store.kv es s.history) := by
  refine ⟨⟨s.called, s.returned, s.written, s.view, hc.linked.tells, fun j x hx => ?_,
    fun j j' x x' e hx hx' he he' => ?_, fun o ho => ?_, fun j x res hx hret => hc.answered hx hret,
    fun j p key hv => ?_, fun j hret => ?_, fun j k hjk => ?_⟩⟩
  · refine ⟨(RemoteState.written_some hx).1, Option.eq_none_iff_forall_ne_some.mpr fun v hv => ?_,
      hsafe j x hx, fun e he => hc.data hx he⟩
    obtain ⟨r, q, c, y, _, hq, rfl, hi, hy, -⟩ := hc.linked.view hv
    exact hc.linked.not_reads hx hq hi hy
  · rw [(RemoteState.written_some hx).2] at he
    rw [(RemoteState.written_some hx').2] at he'
    exact hc.sole he he'
  · obtain ⟨c, y, hy, hmem⟩ := hc.store.kv.ascribed.origins.outcomes o ho
    obtain ⟨r, q, hq, hi⟩ := hc.linked.every c (by simp [StoreState.called, hy])
    refine ⟨q.op, _, by rw [RemoteState.written, hc.linked.writes hq hi hy]; rfl, ?_⟩
    exact RemoteState.mem_entries.mpr ⟨r, q, c, y, hq, rfl, hi, hy, hmem⟩
  · obtain ⟨r, q, c, y, res, hq, rfl, hi, hy, hst, rfl, rfl, hret, -⟩ := hc.linked.view hv
    obtain ⟨⟨m, hm, rfl⟩, hcov, -⟩ := hc.store.looked y (List.mem_of_getElem? hy) res hst
    exact ⟨hc.linked.reads hq hi hy, hcov, m, _, hm, hret, ApplyResult.plain_wire _⟩
  · obtain ⟨res, hret⟩ := Option.ne_none_iff_exists'.mp hret
    obtain ⟨y, r, hy, hst⟩ := RemoteState.returned_some hret
    obtain ⟨q, i, res', hq, rfl, hi, hret', rfl⟩ := hc.linked.answers j y r res hy hst
    cases i with
    | write c =>
      obtain ⟨z, hz, -⟩ := KvState.returned_some hret'
      exact .inl (by simp [RemoteState.written, hc.linked.writes hq hi hz])
    | read c =>
      obtain ⟨z, hz, hzst⟩ := StoreState.returned_some hret'
      exact .inr (by simp [RemoteState.view, hy, hst, hq, hi, StoreState.view, hz, hzst,
        GetStatus.returned])
  · obtain ⟨m, hm, ⟨res, hret⟩, hcall⟩ := hc.linked.tells.before hjk
    obtain ⟨g₀, u, hu, hhist, hmark, hcar⟩ := hmarks m hm
    rw [← hhist, hu.linked.tells.returns] at hret
    refine hc.timely hu hmark hcar hw hret ?_
    by_contra hne
    obtain ⟨op, hop⟩ := Option.ne_none_iff_exists'.mp hne
    exact hcall op (hhist ▸ (hu.linked.tells.calls k op).mpr hop)

end Result

/-- Remote clients send their requests to one node after the other, again and again, while answers
are lost, nodes crash and leaders change; a request that was given up may still be served later.
There is an order of their operations, each of them once, that one machine, alone, would have
answered as they were answered, and in which no operation comes before one that had returned when
it was begun. -/
theorem remote_linearizable {clients : ℕ → Client}
    (hs : Reaches (remoteStep cfg) RemoteMatchedFresh (cfg.remote clients) s)
    (hsafe : ∀ j x, s.written j = some x → x.Safe s.store.kv) :
    Linearizable storeObject s.history := by
  obtain ⟨g, hc, hmarks⟩ := remote_marked hs
  have hkv := hc.store.kv
  obtain ⟨es, cmds, hw⟩ := hkv.refines.whole hkv.gapless hkv.sim.sim.rel.inv
  obtain ⟨P⟩ := hc.placement hmarks hw hsafe
  exact P.linearizable hw hkv.sim.sim.rel.inv hkv.refines.outcomes

/-! ## A run -/

def RemoteAction.kv (b : KvAction) : RemoteAction := .store (.kv b)

def RemoteState.calm (s : RemoteState) (a : RemoteAction) : Bool := (s.act a).all s.store.calm

theorem RemoteState.serve_reliable (s : RemoteState) (dst : ℕ) (held : Bool)
    (req : RemoteRequest) : ∀ b ∈ (s.serve dst held req).1.act, b.Reliable := by
  cases req <;>
    simp [serve, StoreAction.act, KvAction.Reliable, ReadAction.Reliable, ReadAction.act]

def RemoteAction.Reliable : RemoteAction → Prop
  | .store a => ∀ b ∈ a.act, b.Reliable
  | _ => True

theorem RemoteState.calm_matchedFresh (hrel : a.Reliable) (h : s.calm a = true) :
    RemoteMatchedFresh s a := by
  intro b hb
  refine StoreState.calm_matchedFresh ?_ ((Option.all_eq_true _ _).mp h b hb)
  cases a with
  | store c =>
    obtain rfl := Option.some.inj hb
    exact hrel
  | arrive r held =>
    obtain ⟨q, -, hb⟩ := Option.bind_eq_some_iff.mp hb
    obtain ⟨x, -, hb⟩ := Option.bind_eq_some_iff.mp hb
    obtain rfl := Option.some.inj hb
    exact s.serve_reliable q.dst held x.req
  | _ => cases hb

/-- A client puts a value through node 1 and loses the answer; another one puts a value under the
same key. -/
def bothAsked : List RemoteAction :=
  [.start 0 (.executeOnce [1] 5 ⟨opPut, [], 0, [7], some [1], none⟩), .sweep 0 0, .ask 0,
    .arrive 0 false, .kv (.enqueue 0), .kv (.propose 1 0 {}), .kv (.register 0), .fail 0 10,
    .start 1 (.executeOnce [2] 9 ⟨opPut, [], 0, [7], some [2], none⟩), .sweep 1 20, .ask 1,
    .arrive 1 false, .kv (.enqueue 1), .kv (.propose 1 0 {}), .kv (.register 1)]

/-- Node 2 sends the first client back to node 1, where its put is proposed again. -/
def askedAgain : List RemoteAction :=
  [.ask 0, .arrive 2 false, .kv (.enqueue 2), .kv (.propose 2 0 {}), .redirect 0 1, .pause 0,
    .sweep 0 3000, .ask 0, .arrive 3 false, .kv (.enqueue 3), .kv (.propose 1 0 {}),
    .kv (.register 3)]

def bothAnswered : List RemoteAction :=
  [.kv (.take 1), .kv (.apply 1), .kv (.notify 1), .kv (.take 1), .kv (.apply 1), .kv (.notify 1),
    .kv (.receive 1), .answer 1, .kv (.take 1), .kv (.apply 1), .kv (.notify 1), .kv (.receive 3),
    .answer 0, .start 0 (.get [1] 6 [7]), .sweep 2 3100, .ask 2, .arrive 4 false]

def askedTwice : List RemoteAction :=
  (onNodes electFirst).map .kv ++ bothAsked ++ askedAgain ++
    (onNodes [.replicate 1 2, .deliver 2 false {}, .respond 2 0 {}, .applierTake 1, .applierSend 1,
      .applierSend 1, .applierSend 1]).map .kv ++ bothAnswered ++
    (readPair.drop 1 ++ [KvAction.reads (.applied 1)]).map .kv ++
    [RemoteAction.store (.grant 0), .store (.look 0), .answer 2]

theorem askedTwice_reliable : ∀ a ∈ askedTwice, a.Reliable := by
  have hkv : ∀ {acts : List KvAction}, (∀ c ∈ acts, c.Reliable) →
      ∀ a ∈ acts.map RemoteAction.kv, a.Reliable := by
    intro acts h a ha
    obtain ⟨d, hd, rfl⟩ := List.mem_map.mp ha
    intro c hc
    obtain rfl := Option.some.inj hc
    exact h d hd
  simp only [askedTwice, List.forall_mem_append]
  refine ⟨⟨⟨⟨⟨⟨hkv (reliable_onNodes electFirst_reliable), ?_⟩, ?_⟩, hkv (reliable_onNodes ?_)⟩,
    ?_⟩, hkv ?_⟩, ?_⟩
  · simp [bothAsked, RemoteAction.kv, RemoteAction.Reliable, StoreAction.act, KvAction.Reliable]
  · simp [askedAgain, RemoteAction.kv, RemoteAction.Reliable, StoreAction.act, KvAction.Reliable]
  · simp [Action.Reliable, Action.io]
  · simp [bothAnswered, RemoteAction.kv, RemoteAction.Reliable, StoreAction.act, KvAction.Reliable]
  · rw [List.forall_mem_append]
    refine ⟨fun b hb => readPair_reliable b (List.mem_of_mem_drop hb), ?_⟩
    simp [KvAction.Reliable, ReadAction.Reliable, ReadAction.act]
  · simp [RemoteAction.Reliable, StoreAction.act]

theorem remote_linearizable_pair : ∃ s, Reaches (remoteStep .pair) RemoteMatchedFresh
      (KvConfig.pair.remote fun _ => { order := [1, 2] }) s ∧
    (s.entries 0).map LogEntry.index = [1, 3] ∧
    s.history = [.call 0 (.write ⟨opPut, [1], 5, [7], some [1], none⟩),
      .call 1 (.write ⟨opPut, [2], 9, [7], some [2], none⟩),
      .ret 1 ⟨true, some [1], false⟩, .ret 0 ⟨true, none, true⟩,
      .call 2 (.read [7]), .ret 2 ⟨true, some [2], false⟩] ∧
    Linearizable storeObject s.history := by
  have hs := Reaches.of_exec (remoteStep .pair) RemoteMatchedFresh
    (KvConfig.pair.remote fun _ => { order := [1, 2] }) askedTwice
    (Along.imp (P := fun s a => s.calm a = true) (fun s a ha h => RemoteState.calm_matchedFresh
      (askedTwice_reliable a ha) h) (by decide)) rfl
  refine ⟨_, hs, rfl, rfl, remote_linearizable hs fun j x hx => ?_⟩
  rcases j with _ | _ | _ | j
  · obtain rfl := Option.some.inj hx
    exact ⟨⟨by decide, by decide, by decide⟩, fun _ => guarded_put rfl rfl⟩
  · obtain rfl := Option.some.inj hx
    exact ⟨⟨by decide, by decide, by decide⟩, fun h => absurd h (by decide)⟩
  · cases hx
  · cases hx

end KMC
