import KillMyCluster.Kv.Get
import KillMyCluster.Kv.Refine

/-! The reads of the store below `Get`. A call that `ReadIndex` lets through, when no lease answers
in place of a round of heartbeats, finds in its process a machine that has been given everything
through the index that was confirmed. -/

namespace KMC

open LeaderLog Trace

/-! ## Calls of ReadIndex -/

def ReadState.Pending (s : ReadState) (p c : ℕ) : Prop :=
  c ∈ (s.readers p).queue ∨ c ∈ (s.readers p).batch

section Calls

variable {cfg : Config} {s t : ReadState} {a : ReadAction} {p q c : ℕ}

theorem ReadState.pending_setReader {b : Reader} (h : (s.setReader q b).Pending p c)
    (hb : c ∈ b.queue ∨ c ∈ b.batch → s.Pending q c) : s.Pending p c := by
  unfold ReadState.Pending ReadState.setReader at h
  by_cases hp : p = q
  · subst hp
    simp only [Function.update_self] at h
    exact hb h
  · simpa only [ReadState.Pending, Function.update_of_ne hp] using h

theorem ReadState.pending_advance {u : State} (h : (s.advance u).Pending p c) :
    s.Pending p c ∧ (u.servers p).epoch = (s.base.servers p).epoch := by
  unfold ReadState.Pending ReadState.advance at h
  simp only at h
  split at h
  · rename_i he
    exact ⟨h, he⟩
  · simp at h

/-- A pending call was pending in the same process, or it has just come. -/
theorem readStep_pending (h : readStep cfg s a = some t) (hp : t.Pending p c) :
    (s.Pending p c ∧ (t.base.servers p).epoch = (s.base.servers p).epoch) ∨
      ((∃ held, a = .call p held) ∧ c = s.calls) := by
  -- the readers change after the cluster has gone on
  have hset : ∀ {u : State} {q : ℕ} {b : Reader}, ((s.advance u).setReader q b).Pending p c →
      b.queue = (s.readers q).queue → b.batch = (s.readers q).batch →
      (∀ q, (u.servers q).epoch = (s.base.servers q).epoch) →
      s.Pending p c ∧ (u.servers p).epoch = (s.base.servers p).epoch := by
    intro u q b hp hq hb he
    refine ReadState.pending_advance (ReadState.pending_setReader hp fun hc => ?_)
    rw [hq, hb] at hc
    simpa only [ReadState.Pending, ReadState.advance, if_pos (he q)] using hc
  have hsame : ∀ {x : Action} {u : State}, step cfg s.base x = some u → (∀ q, x ≠ .restart q) →
      ∀ q, (u.servers q).epoch = (s.base.servers q).epoch :=
    fun hu hx q => ((step_sent_grows hu q).resolve_right fun h => hx q h.1).1
  cases readStep_cases h with
  | cluster _ => exact .inl (ReadState.pending_advance hp)
  | @call q held n hn =>
    by_cases hnew : c = s.calls
    · by_cases hpq : p = q
      · exact .inr ⟨⟨held, hpq ▸ rfl⟩, hnew⟩
      · refine .inl ⟨?_, rfl⟩
        simpa only [ReadState.Pending, ReadState.setReader, Function.update_of_ne hpq] using hp
    · refine .inl ⟨ReadState.pending_setReader hp fun hc => ?_, rfl⟩
      unfold Node.readIndex at hc
      split at hc
      · exact hc
      · simpa [ReadState.Pending, hnew] using hc
  | collect _ =>
    refine .inl ⟨ReadState.pending_setReader hp fun hc => .inl ?_, rfl⟩
    rcases hc with hc | hc
    · exact List.mem_of_mem_drop hc
    · exact List.mem_of_mem_take hc
  | confirm _ => exact .inl ⟨ReadState.pending_setReader hp id, rfl⟩
  | beat _ _ hu => exact .inl (hset hp rfl rfl (hsame hu (by simp)))
  | ack _ _ _ _ hu => exact .inl (hset hp rfl rfl (hsame hu (by simp)))
  | confirmed _ _ _ hu _ _ => exact .inl (hset hp rfl rfl (hsame hu (by simp)))
  | @deposed q u hu =>
    have he := hsame hu (by simp)
    have := ReadState.pending_setReader (s := s.advance u) hp fun hc => .inl <| by
      simpa [ReadState.advance, he q] using hc
    exact .inl (ReadState.pending_advance this)
  | fail _ hq _ =>
    refine .inl ⟨ReadState.pending_setReader hp fun hc => .inl (hq _ ?_), rfl⟩
    simpa using hc
  | applied _ =>
    refine .inl ⟨ReadState.pending_setReader hp fun hc => .inl ?_, rfl⟩
    simpa using hc
  | appliedLeased => exact .inl ⟨ReadState.pending_setReader hp id, rfl⟩

/-- A call is let through at the end of the wait of its batch, or under a lease. -/
theorem readStep_granted {r : ReadResult} (h : readStep cfg s a = some t) (hr : r ∈ t.results)
    (hok : r.ok = true) : r ∈ s.results ∨ (∃ p j, a = .appliedLeased p j) ∨
      ∃ p n, a = .applied p ∧ s.Pending p r.call ∧
        (s.readers p).phase = .waiting r.index r.round ∧ s.base.node p = some n ∧
        r.index ≤ n.lastApplied ∧ t.base = s.base := by
  have hfail : ∀ {u : ReadState} {q : ℕ} {b : Reader}, u.results = s.results →
      r ∈ (u.failReads q b).results → r ∈ s.results := by
    intro u q b hu hr
    rcases List.mem_append.mp hr with hr | hr
    · exact hu ▸ hr
    · obtain ⟨_, -, rfl⟩ := List.mem_map.mp hr
      cases hok
  cases readStep_cases h with
  | cluster _ | call _ | collect _ | confirm _ | beat _ _ _ | ack _ _ _ _ _ =>
    exact .inl hr
  | confirmed _ _ _ _ _ _ => exact .inl hr
  | @deposed _ u _ => exact .inl (hfail (u := s.advance u) rfl hr)
  | fail _ _ _ => exact .inl (hfail rfl hr)
  | @applied p i round hph =>
    rcases List.mem_append.mp hr with hr | hr
    · exact .inl hr
    obtain ⟨c, hc, rfl⟩ := List.mem_map.mp hr
    simp only [readStep, Option.bind_eq_bind, Option.bind_eq_some_iff, hph] at h
    obtain ⟨n, hn, h⟩ := h
    split at h
    · rename_i hle
      exact .inr (.inr ⟨p, n, rfl, .inr hc, hph, hn, hle, rfl⟩)
    · cases h
  | @appliedLeased p j _ _ _ => exact .inr (.inl ⟨p, j, rfl⟩)

theorem readStep_calls (h : readStep cfg s a = some t) : s.calls ≤ t.calls := by
  cases readStep_cases h with
  | call _ => exact Nat.le_succ _
  | _ => exact Nat.le_refl _

theorem readStep_results (h : readStep cfg s a = some t) : s.results ⊆ t.results := by
  cases readStep_cases h with
  | deposed _ | fail _ _ _ | applied _ | appliedLeased => exact List.subset_append_left _ _
  | _ => exact List.Subset.refl _

end Calls

/-! ## Reads of the store -/

section Reads

variable {cfg : KvConfig} {g g' : Ghost} {s t : KvState} {a : KvAction} {p : ℕ}
  {gets : List GetCall}

/-- No read is let through under a lease. -/
def KvAction.Polled (s : KvState) : KvAction → Prop
  | .reads (.applied p) => match (s.reads.readers p).phase with
    | .waiting _ round => round = true
    | _ => True
  | .reads (.appliedLeased _ _) => False
  | _ => True

/-- The readers stay or make a step. -/
theorem kvStep_reads (hs : kvStep cfg s a = some t) : t.reads = s.reads ∨
    ∃ b, readStep cfg.raft s.reads b = some t.reads ∧ (a.Reliable → b.Reliable) ∧
      (a = .reads b ∨ ∃ y, b = .cluster y) := by
  cases kvStep_cases hs with
  | reads _ hr => exact .inr ⟨_, hr, id, .inl rfl⟩
  | propose _ hr =>
    refine .inr ⟨_, hr, fun ha x hx => ?_, .inr ⟨_, rfl⟩⟩
    obtain rfl := Option.some.inj hx
    exact ha
  | panics hr =>
    refine .inr ⟨_, hr, fun _ x hx => ?_, .inr ⟨_, rfl⟩⟩
    obtain rfl := Option.some.inj hx
    rfl
  | compact _ _ _ hr =>
    refine .inr ⟨_, hr, fun ha x hx => ?_, .inr ⟨_, rfl⟩⟩
    obtain rfl := Option.some.inj hx
    exact ha
  | _ => exact .inl rfl

theorem lastSent_le_of_prefix {ms ms' : List ApplyMsg} {i : ℕ} (h : InOrder ms i)
    (hp : ms' <+: ms) : lastSent ms' ≤ lastSent ms := by
  rw [h.lastSent]
  cases hl : ms'.getLast? with
  | none => simp [lastSent, hl]
  | some m =>
    rw [lastSent, hl, Option.map_some, Option.getD_some]
    exact h.index_le m (hp.subset (List.mem_of_getLast? hl))

theorem KvSim.inOrder_given (h : KvSim cfg g s) (p : ℕ) : ∃ i, InOrder (s.given p) i := by
  obtain ⟨_, hi⟩ := h.sends.sent p
  exact hi.take _

theorem KvSim.applied_le (h : KvSim cfg g s) {r : ℕ} (hr : s.AppliedThrough p r) :
    r ≤ lastSent (s.given p) := by
  obtain ⟨i, hi⟩ := h.inOrder_given p
  rcases Nat.eq_zero_or_pos r with rfl | hpos
  · exact Nat.zero_le _
  rw [hi.lastSent]
  rcases hr r hpos le_rfl with ⟨e, he, rfl⟩ | ⟨snap, hs, hle⟩
  · exact hi.index_le _ he
  · exact hle.trans (hi.index_le _ hs)

/-- As long as the process lives, its machine goes forward. -/
theorem kvStep_lastSent (hf : Fed cfg s) (hk' : KvSim cfg g' t) (hs : kvStep cfg s a = some t)
    (p : ℕ) : (s.raft.servers p).epoch < (t.raft.servers p).epoch ∨
      (t.raft.servers p).epoch = (s.raft.servers p).epoch ∧
        lastSent (s.given p) ≤ lastSent (t.given p) := by
  obtain ⟨i, hi⟩ := hk'.inOrder_given p
  cases kvStep_server hs p with
  | fresh _ _ he => exact .inl (by omega)
  | keeps he hsent _ ht _ =>
    refine .inr ⟨he, (congrArg lastSent ?_).le⟩
    obtain ⟨rest, hrest⟩ := hsent
    rw [KvState.given, KvState.given, ht, ← hrest, List.take_append_of_le_length (hf.taken p)]
  | given hraft _ _ ht _ _ =>
    refine .inr ⟨by rw [hraft], lastSent_le_of_prefix hi ?_⟩
    rw [KvState.given, KvState.given, hraft, ht]
    exact List.take_prefix_take_left (Nat.le_succ _)

/-- The calls of `Get` and what `ReadIndex` knows of them: a call is pending in its own process
only, and if it was let through, the machine of its process has got as far as its index. -/
structure Queried (s : KvState) (gets : List GetCall) : Prop where
  numbered : Numbered s.reads
  below : ∀ x ∈ gets, x.call < s.reads.calls ∧ x.epoch ≤ (s.raft.servers x.server).epoch
  pending : ∀ p c, s.reads.Pending p c → ∀ x ∈ gets, x.call = c →
    x.server = p ∧ x.epoch = (s.raft.servers p).epoch
  results : ∀ r ∈ s.reads.results, r.ok = true → r.round = true ∧ ∀ x ∈ gets, x.call = r.call →
    (s.raft.servers x.server).epoch = x.epoch → r.index ≤ lastSent (s.given x.server)

theorem queried_init (cfg : KvConfig) : Queried cfg.init [] where
  numbered := ⟨by simp [KvConfig.init], by simp [KvConfig.init], by simp [KvConfig.init]⟩
  below := by simp
  pending := by simp
  results := by simp [KvConfig.init]

theorem Queried.kv (h : Queried s gets) (hf : Fed cfg s) (hk : KvSim cfg g s) (hk' : KvSim cfg g' t)
    (ha : ReliableDrained s a) (hpoll : a.Polled s) (hs : kvStep cfg s a = some t) :
    Queried t gets := by
  have hmoves := kvStep_lastSent hf hk' hs
  have hepoch : ∀ p, (s.raft.servers p).epoch ≤ (t.raft.servers p).epoch := by
    intro p
    rcases hmoves p with hlt | ⟨he, -⟩ <;> omega
  -- what the machine had been given when a call was let through, it has been given
  have hold : ∀ r x, x ∈ gets →
      ((s.raft.servers x.server).epoch = x.epoch → r ≤ lastSent (s.given x.server)) →
      (t.raft.servers x.server).epoch = x.epoch → r ≤ lastSent (t.given x.server) := by
    intro r x hx hle he
    have := (h.below x hx).2
    rcases hmoves x.server with hlt | ⟨hsame, hlast⟩
    · omega
    · exact (hle (by omega)).trans hlast
  rcases kvStep_reads hs with heq | ⟨b, hb, -, hba⟩
  · have hraft : t.raft = s.raft := congrArg ReadState.base heq
    refine ⟨heq ▸ h.numbered, ?_, ?_, ?_⟩
    · rw [heq, hraft]
      exact h.below
    · rw [heq, hraft]
      exact h.pending
    · intro r hr hok
      obtain ⟨h1, h2⟩ := h.results r (heq ▸ hr) hok
      exact ⟨h1, fun x hx hc => hold _ x hx (h2 x hx hc)⟩
  · refine ⟨h.numbered.step hb, fun x hx => ?_, fun p c hp x hx hc => ?_, fun r hr hok => ?_⟩
    · obtain ⟨h1, h2⟩ := h.below x hx
      exact ⟨h1.trans_le (readStep_calls hb), h2.trans (hepoch _)⟩
    · rcases readStep_pending hb hp with ⟨hp, he⟩ | ⟨-, rfl⟩
      · obtain ⟨h1, h2⟩ := h.pending p c hp x hx hc
        exact ⟨h1, h2.trans he.symm⟩
      · have := (h.below x hx).1
        omega
    · rcases readStep_granted hb hr hok with hr | ⟨p, j, rfl⟩ | ⟨p, n, rfl, hp, hph, hn, hle, -⟩
      · obtain ⟨h1, h2⟩ := h.results r hr hok
        exact ⟨h1, fun x hx hc => hold _ x hx (h2 x hx hc)⟩
      · rcases hba with rfl | ⟨y, hy⟩
        · exact hpoll.elim
        · cases hy
      · obtain rfl : a = .reads (.applied p) := by
          rcases hba with rfl | ⟨y, hy⟩
          · rfl
          · cases hy
        refine ⟨?_, fun x hx hc => hold _ x hx fun _ => ?_⟩
        · simpa only [KvAction.Polled, hph] using hpoll
        · obtain ⟨rfl, -⟩ := h.pending p _ hp x hx hc
          have haw : s.awaited (.reads (.applied x.server)) = some (x.server, r.index) := by
            simp [KvState.awaited, ReadState.awaited, hph]
          exact hk.applied_le (hk.sends.appliedThrough hn hle (ha.2 _ _ haw))

theorem kvStep_readCall {held : Bool} (hs : kvStep cfg s (.reads (.call p held)) = some t) :
    readStep cfg.raft s.reads (.call p held) = some t.reads ∧ t.raft = s.raft ∧
      t.reads.calls = s.reads.calls + 1 ∧ t.reads.results = s.reads.results := by
  simp only [kvStep] at hs
  split at hs
  · cases hs
  obtain ⟨u, hu, rfl⟩ := Option.map_eq_some_iff.mp hs
  refine ⟨hu, ?_⟩
  simp only [readStep, Option.bind_eq_bind, Option.bind_eq_some_iff] at hu
  obtain ⟨n, -, hu⟩ := hu
  obtain rfl := Option.some.inj hu
  exact ⟨rfl, rfl, rfl⟩

theorem Queried.get (h : Queried s gets) (h' : Queried t gets) {held : Bool} {key : Bytes}
    (hs : kvStep cfg s (.reads (.call p held)) = some t) :
    Queried t (gets ++ [⟨p, (s.raft.servers p).epoch, key, s.reads.calls, .asking, 0⟩]) := by
  obtain ⟨hr, hraft, hcalls, hres⟩ := kvStep_readCall hs
  refine ⟨h'.numbered, fun x hx => ?_, fun q c hp x hx hc => ?_, fun r hr hok => ?_⟩
  · rcases List.mem_append.mp hx with hx | hx
    · exact h'.below x hx
    · obtain rfl := List.mem_singleton.mp hx
      exact ⟨by simp [hcalls], by rw [hraft]⟩
  · rcases List.mem_append.mp hx with hx | hx
    · exact h'.pending q c hp x hx hc
    obtain rfl := List.mem_singleton.mp hx
    rcases readStep_pending hr hp with ⟨hold, -⟩ | ⟨⟨_, heq⟩, -⟩
    · -- its number is new
      have : c < s.reads.calls := hold.elim (h.numbered.queued q c) (h.numbered.batched q c)
      exact absurd hc this.ne'
    · obtain ⟨rfl, -⟩ := ReadAction.call.inj heq
      exact ⟨rfl, by rw [hraft]⟩
  · obtain ⟨h1, h2⟩ := h'.results r hr hok
    refine ⟨h1, fun x hx hc => ?_⟩
    rcases List.mem_append.mp hx with hx | hx
    · exact h2 x hx hc
    · obtain rfl := List.mem_singleton.mp hx
      have := h.numbered.returned r (hres ▸ hr) h1
      exact absurd hc this.ne'

theorem Queried.set (h : Queried s gets) {k : ℕ} {x x' : GetCall} (hx : gets[k]? = some x)
    (hserver : x'.server = x.server) (hepoch : x'.epoch = x.epoch) (hcall : x'.call = x.call) :
    Queried s (gets.set k x') := by
  have hmem := List.mem_of_getElem? hx
  have hset : ∀ {P : GetCall → Prop}, (∀ y ∈ gets, P y) → (P x → P x') →
      ∀ y ∈ gets.set k x', P y := by
    intro P hP hx' y hy
    rcases List.mem_or_eq_of_mem_set hy with hy | rfl
    · exact hP y hy
    · exact hx' (hP x hmem)
  refine ⟨h.numbered, hset h.below ?_, fun p c hp => hset (h.pending p c hp) ?_,
    fun r hr hok => ⟨(h.results r hr hok).1, hset (h.results r hr hok).2 ?_⟩⟩
  · rw [hserver, hepoch, hcall]
    exact id
  · rw [hserver, hepoch, hcall]
    exact id
  · rw [hserver, hepoch, hcall]
    exact id

end Reads

end KMC
