import KillMyCluster.Raft.Leads
import KillMyCluster.Read.Model

/-! Whose lease it is. `serveReadBatch` sets the lease once a round of heartbeats has been
confirmed, whatever the node has become in the meantime. Everything that ends a leadership clears
the lease, so it is the lease of the term that was confirmed unless the node leads another term by
then. -/

namespace KMC

open Trace

variable {cfg : Config} {s t : ReadState} {a : ReadAction} {acts : List ReadAction} {p : ℕ}
  {n : Node}

/-- In the course of `acts` the process number `epoch` of server `p` has finished a round of
heartbeats for `term` with a majority of acknowledgements. -/
def Confirmed (cfg : Config) (acts : List ReadAction) (p epoch term : ℕ) : Prop :=
  ∃ before after u n i acks beats, acts = before ++ .confirmed p :: after ∧
    exec (readStep cfg) { base := cfg.init } before = some u ∧ u.base.node p = some n ∧
    (u.base.servers p).epoch = epoch ∧ (u.readers p).phase = .polling term i acks beats ∧
    n.majority ≤ acks

theorem Confirmed.append {epoch term : ℕ} (h : Confirmed cfg acts p epoch term)
    (more : List ReadAction) : Confirmed cfg (acts ++ more) p epoch term := by
  obtain ⟨before, after, u, n, i, acks, beats, rfl, hrest⟩ := h
  exact ⟨before, after ++ more, u, n, i, acks, beats, by simp, hrest⟩

/-- When a confirmed round takes effect, the node does not lead another term than the one the
round was for. -/
def ReadAction.OnTerm (s : ReadState) : ReadAction → Prop
  | .confirmed p =>
    match s.base.node p, (s.readers p).phase with
    | some n, .polling term _ _ _ => n.role = .leader → n.currentTerm = term
    | _, _ => True
  | _ => True

/-- A lease is set by a confirmed round only. -/
theorem readStep_lease (h : readStep cfg s a = some t) (ha : a.act = some (.lease p)) :
    a = .confirmed p ∧ ∃ n term i acks beats, s.base.node p = some n ∧
      (s.readers p).phase = .polling term i acks beats ∧ n.majority ≤ acks := by
  cases a with
  | cluster b =>
    obtain rfl := Option.some.inj ha
    simp [readStep, Action.ofReader] at h
  | confirmed q =>
    obtain ⟨rfl⟩ : q = p := by simpa [ReadAction.act] using ha
    refine ⟨rfl, ?_⟩
    simp only [readStep, Option.bind_eq_bind, Option.bind_eq_some_iff] at h
    obtain ⟨n, hn, h⟩ := h
    split at h
    · rename_i hph
      split at h
      · rename_i hmaj
        exact ⟨n, _, _, _, _, hn, hph, hmaj⟩
      · cases h
    · cases h
  | _ => simp [ReadAction.act] at ha

/-- A leader whose lease is set has confirmed the term it leads. -/
theorem lease_confirmed
    (h : Run (readStep cfg) (fun s a => a.OnTerm s) { base := cfg.init } acts s)
    (hn : s.base.node p = some n) (hl : n.role = .leader) (hlease : n.readLease = true) :
    Confirmed cfg acts p (s.base.servers p).epoch n.currentTerm := by
  induction h generalizing n with
  | nil => simp [Config.init, State.node] at hn
  | @snoc acts u t a hrun ha hs ih =>
    rcases readStep_base hs with heq | ⟨b, hb, hstep⟩
    · rw [heq] at hn ⊢
      exact (ih hn hl hlease).append _
    cases step_lineage hstep hn with
    | @acts m io e hm hsec _ hep he =>
      subst he
      rw [hep]
      rcases hsec.turn with hturn | ⟨rfl, hnode⟩
      · cases hturn with
        | keeps h1 h2 h3 =>
          rw [h2]
          exact (ih hm (h1 ▸ hl) (h3 ▸ hlease)).append _
        | follows h1 _ =>
          rw [h1] at hl
          cases hl
        | stands h1 _ =>
          rw [h1] at hl
          cases hl
        | leads _ h2 _ =>
          rw [h2] at hlease
          cases hlease
      · -- the lease is set in this very step
        obtain ⟨rfl, m', term, i, acks, beats, hm', hph, hmaj⟩ := readStep_lease hs hb
        obtain rfl := Option.mem_unique hm hm'
        simp only [ReadAction.OnTerm, hm', hph] at ha
        rw [hnode] at hl ⊢
        have hterm := ha hl
        exact ⟨acts, [], u, m, i, acks, beats, rfl, hrun.exec_eq, hm', rfl, hterm ▸ hph, hmaj⟩
    | rests hm hep he =>
      have hih := ih hm
      subst he
      rw [hep]
      exact (hih hl hlease).append _
    | starts _ _ _ he =>
      subst he
      cases hl

instance (s : ReadState) (a : ReadAction) : Decidable (a.OnTerm s) := by
  unfold ReadAction.OnTerm
  split
  · split <;> infer_instance
  · infer_instance

def pollPair : List ReadAction :=
  electFirst.map .cluster ++ [.call 1 false, .collect 1 0 false, .confirm 1, .beat 1 2,
    .cluster (.deliver 2 false {}), .ack 1 2 0 {}]

theorem lease_confirmed_pair : ∃ s n,
    Run (readStep .pair) (fun s a => a.OnTerm s) { base := Config.pair.init }
      (pollPair ++ [.confirmed 1]) s ∧
    s.base.node 1 = some n ∧ n.role = .leader ∧ n.readLease = true ∧ n.currentTerm = 1 ∧
    Confirmed .pair (pollPair ++ [.confirmed 1]) 1 (s.base.servers 1).epoch 1 := by
  have hs := Run.get (readStep .pair) (fun s a => a.OnTerm s) { base := Config.pair.init }
    (pollPair ++ [.confirmed 1]) (by decide) rfl
  exact ⟨_, _, hs, rfl, rfl, rfl, rfl, lease_confirmed (p := 1) hs rfl rfl rfl⟩

/-- Before the round takes effect, node 1 steps down and is elected again in term 2. -/
def reelected : List ReadAction :=
  pollPair ++ [Action.stepDown 1, .tick 1 {}, .deliver 3 false {}, .respond 3 0 {},
    .deliver 4 false {}, .respond 4 0 {}].map .cluster

/-- The lease of term 2 rests on a round of term 1. -/
theorem lease_of_earlier_term : ∃ s n,
    Run (readStep .pair) (fun _ _ => True) { base := Config.pair.init }
      (reelected ++ [.confirmed 1]) s ∧
    s.base.node 1 = some n ∧ n.role = .leader ∧ n.readLease = true ∧ n.currentTerm = 2 ∧
    ∀ epoch, ¬ Confirmed .pair (reelected ++ [.confirmed 1]) 1 epoch 2 := by
  have hs := Run.get (readStep .pair) (fun _ _ => True) { base := Config.pair.init }
    (reelected ++ [.confirmed 1]) (.of_forall (fun _ _ _ => trivial) _) rfl
  refine ⟨_, _, hs, rfl, rfl, rfl, rfl, ?_⟩
  rintro epoch ⟨before, after, u, n, i, acks, beats, hacts, hu, -, -, hph, -⟩
  -- the round is confirmed once, in the last step
  have honce : ReadAction.confirmed 1 ∉ reelected := by simp [reelected, pollPair, electFirst]
  obtain rfl : reelected = before := by
    rcases List.append_eq_append_iff.mp hacts with ⟨l, rfl, hl⟩ | ⟨l, hl, hlast⟩
    · cases l with
      | nil => exact (List.append_nil _).symm
      | cons x l => simp at hl
    · cases l with
      | nil => simpa using hl
      | cons x l =>
        obtain ⟨rfl, -⟩ := List.cons.inj hlast
        exact absurd (by rw [hl]; simp) honce
  have hphase : ((exec (readStep .pair) { base := Config.pair.init } reelected).map
      fun u => (u.readers 1).phase) = some (.polling 1 0 2 [2]) := by decide
  rw [hu, Option.map_some, hph] at hphase
  cases hphase

end KMC
