import KillMyCluster.Election.Pending

/-! A majority on its own. Whatever state the cluster is in, all servers may lose power; once those
of a majority are back, the one with the best log learns the highest term among them and is
elected, and the others are left in terms that are not above its own. -/

namespace KMC

open Trace

variable {cfg : Config} {S : Finset ℕ} {s t u : State} {p q : ℕ} {n m : Node}

/-- No persister call fails, and nobody outside `S` is started. -/
def Action.Spares (S : Finset ℕ) (a : Action) : Prop :=
  a.Reliable ∧ ∀ q, a = .restart q → q ∈ S

def Alone (cfg : Config) (S : Finset ℕ) (s t : State) : Prop :=
  Reaches (step cfg) (fun _ a => a.Spares S) s t

theorem Leadsto.alone (h : Leadsto cfg s t) (S : Finset ℕ) : Alone cfg S s t := by
  obtain ⟨acts, h⟩ := h
  refine ⟨acts, h.imp fun _ a ha => ⟨ha.2.1, ?_⟩⟩
  rintro q rfl
  exact ha.1.elim

theorem Alone.reliable (h : Alone cfg S s t) :
    Reaches (step cfg) (fun _ a => a.Reliable) s t := by
  obtain ⟨acts, h⟩ := h
  exact ⟨acts, h.imp fun _ _ ha => ha.1⟩

/-! ## Down and up again -/

theorem crash_all (cfg : Config) (S : Finset ℕ) (l : List ℕ) (s : State) :
    ∃ t, Alone cfg S s t ∧ (∀ p ∈ l, t.node p = none) ∧ ∀ p, s.node p = none → t.node p = none := by
  induction l with
  | nil => exact ⟨s, .refl s, by simp, fun _ h => h⟩
  | cons q l ih =>
    obtain ⟨t, hst, hl, hdown⟩ := ih
    cases hq : t.node q with
    | none => exact ⟨t, hst, List.forall_mem_cons.mpr ⟨hq, hl⟩, hdown⟩
    | some n =>
      have hs : step cfg t (.crash q) =
          some (t.setServer q ((t.servers q).die (t.servers q).disk)) := by
        simp [step, hq]
      have hdead : ∀ p, p = q ∨ t.node p = none →
          (t.setServer q ((t.servers q).die (t.servers q).disk)).node p = none := by
        intro p hp
        by_cases hpq : p = q
        · simp [hpq, State.node, State.setServer, Server.die]
        · simpa [State.node, State.setServer, hpq] using hp.resolve_left hpq
      refine ⟨_, Reaches.snoc hst hs ⟨rfl, fun _ => by simp⟩,
        List.forall_mem_cons.mpr ⟨hdead q (.inl rfl), fun p hp => hdead p (.inr (hl p hp))⟩,
        fun p hp => hdead p (.inr (hdown p hp))⟩

theorem restart_all {l : List ℕ} (hl : ∀ p ∈ l, p ∈ S ∧ p ∈ cfg.ids) (hs : ∀ p, s.node p = none) :
    ∃ t, Alone cfg S s t ∧ (∀ p ∈ l, ∃ m, t.node p = some m ∧ m.stopped = false ∧
      m.role = .follower) ∧ ∀ p ∉ l, t.node p = none := by
  induction l with
  | nil => exact ⟨s, .refl s, by simp, fun p _ => hs p⟩
  | cons q l ih =>
    obtain ⟨hq, hl⟩ := List.forall_mem_cons.mp hl
    obtain ⟨t, hst, hup, hdown⟩ := ih hl
    by_cases hql : q ∈ l
    · refine ⟨t, hst, List.forall_mem_cons.mpr ⟨hup q hql, hup⟩, fun p hp => hdown p ?_⟩
      exact (List.ne_and_not_mem_of_not_mem_cons hp).2
    · set fresh := newNode q (cfg.peers q) (cfg.retain q) (openPersister (t.servers q).disk)
      have hstep : step cfg t (.restart q) = some (t.setServer q
          { proc := some fresh, disk := (t.servers q).disk, epoch := (t.servers q).epoch + 1
            batch := [], sent := [] }) := by
        simp [step, hq.2, hdown q hql, fresh]
      refine ⟨_, Reaches.snoc hst hstep ⟨rfl, fun x hx => Action.restart.inj hx ▸ hq.1⟩,
        List.forall_mem_cons.mpr ⟨⟨fresh, by simp [State.node, State.setServer], rfl, rfl⟩,
          fun p hp => ?_⟩, fun p hp => ?_⟩
      · have hpq : p ≠ q := fun h => hql (h ▸ hp)
        simpa [State.node, State.setServer, hpq] using hup p hp
      · obtain ⟨hpq, hpl⟩ := List.ne_and_not_mem_of_not_mem_cons hp
        simpa [State.node, State.setServer, hpq] using hdown p hpl

/-- After a power failure the servers of `S` come back as followers. -/
theorem come_back (hen : Enrolled cfg s) (hS : S ⊆ cfg.ids.toFinset) :
    ∃ t, Alone cfg S s t ∧ Present S t ∧ ∀ q m, t.node q = some m → m.role = .follower := by
  obtain ⟨u, hsu, hids, hdown⟩ := crash_all cfg S cfg.ids s
  have hall : ∀ p, u.node p = none := by
    intro p
    by_cases hp : p ∈ cfg.ids
    · exact hids p hp
    · refine hdown p ?_
      cases hn : s.node p with
      | none => rfl
      | some n => exact absurd (hen p n hn).1 hp
  have hmembers : ∀ p ∈ S.toList, p ∈ S ∧ p ∈ cfg.ids := fun p hp =>
    ⟨Finset.mem_toList.mp hp, List.mem_toFinset.mp (hS (Finset.mem_toList.mp hp))⟩
  obtain ⟨t, hut, hback, hrest⟩ := restart_all hmembers hall
  refine ⟨t, hsu.trans hut, ⟨fun q hq => ?_, fun q hq => hrest q (by simpa using hq)⟩,
    fun q m hm => ?_⟩
  · obtain ⟨m, hm, hst, -⟩ := hback q (Finset.mem_toList.mpr hq)
    exact ⟨m, hm, hst⟩
  · by_cases hq : q ∈ S.toList
    · obtain ⟨m', hm', -, hrole⟩ := hback q hq
      exact Option.mem_unique hm hm' ▸ hrole
    · rw [hrest q hq] at hm
      cases hm

/-- Followers of a majority elect the one with the best log. -/
theorem Present.elects (hI : Requested cfg s) (hmaj : cfg.ids.length < 2 * S.card)
    (h : Present S s) (hrole : ∀ q m, s.node q = some m → m.role = .follower) :
    ∃ t p T, Leadsto cfg s t ∧ p ∈ S ∧ Led S T p t := by
  obtain ⟨p, hp, n, hn, hcov⟩ := best_log h.members (Finset.card_pos.mp (by omega))
  have hfol := hrole p n hn
  obtain ⟨t, T, hst, hled, -⟩ := h.elect hI hn (Finset.Subset.refl S) hmaj hcov (by simp [hfol])
    (by simp [hfol])
  exact ⟨t, p, T, hst, hp, hled⟩

end KMC
