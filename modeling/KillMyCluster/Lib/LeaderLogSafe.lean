import KillMyCluster.Lib.LeaderLogInv

/-! Every act of a node keeps the invariant, and the invariant gives leader
completeness: what a quorum acknowledged of a leader's own entries is in the log every
later leader starts from. Hence committed prefixes are prefixes of one another. -/

namespace LeaderLog

variable {N E : Type*} {tm : E → ℕ} {Q : QuorumSystem N} {g g' : State N E} {v c w : N}
  {t i T T' : ℕ} {l l' : List E} {e e' : E}

theorem inv_init : Inv tm Q (State.init : State N E) where
  cand_le := by simp [State.init]
  ballot_le := by simp [State.init]
  ballot_cand := by simp [State.init]
  elected := by simp [State.init]
  unled := by simp [State.init]
  built := by simp [State.init]
  good_log := by simp [State.init, Good]
  good_cand := by simp [State.init]
  good_ballot := by simp [State.init]
  ack_len := by simp [State.init]
  ack_term := by simp [State.init]
  ack_now := by simp [State.init]
  ack_kept := by simp [State.init, OwnAt]
  commit_own := by simp [State.init]

theorem Inv.cand_none (h : Inv tm Q g) (ht : g.term c < t) : g.cand t c = none := by
  by_contra hc
  obtain ⟨l, hl⟩ := Option.ne_none_iff_exists'.mp hc
  have := h.cand_le t c l hl
  omega

theorem Inv.ballot_none (h : Inv tm Q g) (ht : g.term c < t) : g.ballot t c = none := by
  by_contra hc
  obtain ⟨l, hl⟩ := Option.ne_none_iff_exists'.mp hc
  have := h.ballot_le t c l hl
  omega

structure SameAt (w : N) (g g' : State N E) : Prop where
  term : g'.term w = g.term w
  log : g'.log w = g.log w
  cand : ∀ t, g'.cand t w = g.cand t w
  ballot : ∀ t, g'.ballot t w = g.ballot t w
  leader : ∀ t, g'.leader t = some w ↔ g.leader t = some w
  tlog : ∀ t, g.leader t = some w → g'.tlog t = g.tlog t ∧ g'.commit t = g.commit t

theorem SameAt.refl (w : N) (g : State N E) : SameAt w g g :=
  ⟨rfl, rfl, fun _ => rfl, fun _ => rfl, fun _ => Iff.rfl, fun _ _ => ⟨rfl, rfl⟩⟩

theorem SameAt.trans {a b c : State N E} (h₁ : SameAt w a b) (h₂ : SameAt w b c) :
    SameAt w a c where
  term := h₂.term.trans h₁.term
  log := h₂.log.trans h₁.log
  cand t := (h₂.cand t).trans (h₁.cand t)
  ballot t := (h₂.ballot t).trans (h₁.ballot t)
  leader t := (h₂.leader t).trans (h₁.leader t)
  tlog t h := by
    obtain ⟨h3, h4⟩ := h₁.tlog t h
    obtain ⟨h5, h6⟩ := h₂.tlog t ((h₁.leader t).mpr h)
    exact ⟨h5.trans h3, h6.trans h4⟩

section Steps

variable [DecidableEq N]

/-- A table entry that was empty is the only one a `set2` changes. -/
theorem set2_keep {α : Type*} {f : ℕ → N → Option α} {t' : ℕ} {v' : N} {x y : α} (hn : f t v = none)
    (hy : f t' v' = some y) : set2 f t v (some x) t' v' = some y := by
  rw [set2_ne _ _ (by rintro ⟨rfl, rfl⟩; rw [hn] at hy; cases hy), hy]

theorem set2_cases {α : Type*} {f : ℕ → N → Option α} {t' : ℕ} {v' : N} {x y : α}
    (h : set2 f t v (some x) t' v' = some y) : f t' v' = some y ∨ t' = t ∧ v' = v ∧ y = x := by
  by_cases hu : t' = t ∧ v' = v
  · obtain ⟨rfl, rfl⟩ := hu
    rw [set2_self] at h
    exact Or.inr ⟨rfl, rfl, (Option.some.inj h).symm⟩
  · exact Or.inl (by rwa [set2_ne _ _ hu] at h)

theorem update_le_self {f : N → ℕ} (h : f v ≤ t) (w : N) : f w ≤ Function.update f v t w := by
  by_cases hw : w = v
  · subst hw; simpa using h
  · simp [hw]

theorem Inv.step_grows (h : Inv tm Q g) (hs : Step tm Q v g g') : Grows tm g g' := by
  cases hs with
  | advance t ht =>
    exact { Grows.refl g with term := update_le_self ht }
  | campaign t ht =>
    exact { Grows.refl g with
      term := update_le_self ht.le
      cand := fun _ _ _ hc => set2_keep (h.cand_none ht) hc
      ballot := fun _ _ _ hb => set2_keep (h.ballot_none ht) hb }
  | vote t c lc ht hb hc hu =>
    exact { Grows.refl g with ballot := fun _ _ _ hb' => set2_keep hb hb' }
  | elect t ht hl hc hq =>
    have hne : ∀ {u : ℕ}, g.leader u ≠ none → u ≠ t := fun hu he => hu (he ▸ hl)
    have hr : Grows tm g g := Grows.refl g
    exact { hr with
      leader := fun u c hu => by
        have := hne (u := u) (by simp [hu])
        simpa [this] using hu
      ilog := fun u hu => by simp [hne hu]
      tlog := fun u hu => ⟨[], by simp [hne hu], by simp⟩ }
  | append t es ht hl hlog hes =>
    have hr : Grows tm g g := Grows.refl g
    refine { hr with tlog := fun u hu => ?_ }
    by_cases hut : u = t
    · subst hut; exact ⟨es, by simp, hes⟩
    · exact ⟨[], by simp [hut], by simp⟩
  | accept t c l ht hl hne hpre hkeep => exact { Grows.refl g with }
  | ack t i ht hl hi hpre =>
    refine { Grows.refl g with ack := fun u w => ?_ }
    by_cases hu : u = t ∧ w = v
    · obtain ⟨rfl, rfl⟩ := hu
      exact (le_max_right _ _).trans (set2_self g.ack u w _).ge
    · exact (set2_ne _ _ hu).ge
  | commit t i hl hi hown hq =>
    refine { Grows.refl g with commit := fun u => ?_ }
    by_cases hu : u = t
    · subst hu; simpa using hi
    · simp [hu]

/-- Only acts in its current term change what a node acknowledged. -/
theorem Step.ack_eq (hs : Step tm Q v g g') (ht : g.term w ≠ t) : g'.ack t w = g.ack t w := by
  cases hs with
  | ack t' i ht' hl hi hpre =>
    exact set2_ne _ _ (by rintro ⟨rfl, rfl⟩; exact ht ht')
  | _ => rfl

theorem Inv.kept_step (h : Inv tm Q g) (hs : Step tm Q v g g') (hb : g.ballot t w = some (c, l))
    (hk : Kept tm g t w l) : Kept tm g' t w l := by
  refine h.kept_mono (h.step_grows hs) (fun u hu => hs.ack_eq ?_) hk
  have := h.ballot_le t w _ hb
  omega

/-- What stood of the elections before a step stands after it. -/
theorem Inv.elected_step (h : Inv tm Q g) (hs : Step tm Q v g g') (hl : g.leader t = some c) :
    g'.cand t c = some (g'.ilog t) ∧
      Q.IsQuorum {w | ∃ l, g'.ballot t w = some (c, l) ∧ Kept tm g' t w l} := by
  have hg := h.step_grows hs
  obtain ⟨hc, hq⟩ := h.elected t c hl
  refine ⟨by rw [hg.ilog t (by simp [hl])]; exact hg.cand t c _ hc, Q.mono ?_ hq⟩
  rintro w ⟨l, hb, hk⟩
  exact ⟨l, hg.ballot t w _ hb, h.kept_step hs hb hk⟩

theorem Inv.commit_step (h : Inv tm Q g) (hs : Step tm Q v g g') (he : g'.commit t = g.commit t)
    (hc : 0 < g'.commit t) :
    OwnAt tm g' t (g'.commit t) ∧ Q.IsQuorum {w | g'.commit t ≤ g'.ack t w} := by
  have hg := h.step_grows hs
  rw [he] at hc ⊢
  obtain ⟨ho, hq⟩ := h.commit_own t hc
  exact ⟨h.own_mono hg ho, Q.mono (fun w hw => le_trans hw (hg.ack t w)) hq⟩

/-- The fate of an acknowledged prefix at a node whose log a step leaves alone. -/
theorem Inv.ack_kept_step (h : Inv tm Q g) (hs : Step tm Q v g g') (ha : g'.ack t w = g.ack t w)
    (hlog : g.log w <+: g'.log w) (hi : i ≤ g'.ack t w) (ho : OwnAt tm g' t i) :
    (g'.tlog t).take i <+: g'.log w ∨ ∃ u, t < u ∧ u ≤ g'.term w ∧ Overruled g' t i u := by
  have hg := h.step_grows hs
  rw [ha] at hi
  have hlen := hi.trans (h.ack_len t w)
  have ho' := h.own_back hg hlen ho
  rcases h.ack_kept t w i hi ho' with hp | ⟨u, h1, h2, hov⟩
  · left; rw [h.take_tlog hg hlen]; exact hp.trans hlog
  · exact Or.inr ⟨u, h1, h2.trans (hg.term w), h.overruled_mono hg (by omega) ho' hov⟩

theorem Inv.advance (h : Inv tm Q g) (ht : g.term v ≤ t) :
    Inv tm Q { g with term := Function.update g.term v t } := by
  have hs : Step tm Q v g { g with term := Function.update g.term v t } := .advance t ht
  have hm := update_le_self (f := g.term) ht
  refine { h with cand_le := ?_, ballot_le := ?_, good_log := ?_, ack_term := ?_,
                  ack_now := ?_, ack_kept := ?_ }
  · exact fun u c l hc => (h.cand_le u c l hc).trans (hm c)
  · exact fun u w b hb => (h.ballot_le u w b hb).trans (hm w)
  · exact fun w => ⟨(h.good_log w).1, fun e he => ((h.good_log w).2 e he).trans (hm w)⟩
  · exact fun u w ha => (h.ack_term u w ha).trans (hm w)
  · intro u w hw
    simp only at hw ⊢
    by_cases hwv : w = v
    · subst hwv
      simp only [Function.update_self] at hw
      rcases Nat.eq_zero_or_pos (g.ack u w) with h0 | hp
      · simp [h0]
      · have := h.ack_term u w hp
        exact h.ack_now u w (by omega)
    · simp only [Function.update_of_ne hwv] at hw
      exact h.ack_now u w hw
  · exact fun u w i hi ho => h.ack_kept_step hs rfl (List.prefix_refl _) hi ho

theorem Inv.campaign (h : Inv tm Q g) (ht : g.term v < t) : Inv tm Q { g with
      term := Function.update g.term v t
      cand := set2 g.cand t v (some (g.log v))
      ballot := set2 g.ballot t v (some (v, g.log v)) } := by
  set g₁ : State N E := { g with
    term := Function.update g.term v t
    cand := set2 g.cand t v (some (g.log v))
    ballot := set2 g.ballot t v (some (v, g.log v)) } with hg₁
  have hs : Step tm Q v g g₁ := .campaign t ht
  have hm := update_le_self (f := g.term) ht.le
  have hadv := h.advance (v := v) ht.le
  refine { hadv with cand_le := ?_, ballot_le := ?_, ballot_cand := ?_, elected := ?_,
                     unled := ?_, good_cand := ?_, good_ballot := ?_ }
  · intro u c l hc
    rcases set2_cases hc with hc | ⟨rfl, rfl, -⟩
    · exact (h.cand_le u c l hc).trans (hm c)
    · simp [hg₁]
  · intro u w b hb
    rcases set2_cases hb with hb | ⟨rfl, rfl, -⟩
    · exact (h.ballot_le u w b hb).trans (hm w)
    · simp [hg₁]
  · intro u w c l hb
    rcases set2_cases hb with hb | ⟨rfl, rfl, he⟩
    · obtain ⟨lc, hc, hu⟩ := h.ballot_cand u w c l hb
      exact ⟨lc, (h.step_grows hs).cand u c lc hc, hu⟩
    · obtain ⟨rfl, rfl⟩ := Prod.mk.inj he
      exact ⟨g.log c, set2_self _ _ _ _, Or.inr ⟨rfl, le_rfl⟩⟩
  · exact fun u c hl => h.elected_step hs hl
  · intro u hl
    obtain ⟨h1, h2, h3, h4⟩ := h.unled u hl
    refine ⟨h1, h2, h3, fun w c l hb => ?_⟩
    rcases set2_cases hb with hb | ⟨rfl, rfl, he⟩
    · exact h.kept_step hs hb (h4 w c l hb)
    · -- the candidate's own vote: no leader of its new term can have overruled it
      obtain ⟨rfl, rfl⟩ := Prod.mk.inj he
      intro u' i hu' hi ho
      rcases h.ack_kept u' c i hi ho with hp | ⟨x, h5, h6, hov⟩
      · exact Or.inl hp
      · exact Or.inr ⟨x, h5, by omega, hov⟩
  · intro u c l hc
    rcases set2_cases hc with hc | ⟨rfl, rfl, rfl⟩
    · exact h.good_cand u c l hc
    · exact ⟨(h.good_log c).1, fun e he => ((h.good_log c).2 e he).trans_lt ht⟩
  · intro u w c l hb
    rcases set2_cases hb with hb | ⟨rfl, rfl, he⟩
    · exact h.good_ballot u w c l hb
    · obtain ⟨rfl, rfl⟩ := Prod.mk.inj he
      exact (h.good_log c).1

theorem Inv.vote (h : Inv tm Q g) {lc : List E} (ht : g.term v = t) (hb : g.ballot t v = none)
    (hc : g.cand t c = some lc) (hu : UpToDate tm lc (g.log v)) :
    Inv tm Q { g with ballot := set2 g.ballot t v (some (c, g.log v)) } := by
  have hs : Step tm Q v g { g with ballot := set2 g.ballot t v (some (c, g.log v)) } :=
    .vote t c lc ht hb hc hu
  refine { h with ballot_le := ?_, ballot_cand := ?_, elected := ?_, unled := ?_,
                  good_ballot := ?_ }
  · intro u w b hb'
    rcases set2_cases hb' with hb' | ⟨rfl, rfl, -⟩
    · exact h.ballot_le u w b hb'
    · exact ht.ge
  · intro u w d l hb'
    rcases set2_cases hb' with hb' | ⟨rfl, rfl, he⟩
    · exact h.ballot_cand u w d l hb'
    · obtain ⟨rfl, rfl⟩ := Prod.mk.inj he
      exact ⟨lc, hc, hu⟩
  · exact fun u d hl => h.elected_step hs hl
  · intro u hl
    obtain ⟨h1, h2, h3, h4⟩ := h.unled u hl
    refine ⟨h1, h2, h3, fun w d l hb' => ?_⟩
    rcases set2_cases hb' with hb' | ⟨rfl, rfl, he⟩
    · exact h.kept_step hs hb' (h4 w d l hb')
    · -- the term has no leader yet, so whoever overruled the voter came before it
      obtain ⟨rfl, rfl⟩ := Prod.mk.inj he
      intro u' i hu' hi ho
      rcases h.ack_kept u' w i hi ho with hp | ⟨x, h5, h6, hov⟩
      · exact Or.inl hp
      · have hx : x ≠ u := fun hx => hov.1 (hx ▸ hl)
        exact Or.inr ⟨x, h5, by omega, hov⟩
  · intro u w d l hb'
    rcases set2_cases hb' with hb' | ⟨rfl, rfl, he⟩
    · exact h.good_ballot u w d l hb'
    · obtain ⟨rfl, rfl⟩ := Prod.mk.inj he
      exact (h.good_log w).1

theorem Inv.elect (h : Inv tm Q g) (ht : g.term v = t) (hl : g.leader t = none)
    (hc : g.cand t v = some (g.log v)) (hq : Q.IsQuorum {u | ∃ l, g.ballot t u = some (v, l)}) :
    Inv tm Q { g with
      leader := Function.update g.leader t (some v)
      ilog := Function.update g.ilog t (g.log v)
      tlog := Function.update g.tlog t (g.log v) } := by
  set g₁ : State N E := { g with
    leader := Function.update g.leader t (some v)
    ilog := Function.update g.ilog t (g.log v)
    tlog := Function.update g.tlog t (g.log v) } with hg₁
  have hs : Step tm Q v g g₁ := .elect t ht hl hc hq
  have hg := h.step_grows hs
  obtain ⟨-, h0, h1, h2⟩ := h.unled t hl
  have htlog : ∀ {u}, u ≠ t → g₁.tlog u = g.tlog u := fun hu => by simp [hg₁, hu]
  refine { h with elected := ?_, unled := ?_, built := ?_, good_log := ?_, good_cand := ?_,
                  good_ballot := ?_, ack_len := ?_, ack_now := ?_, ack_kept := ?_,
                  commit_own := ?_ }
  · intro u c hu
    by_cases hut : u = t
    · subst hut
      obtain rfl : v = c := by simpa [hg₁] using hu
      refine ⟨by simpa [hg₁] using hc, Q.mono ?_ hq⟩
      rintro w ⟨l, hb⟩
      exact ⟨l, hb, h.kept_step hs hb (h2 w v l hb)⟩
    · exact h.elected_step hs (by simpa [hg₁, hut] using hu)
  · intro u hu
    have hut : u ≠ t := by rintro rfl; simp [hg₁] at hu
    obtain ⟨h3, h4, h5, h6⟩ := h.unled u (by simpa [hg₁, hut] using hu)
    exact ⟨by rw [htlog hut, h3], h4, h5, fun w c l hb => h.kept_step hs hb (h6 w c l hb)⟩
  · intro u hu
    by_cases hut : u = t
    · subst hut; exact ⟨[], by simp [hg₁], by simp⟩
    · simpa [hg₁, hut] using h.built u (by simpa [hg₁, hut] using hu)
  · exact fun w => ⟨h.good_mono hg (h.good_log w).1, (h.good_log w).2⟩
  · exact fun u c l hc' => ⟨h.good_mono hg (h.good_cand u c l hc').1, (h.good_cand u c l hc').2⟩
  · exact fun u w c l hb => h.good_mono hg (h.good_ballot u w c l hb)
  · exact fun u w => (h.ack_len u w).trans (h.tlog_prefix hg u).length_le
  · intro u w hw
    change (g₁.tlog u).take (g.ack u w) <+: g.log w
    rw [h.take_tlog hg (h.ack_len u w)]
    exact h.ack_now u w hw
  · exact fun u w i hi ho => h.ack_kept_step hs rfl (List.prefix_refl _) hi ho
  · exact fun u hu => h.commit_step hs rfl hu

theorem Inv.append (h : Inv tm Q g) {es : List E} (ht : g.term v = t) (hl : g.leader t = some v)
    (hlog : g.tlog t = g.log v) (hes : ∀ e ∈ es, tm e = t) : Inv tm Q { g with
      log := Function.update g.log v (g.log v ++ es)
      tlog := Function.update g.tlog t (g.tlog t ++ es) } := by
  set g₁ : State N E := { g with
    log := Function.update g.log v (g.log v ++ es)
    tlog := Function.update g.tlog t (g.tlog t ++ es) } with hg₁
  have hs : Step tm Q v g g₁ := .append t es ht hl hlog hes
  have hg := h.step_grows hs
  have hpre : ∀ w, g.log w <+: g₁.log w := by
    intro w
    by_cases hw : w = v
    · subst hw; simp [hg₁]
    · simp [hg₁, hw]
  refine { h with elected := ?_, unled := ?_, built := ?_, good_log := ?_, good_cand := ?_,
                  good_ballot := ?_, ack_len := ?_, ack_now := ?_, ack_kept := ?_,
                  commit_own := ?_ }
  · exact fun u c hu => h.elected_step hs hu
  · intro u hu
    have hut : u ≠ t := by rintro rfl; rw [hl] at hu; cases hu
    obtain ⟨h3, h4, h5, h6⟩ := h.unled u hu
    exact ⟨by simp [hg₁, hut, h3], h4, h5, fun w c l hb => h.kept_step hs hb (h6 w c l hb)⟩
  · intro u hu
    obtain ⟨fs, hf, hfs⟩ := h.built u hu
    by_cases hut : u = t
    · subst hut
      refine ⟨fs ++ es, by simp [hg₁, hf], fun e he => ?_⟩
      rcases List.mem_append.mp he with he | he
      · exact hfs e he
      · exact hes e he
    · exact ⟨fs, by simpa [hg₁, hut] using hf, hfs⟩
  · intro w
    by_cases hw : w = v
    · subst hw
      -- the leader's log is its term's log, new entries included
      have hlog' : g₁.log w = g₁.tlog t := by simp [hg₁, hlog]
      constructor
      · intro k e he
        by_cases hk : k < (g.log w).length
        · have hold := (h.good_log w).1 k e
            (by simpa [hg₁, List.getElem?_append_left hk] using he)
          refine ⟨hold.1, ?_⟩
          rw [prefix_take (hpre w) (by omega)]
          exact hold.2.trans (h.tlog_prefix hg _)
        · have hte : tm e = t := by
            have he' : (g.log w ++ es)[k]? = some e := by simpa [hg₁] using he
            rw [List.getElem?_append_right (by omega)] at he'
            exact hes e (List.mem_of_getElem? he')
          refine ⟨hg.led (by rw [hte, hl]; simp), ?_⟩
          rw [hte, hlog']
          exact List.take_prefix _ _
      · intro e he
        have he' : e ∈ g.log w ++ es := by simpa [hg₁] using he
        rcases List.mem_append.mp he' with he' | he'
        · exact (h.good_log w).2 e he'
        · exact (hes e he').trans_le ht.ge
    · simpa [hg₁, hw] using And.intro (h.good_mono hg (h.good_log w).1) (h.good_log w).2
  · exact fun u c l hc' => ⟨h.good_mono hg (h.good_cand u c l hc').1, (h.good_cand u c l hc').2⟩
  · exact fun u w c l hb => h.good_mono hg (h.good_ballot u w c l hb)
  · exact fun u w => (h.ack_len u w).trans (h.tlog_prefix hg u).length_le
  · intro u w hw
    change (g₁.tlog u).take (g.ack u w) <+: g₁.log w
    rw [h.take_tlog hg (h.ack_len u w)]
    exact (h.ack_now u w hw).trans (hpre w)
  · exact fun u w i hi ho => h.ack_kept_step hs rfl (hpre w) hi ho
  · exact fun u hu => h.commit_step hs rfl hu

theorem Inv.accept (h : Inv tm Q g) (ht : g.term v = t) (hl : g.leader t = some c) (hne : c ≠ v)
    (hpre : l <+: g.tlog t) (hkeep : ∀ q, q <+: g.log v → q <+: g.tlog t → q <+: l) :
    Inv tm Q { g with log := Function.update g.log v l } := by
  have hs : Step tm Q v g { g with log := Function.update g.log v l } :=
    .accept t c l ht hl hne hpre hkeep
  refine { h with good_log := ?_, ack_now := ?_, ack_kept := ?_ }
  · intro w
    by_cases hw : w = v
    · subst hw
      simp only [Function.update_self]
      exact ⟨(h.good_tlog t).shorter hpre, fun e he => (h.tlog_le e (hpre.subset he)).trans ht.ge⟩
    · simp only [Function.update_of_ne hw]
      exact h.good_log w
  · intro u w hw
    by_cases hwv : w = v
    · subst hwv
      obtain rfl : u = t := hw.symm.trans ht
      simp only [Function.update_self]
      exact hkeep _ (h.ack_now u w hw) (List.take_prefix _ _)
    · simpa [hwv] using h.ack_now u w hw
  · intro u w i hi ho
    by_cases hwv : w = v
    · subst hwv
      simp only [Function.update_self]
      rcases h.ack_kept u w i hi ho with hp | hov
      · -- the prefix survives where the new leader's log has it, and is overruled where not
        by_cases hpt : (g.tlog u).take i <+: g.tlog t
        · exact Or.inl (hkeep _ hp hpt)
        · have hut : u ≤ t := by
            have hpos : 0 < g.ack u w := lt_of_lt_of_le ho.1 hi
            exact (h.ack_term u w hpos).trans ht.le
          have hlt : u < t := lt_of_le_of_ne hut (by rintro rfl; exact hpt (List.take_prefix _ _))
          exact Or.inr ⟨t, hlt, ht.ge, by simp [hl], hpt⟩
      · exact Or.inr hov
    · simp only [Function.update_of_ne hwv]
      exact h.ack_kept u w i hi ho

theorem Inv.ack (h : Inv tm Q g) (ht : g.term v = t) (hl : g.leader t ≠ none)
    (hi : i ≤ (g.tlog t).length) (hpre : (g.tlog t).take i <+: g.log v) :
    Inv tm Q { g with ack := set2 g.ack t v (max i (g.ack t v)) } := by
  set g₁ : State N E := { g with ack := set2 g.ack t v (max i (g.ack t v)) } with hg₁
  have hs : Step tm Q v g g₁ := .ack t i ht hl hi hpre
  have hself : g₁.ack t v = max i (g.ack t v) := set2_self _ _ _ _
  have hoth : ∀ {u w}, ¬ (u = t ∧ w = v) → g₁.ack u w = g.ack u w := fun hu => set2_ne _ _ hu
  have hnow : (g.tlog t).take (max i (g.ack t v)) <+: g.log v := by
    rcases max_choice i (g.ack t v) with hm | hm <;> rw [hm]
    · exact hpre
    · exact h.ack_now t v ht
  refine { h with elected := ?_, unled := ?_, ack_len := ?_, ack_term := ?_, ack_now := ?_,
                  ack_kept := ?_, commit_own := ?_ }
  · exact fun u c hu => h.elected_step hs hu
  · intro u hu
    have hut : u ≠ t := by rintro rfl; exact hl hu
    obtain ⟨h3, h4, h5, h6⟩ := h.unled u hu
    refine ⟨h3, h4, fun w => ?_, fun w c l hb => h.kept_step hs hb (h6 w c l hb)⟩
    exact (hoth (fun hx => hut hx.1)).trans (h5 w)
  · intro u w
    by_cases hu : u = t ∧ w = v
    · obtain ⟨rfl, rfl⟩ := hu
      rw [hself]
      exact max_le hi (h.ack_len u w)
    · rw [hoth hu]; exact h.ack_len u w
  · intro u w ha
    by_cases hu : u = t ∧ w = v
    · obtain ⟨rfl, rfl⟩ := hu; exact ht.ge
    · rw [hoth hu] at ha; exact h.ack_term u w ha
  · intro u w hw
    by_cases hu : u = t ∧ w = v
    · obtain ⟨rfl, rfl⟩ := hu; rw [hself]; exact hnow
    · rw [hoth hu]; exact h.ack_now u w hw
  · intro u w j hj ho
    by_cases hu : u = t ∧ w = v
    · obtain ⟨rfl, rfl⟩ := hu
      rw [hself] at hj
      exact Or.inl ((List.take_prefix_take_left hj).trans hnow)
    · rw [hoth hu] at hj; exact h.ack_kept u w j hj ho
  · exact fun u hu => h.commit_step hs rfl hu

theorem Inv.commit (h : Inv tm Q g) (hl : g.leader t = some v) (hi : g.commit t ≤ i)
    (hown : OwnAt tm g t i) (hq : Q.IsQuorum {u | i ≤ g.ack t u}) :
    Inv tm Q { g with commit := Function.update g.commit t i } := by
  have hs : Step tm Q v g { g with commit := Function.update g.commit t i } :=
    .commit t i hl hi hown hq
  refine { h with unled := ?_, commit_own := ?_ }
  · intro u hu
    have hut : u ≠ t := by rintro rfl; rw [hl] at hu; cases hu
    obtain ⟨h3, h4, h5, h6⟩ := h.unled u hu
    exact ⟨h3, by simp [hut, h4], h5, h6⟩
  · intro u hu
    by_cases hut : u = t
    · subst hut
      simp only [Function.update_self]
      exact ⟨hown, hq⟩
    · exact h.commit_step hs (by simp [hut]) hu

theorem Inv.step (h : Inv tm Q g) (hs : Step tm Q v g g') : Inv tm Q g' := by
  cases hs with
  | advance t ht => exact h.advance ht
  | campaign t ht => exact h.campaign ht
  | vote t c lc ht hb hc hu => exact h.vote ht hb hc hu
  | elect t ht hl hc hq => exact h.elect ht hl hc hq
  | append t es ht hl hlog hes => exact h.append ht hl hlog hes
  | accept t c l ht hl hne hpre hkeep => exact h.accept ht hl hne hpre hkeep
  | ack t i ht hl hi hpre => exact h.ack ht hl hi hpre
  | commit t i hl hi hown hq => exact h.commit hl hi hown hq

theorem Inv.steps (h : Inv tm Q g) (hs : Steps tm Q v g g') : Inv tm Q g' ∧ Grows tm g g' := by
  induction hs with
  | refl => exact ⟨h, Grows.refl g⟩
  | tail _ hs ih => exact ⟨ih.1.step hs, ih.2.trans (ih.1.step_grows hs)⟩

theorem Step.sameAt (hw : w ≠ v) (hs : Step tm Q v g g') : SameAt w g g' := by
  have hr : SameAt w g g := SameAt.refl w g
  cases hs with
  | advance t ht => exact { hr with term := by simp [hw] }
  | campaign t ht =>
    exact { hr with
      term := by simp [hw]
      cand := fun u => set2_ne _ _ (fun hx => hw hx.2)
      ballot := fun u => set2_ne _ _ (fun hx => hw hx.2) }
  | vote t c lc ht hb hc hu =>
    exact { hr with ballot := fun u => set2_ne _ _ (fun hx => hw hx.2) }
  | elect t ht hl hc hq =>
    refine { hr with leader := fun u => ?_, tlog := fun u hu => ?_ }
    · by_cases hut : u = t
      · subst hut; simp [hl, hw.symm]
      · simp [hut]
    · have hut : u ≠ t := by rintro rfl; rw [hl] at hu; cases hu
      simp [hut]
  | append t es ht hl hlog hes =>
    refine { hr with log := by simp [hw], tlog := fun u hu => ?_ }
    have hut : u ≠ t := by rintro rfl; rw [hl] at hu; exact hw (Option.some.inj hu).symm
    simp [hut]
  | accept t c l ht hl hne hpre hkeep => exact { hr with log := by simp [hw] }
  | ack t i ht hl hi hpre => exact { hr with }
  | commit t i hl hi hown hq =>
    refine { hr with tlog := fun u hu => ?_ }
    have hut : u ≠ t := by rintro rfl; rw [hl] at hu; exact hw (Option.some.inj hu).symm
    simp [hut]

theorem Steps.sameAt (hw : w ≠ v) (hs : Steps tm Q v g g') : SameAt w g g' := by
  induction hs with
  | refl => exact SameAt.refl w g
  | tail _ hs ih => exact ih.trans (hs.sameAt hw)

end Steps

section Completeness

theorem lastTerm_eq_of_getLast (h : l.getLast? = some e) :
    lastTerm tm l = tm e := by simp [lastTerm, h]

/-- A nonempty good log is a prefix of the log of its last term. -/
theorem Good.prefix_last (hl : Good tm g l) (hne : l ≠ []) :
    g.leader (lastTerm tm l) ≠ none ∧ l <+: g.tlog (lastTerm tm l) := by
  have hlast : l.getLast? = some (l.getLast hne) := List.getLast?_eq_some_getLast hne
  have hpos := List.length_pos_of_ne_nil hne
  have := hl (l.length - 1) (l.getLast hne) (by rw [← hlast, List.getLast?_eq_getElem?])
  rw [lastTerm_eq_of_getLast hlast]
  rwa [show l.length - 1 + 1 = l.length by omega, List.take_length] at this

theorem Inv.le_lastTerm (h : Inv tm Q g) (hl : Good tm g l) (he : e ∈ l) :
    tm e ≤ lastTerm tm l := by
  have hne : l ≠ [] := List.ne_nil_of_mem he
  exact h.tlog_le e ((hl.prefix_last hne).2.subset he)

/-- A good log that holds a term at `j` agrees up to `i ≤ j` with any that holds it at `i`. -/
theorem Good.take_eq (hl : Good tm g l) (hl' : Good tm g l') {j : ℕ} (hij : i ≤ j)
    (he : l[j]? = some e) (he' : l'[i]? = some e') (ht : tm e = tm e') :
    l.take (i + 1) = l'.take (i + 1) := by
  have h1 := (hl j e he).2
  have h2 := (hl' i e' he').2
  rw [← ht] at h2
  have hj := (List.getElem?_eq_some_iff.mp he).1
  have hi := (List.getElem?_eq_some_iff.mp he').1
  have h3 : l.take (i + 1) <+: l.take (j + 1) := List.take_prefix_take_left (by omega)
  have hlen : (l.take (i + 1)).length = (l'.take (i + 1)).length := by
    rw [List.length_take, List.length_take]; omega
  exact (List.prefix_of_prefix_length_le (h3.trans h1) h2 hlen.le).eq_of_length hlen

theorem Inv.good_sorted (h : Inv tm Q g) (hl : Good tm g l) {j : ℕ} (hij : i ≤ j)
    (he : l[i]? = some e) (he' : l[j]? = some e') : tm e ≤ tm e' := by
  refine h.tlog_le e ((hl j e' he').2.subset ?_)
  refine List.mem_of_getElem? (i := i) ?_
  rw [List.getElem?_take_of_lt (by omega), he]

/-- Leader completeness. -/
theorem Inv.leader_complete (h : Inv tm Q g) (ho : OwnAt tm g t i)
    (hq : Q.IsQuorum {v | i ≤ g.ack t v}) :
    ∀ t', t < t' → g.leader t' ≠ none → (g.tlog t).take i <+: g.ilog t' := by
  intro t'
  induction t' using Nat.strong_induction_on with
  | _ t' ih =>
  intro htt' hl'
  have htlog : ∀ u, t < u → u < t' → g.leader u ≠ none → (g.tlog t).take i <+: g.tlog u := by
    intro u h1 h2 h3
    obtain ⟨es, he, -⟩ := h.built u h3
    exact (ih u h2 h1 h3).trans (he ▸ List.prefix_append _ _)
  obtain ⟨c, hc⟩ := Option.ne_none_iff_exists'.mp hl'
  obtain ⟨hcand, hvotes⟩ := h.elected t' c hc
  -- a voter that had acknowledged the prefix
  obtain ⟨w, ⟨lw, hb, hkept⟩, hack⟩ := Q.meet hvotes hq
  have hp : (g.tlog t).take i <+: lw := by
    rcases hkept t i htt' hack ho with hp | ⟨u, h1, h2, hov⟩
    · exact hp
    · exact absurd (htlog u h1 h2 hov.1) hov.2
  obtain ⟨lc, hlc, hup⟩ := h.ballot_cand t' w c lw hb
  obtain rfl : lc = g.ilog t' := Option.mem_unique hlc hcand
  obtain ⟨hgood, hlt⟩ := h.good_cand t' c _ hcand
  have hgw := h.good_ballot t' w c lw hb
  obtain ⟨h1, e, he, hte⟩ := id ho
  have hlen : ((g.tlog t).take i).length = i := by
    rw [List.length_take]; exact min_eq_left ho.le_length
  have hew : e ∈ lw := hp.subset (List.mem_of_getElem? (i := i - 1)
    (by rw [List.getElem?_take_of_lt (by omega), he]))
  have hwne : lw ≠ [] := List.ne_nil_of_mem hew
  have htw : t ≤ lastTerm tm lw := hte ▸ h.le_lastTerm hgw hew
  rcases hup with hlast | ⟨hlast, hle⟩
  · -- a later last term: its leader has the prefix by induction
    have hcne : g.ilog t' ≠ [] := by rintro hn; simp [hn, lastTerm] at hlast
    obtain ⟨hled, hpre⟩ := hgood.prefix_last hcne
    obtain ⟨e', he'⟩ := Option.ne_none_iff_exists'.mp
      (fun hn => hcne (List.getLast?_eq_none_iff.mp hn))
    have hmem := List.mem_of_getLast? he'
    have hte' : lastTerm tm (g.ilog t') = tm e' := lastTerm_eq_of_getLast he'
    have hin := htlog _ (htw.trans_lt hlast) (hte' ▸ hlt e' hmem) hled
    by_cases hlen' : i ≤ (g.ilog t').length
    · exact List.prefix_of_prefix_length_le hin hpre (by omega)
    · have hsub := List.prefix_of_prefix_length_le hpre hin (by omega)
      have := h.tlog_le e' (List.mem_of_mem_take (hsub.subset hmem))
      omega
  · -- the same last term: the longer log contains the shorter
    have hcne : g.ilog t' ≠ [] := by
      rintro hn
      rw [hn, List.length_nil, Nat.le_zero] at hle
      exact hwne (List.length_eq_zero_iff.mp hle)
    have hpw := (hgw.prefix_last hwne).2
    have hpc := (hgood.prefix_last hcne).2
    rw [hlast] at hpc
    exact hp.trans (List.prefix_of_prefix_length_le hpw hpc hle)

/-- `l` was committed by a leader of term `T` or earlier. -/
def Committed (g : State N E) (T : ℕ) (l : List E) : Prop :=
  ∃ t ≤ T, l <+: (g.tlog t).take (g.commit t)

theorem committed_nil (g : State N E) (T : ℕ) : Committed g T [] := ⟨T, le_rfl, List.nil_prefix⟩

theorem Committed.shorter (h : Committed g T l) (hp : l' <+: l) : Committed g T l' := by
  obtain ⟨t, ht, hl⟩ := h
  exact ⟨t, ht, hp.trans hl⟩

theorem Committed.mono (h : Inv tm Q g) (hg : Grows tm g g') (hT : T ≤ T') (hc : Committed g T l) :
    Committed g' T' l := by
  obtain ⟨t, ht, hl⟩ := hc
  refine ⟨t, ht.trans hT, hl.trans ?_⟩
  exact ((h.tlog_prefix hg t).take _).trans (List.take_prefix_take_left (hg.commit t))

theorem Inv.committed_ilog (h : Inv tm Q g) (hc : Committed g T l) (hT : T < T')
    (hl : g.leader T' ≠ none) : l <+: g.ilog T' := by
  obtain ⟨t, ht, hp⟩ := hc
  rcases Nat.eq_zero_or_pos (g.commit t) with h0 | hpos
  · rw [h0, List.take_zero, List.prefix_nil] at hp
    simp [hp]
  · obtain ⟨ho, hq⟩ := h.commit_own t hpos
    exact hp.trans (h.leader_complete ho hq T' (by omega) hl)

theorem Inv.ilog_prefix (h : Inv tm Q g) (hl : g.leader t ≠ none) : g.ilog t <+: g.tlog t := by
  obtain ⟨es, he, -⟩ := h.built t hl
  exact he ▸ List.prefix_append _ _

/-- What is committed up to a led term is in that term's log. -/
theorem Inv.committed_tlog (h : Inv tm Q g) (hc : Committed g T l) (hl : g.leader T ≠ none) :
    l <+: g.tlog T := by
  obtain ⟨t, ht, hp⟩ := hc
  rcases ht.eq_or_lt with rfl | hlt
  · exact hp.trans (List.take_prefix _ _)
  · exact (h.committed_ilog ⟨t, le_rfl, hp⟩ hlt hl).trans (h.ilog_prefix hl)

theorem Inv.committed_good (h : Inv tm Q g) (hc : Committed g T l) : Good tm g l := by
  obtain ⟨t, -, hp⟩ := hc
  exact (h.good_tlog t).shorter (hp.trans (List.take_prefix _ _))

/-- A committed prefix reaches an entry of the current term only if the leader committed it. -/
theorem Inv.own_committed (h : Inv tm Q g) (hc : Committed g T l) (ho : OwnAt tm g T i)
    (hi : i ≤ l.length) : i ≤ g.commit T := by
  have hpre := h.committed_tlog hc (h.led_of_own ho)
  obtain ⟨t, ht, hp⟩ := hc
  obtain ⟨h1, e, he, hte⟩ := ho
  have hl : l[i - 1]? = some e := by
    obtain ⟨r, hr⟩ := hpre
    rwa [← hr, List.getElem?_append_left (by omega)] at he
  have hmem : e ∈ g.tlog t := (hp.trans (List.take_prefix _ _)).subset (List.mem_of_getElem? hl)
  obtain rfl : t = T := le_antisymm ht (hte ▸ h.tlog_le e hmem)
  have := hp.length_le
  rw [List.length_take] at this
  omega

/-- Committed prefixes are prefixes of one another. -/
theorem Inv.committed_comparable (h : Inv tm Q g) (hc : Committed g T l) (hc' : Committed g T' l') :
    l <+: l' ∨ l' <+: l := by
  obtain ⟨t, -, hp⟩ := hc
  obtain ⟨t', -, hp'⟩ := hc'
  have key : ∀ {a b : ℕ} {x y : List E}, a ≤ b → x <+: (g.tlog a).take (g.commit a) →
      y <+: (g.tlog b).take (g.commit b) → x <+: y ∨ y <+: x := by
    intro a b x y hab hx hy
    by_cases hl : g.leader b = none
    · rw [(h.unled b hl).1, List.take_nil, List.prefix_nil] at hy
      exact Or.inr (hy ▸ List.nil_prefix)
    · exact List.prefix_or_prefix_of_prefix (h.committed_tlog ⟨a, hab, hx⟩ hl)
        (hy.trans (List.take_prefix _ _))
  rcases le_total t t' with hle | hle
  · exact key hle hp hp'
  · exact (key hle hp' hp).symm

/-- What is committed at a position is the same everywhere. -/
theorem Inv.committed_unique (h : Inv tm Q g) {k : ℕ} (hc : Committed g T l)
    (hc' : Committed g T' l') (he : l[k]? = some e) (he' : l'[k]? = some e') : e = e' := by
  rcases h.committed_comparable hc hc' with hp | hp
  · exact Option.some.inj ((prefix_getElem hp he).symm.trans he')
  · exact Option.some.inj (he.symm.trans (prefix_getElem hp he'))

end Completeness

end LeaderLog
