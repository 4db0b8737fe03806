import KillMyCluster.Lib.LeaderLog

/-! The invariant of the leader-per-term log. No field speaks of committed entries
being kept: a node that acknowledged a prefix either still holds it or has since
followed a leader whose log overrules it, which is provable step by step. That no
committed prefix is ever overruled is drawn from this afterwards. -/

namespace LeaderLog

variable {N E : Type*} (tm : E → ℕ) (Q : QuorumSystem N) {t i : ℕ} {l l' : List E}

/-- Every prefix of `l` is a prefix of the log of its last entry's term. -/
def Good (g : State N E) (l : List E) : Prop :=
  ∀ k e, l[k]? = some e → g.leader (tm e) ≠ none ∧ l.take (k + 1) <+: g.tlog (tm e)

/-- A leader of term `u` stands without the first `i` entries of the log of term `t`. -/
def Overruled (g : State N E) (t i u : ℕ) : Prop :=
  g.leader u ≠ none ∧ ¬ (g.tlog t).take i <+: g.tlog u

/-- The log `l`, with which `v` voted in term `t'`, still had what `v` acknowledged
before, unless a leader between overruled it. -/
def Kept (g : State N E) (t' : ℕ) (v : N) (l : List E) : Prop :=
  ∀ t i, t < t' → i ≤ g.ack t v → OwnAt tm g t i →
    (g.tlog t).take i <+: l ∨ ∃ u, t < u ∧ u < t' ∧ Overruled g t i u

structure Inv (g : State N E) : Prop where
  cand_le : ∀ t c l, g.cand t c = some l → t ≤ g.term c
  ballot_le : ∀ t v b, g.ballot t v = some b → t ≤ g.term v
  ballot_cand : ∀ t v c l, g.ballot t v = some (c, l) →
    ∃ lc, g.cand t c = some lc ∧ UpToDate tm lc l
  elected : ∀ t c, g.leader t = some c → g.cand t c = some (g.ilog t) ∧
    Q.IsQuorum {v | ∃ l, g.ballot t v = some (c, l) ∧ Kept tm g t v l}
  unled : ∀ t, g.leader t = none → g.tlog t = [] ∧ g.commit t = 0 ∧ (∀ v, g.ack t v = 0) ∧
    ∀ v c l, g.ballot t v = some (c, l) → Kept tm g t v l
  built : ∀ t, g.leader t ≠ none → ∃ es, g.tlog t = g.ilog t ++ es ∧ ∀ e ∈ es, tm e = t
  good_log : ∀ v, Good tm g (g.log v) ∧ ∀ e ∈ g.log v, tm e ≤ g.term v
  good_cand : ∀ t c l, g.cand t c = some l → Good tm g l ∧ ∀ e ∈ l, tm e < t
  good_ballot : ∀ t v c l, g.ballot t v = some (c, l) → Good tm g l
  ack_len : ∀ t v, g.ack t v ≤ (g.tlog t).length
  ack_term : ∀ t v, 0 < g.ack t v → t ≤ g.term v
  ack_now : ∀ t v, g.term v = t → (g.tlog t).take (g.ack t v) <+: g.log v
  ack_kept : ∀ t v i, i ≤ g.ack t v → OwnAt tm g t i →
    (g.tlog t).take i <+: g.log v ∨ ∃ u, t < u ∧ u ≤ g.term v ∧ Overruled g t i u
  commit_own : ∀ t, 0 < g.commit t →
    OwnAt tm g t (g.commit t) ∧ Q.IsQuorum {v | g.commit t ≤ g.ack t v}

/-- What no step takes back. The log of a term grows by entries of that term only. -/
structure Grows (g g' : State N E) : Prop where
  term : ∀ v, g.term v ≤ g'.term v
  cand : ∀ t c l, g.cand t c = some l → g'.cand t c = some l
  ballot : ∀ t v b, g.ballot t v = some b → g'.ballot t v = some b
  leader : ∀ t c, g.leader t = some c → g'.leader t = some c
  ilog : ∀ t, g.leader t ≠ none → g'.ilog t = g.ilog t
  tlog : ∀ t, g.leader t ≠ none → ∃ es, g'.tlog t = g.tlog t ++ es ∧ ∀ e ∈ es, tm e = t
  ack : ∀ t v, g.ack t v ≤ g'.ack t v
  commit : ∀ t, g.commit t ≤ g'.commit t

variable {tm Q}

theorem Grows.refl (g : State N E) : Grows tm g g :=
  ⟨fun _ => le_rfl, fun _ _ _ h => h, fun _ _ _ h => h, fun _ _ h => h, fun _ _ => rfl,
    fun t _ => ⟨[], by simp, by simp⟩, fun _ _ => le_rfl, fun _ => le_rfl⟩

theorem Grows.led {g g' : State N E} (h : Grows tm g g') (hl : g.leader t ≠ none) :
    g'.leader t ≠ none := by
  obtain ⟨c, hc⟩ := Option.ne_none_iff_exists'.mp hl
  simp [h.leader t c hc]

theorem Grows.trans {a b c : State N E} (h₁ : Grows tm a b) (h₂ : Grows tm b c) :
    Grows tm a c where
  term v := (h₁.term v).trans (h₂.term v)
  cand t v l h := h₂.cand t v l (h₁.cand t v l h)
  ballot t v x h := h₂.ballot t v x (h₁.ballot t v x h)
  leader t v h := h₂.leader t v (h₁.leader t v h)
  ilog t h := (h₂.ilog t (h₁.led h)).trans (h₁.ilog t h)
  tlog t h := by
    obtain ⟨es, he, hes⟩ := h₁.tlog t h
    obtain ⟨fs, hf, hfs⟩ := h₂.tlog t (h₁.led h)
    refine ⟨es ++ fs, by rw [hf, he, List.append_assoc], fun e hm => ?_⟩
    rcases List.mem_append.mp hm with hm | hm
    · exact hes e hm
    · exact hfs e hm
  ack t v := (h₁.ack t v).trans (h₂.ack t v)
  commit t := (h₁.commit t).trans (h₂.commit t)

theorem set2_self [DecidableEq N] {α : Type*} (f : ℕ → N → α) (t : ℕ) (v : N) (x : α) :
    set2 f t v x t v = x := by simp [set2]

theorem set2_ne [DecidableEq N] {α : Type*} (f : ℕ → N → α) {t' : ℕ} {v v' : N} (x : α)
    (h : ¬ (t' = t ∧ v' = v)) : set2 f t v x t' v' = f t' v' := by
  unfold set2
  by_cases ht : t' = t
  · subst ht
    have hv : v' ≠ v := fun hv => h ⟨rfl, hv⟩
    simp [hv]
  · simp [ht]

section Inv

variable {g g' : State N E}

theorem Inv.led_of_own (h : Inv tm Q g) (ho : OwnAt tm g t i) : g.leader t ≠ none := by
  intro hn
  obtain ⟨_, e, he, _⟩ := ho
  simp [(h.unled t hn).1] at he

theorem OwnAt.le_length (ho : OwnAt tm g t i) : i ≤ (g.tlog t).length := by
  obtain ⟨h1, e, he, _⟩ := ho
  have := (List.getElem?_eq_some_iff.mp he).1
  omega

theorem Inv.tlog_prefix (h : Inv tm Q g) (hg : Grows tm g g') (t : ℕ) :
    g.tlog t <+: g'.tlog t := by
  by_cases hl : g.leader t = none
  · simp [(h.unled t hl).1]
  · obtain ⟨es, he, _⟩ := hg.tlog t hl
    rw [he]
    exact List.prefix_append _ _

theorem prefix_take (h : l <+: l') {n : ℕ} (hn : n ≤ l.length) : l'.take n = l.take n := by
  obtain ⟨r, rfl⟩ := h
  exact List.take_append_of_le_length hn

theorem exists_getElem (h : i < l.length) : ∃ e, l[i]? = some e :=
  ⟨_, List.getElem?_eq_getElem h⟩

theorem prefix_getElem (h : l <+: l') {e : E} (he : l[i]? = some e) : l'[i]? = some e := by
  obtain ⟨r, rfl⟩ := h
  rw [List.getElem?_append_left (List.getElem?_eq_some_iff.mp he).1, he]

theorem Inv.take_tlog (h : Inv tm Q g) (hg : Grows tm g g') (hi : i ≤ (g.tlog t).length) :
    (g'.tlog t).take i = (g.tlog t).take i :=
  prefix_take (h.tlog_prefix hg t) hi

theorem Inv.own_mono (h : Inv tm Q g) (hg : Grows tm g g') (ho : OwnAt tm g t i) :
    OwnAt tm g' t i := by
  obtain ⟨h1, e, he, ht⟩ := ho
  exact ⟨h1, e, prefix_getElem (h.tlog_prefix hg t) he, ht⟩

theorem Inv.own_back (h : Inv tm Q g) (hg : Grows tm g g') (hi : i ≤ (g.tlog t).length)
    (ho : OwnAt tm g' t i) : OwnAt tm g t i := by
  obtain ⟨h1, e, he, ht⟩ := ho
  obtain ⟨r, hr⟩ := h.tlog_prefix hg t
  refine ⟨h1, e, ?_, ht⟩
  rwa [← hr, List.getElem?_append_left (by omega)] at he

theorem Inv.good_mono (h : Inv tm Q g) (hg : Grows tm g g') (hl : Good tm g l) :
    Good tm g' l := fun k e he =>
  ⟨hg.led (hl k e he).1, (hl k e he).2.trans (h.tlog_prefix hg _)⟩

/-- A leader's later entries carry its own term, so they cannot complete a prefix that
ends in an entry of another term. -/
theorem Inv.overruled_mono (h : Inv tm Q g) (hg : Grows tm g g') {u : ℕ} (hu : u ≠ t)
    (ho : OwnAt tm g t i) (hov : Overruled g t i u) : Overruled g' t i u := by
  refine ⟨hg.led hov.1, fun hp => hov.2 ?_⟩
  rw [h.take_tlog hg ho.le_length] at hp
  obtain ⟨es, hes, htm⟩ := hg.tlog u hov.1
  rw [hes] at hp
  obtain ⟨h1, e, he, hte⟩ := ho
  have hlen : ((g.tlog t).take i).length = i := by
    have := (List.getElem?_eq_some_iff.mp he).1
    rw [List.length_take]; omega
  by_cases hle : i ≤ (g.tlog u).length
  · exact List.prefix_of_prefix_length_le hp (List.prefix_append _ _) (by omega)
  · -- the last entry of the prefix would be one of the new ones
    exfalso
    have hpe : ((g.tlog t).take i)[i - 1]? = some e := by
      rw [List.getElem?_take_of_lt (by omega), he]
    obtain ⟨r, hr⟩ := hp
    have hin : (g.tlog u ++ es)[i - 1]? = some e := by
      rw [← hr, List.getElem?_append_left (by omega), hpe]
    rw [List.getElem?_append_right (by omega)] at hin
    exact hu ((htm e (List.mem_of_getElem? hin)).symm.trans hte)

theorem Inv.kept_mono (h : Inv tm Q g) (hg : Grows tm g g') {t' : ℕ} {v : N}
    (ha : ∀ t < t', g'.ack t v = g.ack t v) (hk : Kept tm g t' v l) : Kept tm g' t' v l := by
  intro t i ht hi ho
  rw [ha t ht] at hi
  have hlen := hi.trans (h.ack_len t v)
  have ho' := h.own_back hg hlen ho
  rcases hk t i ht hi ho' with hp | ⟨u, h1, h2, hov⟩
  · exact Or.inl (by rwa [h.take_tlog hg hlen])
  · exact Or.inr ⟨u, h1, h2, h.overruled_mono hg (by omega) ho' hov⟩

theorem Good.shorter (hl : Good tm g l) (hp : l' <+: l) : Good tm g l' := by
  intro k e he
  have hk := (List.getElem?_eq_some_iff.mp he).1
  have := hl k e (prefix_getElem hp he)
  obtain ⟨r, rfl⟩ := hp
  rwa [List.take_append_of_le_length (by omega)] at this

/-- The entries of the log of a term are of that term or earlier. -/
theorem Inv.tlog_le (h : Inv tm Q g) : ∀ e ∈ g.tlog t, tm e ≤ t := by
  intro e he
  by_cases hl : g.leader t = none
  · simp [(h.unled t hl).1] at he
  obtain ⟨c, hc⟩ := Option.ne_none_iff_exists'.mp hl
  obtain ⟨es, hes, htm⟩ := h.built t hl
  rw [hes] at he
  rcases List.mem_append.mp he with hm | hm
  · exact ((h.good_cand t c _ (h.elected t c hc).1).2 e hm).le
  · exact (htm e hm).le

theorem Inv.good_tlog (h : Inv tm Q g) (t : ℕ) : Good tm g (g.tlog t) := by
  by_cases hl : g.leader t = none
  · simp [(h.unled t hl).1, Good]
  obtain ⟨c, hc⟩ := Option.ne_none_iff_exists'.mp hl
  obtain ⟨es, hes, htm⟩ := h.built t hl
  intro k e he
  by_cases hk : k < (g.ilog t).length
  · have := (h.good_cand t c _ (h.elected t c hc).1).1 k e
      (by rwa [hes, List.getElem?_append_left hk] at he)
    rwa [hes, List.take_append_of_le_length (by omega)]
  · have hte : tm e = t := by
      rw [hes, List.getElem?_append_right (by omega)] at he
      exact htm e (List.mem_of_getElem? he)
    exact ⟨hte ▸ hl, hte ▸ List.take_prefix _ _⟩

end Inv

end LeaderLog
