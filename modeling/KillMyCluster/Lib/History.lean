import KillMyCluster.Lib.Trace
import Mathlib.Order.Basic

/-! The states that a run passes through, and the steps it takes on its way. -/

namespace Trace

variable {S A : Type*} {next : S → A → Option S} {P : S → A → Prop} {s t u : S} {acts : List A}
  {a b : A}

/-- The run by `acts` passes through `u`. -/
def Visits (next : S → A → Option S) (s : S) (acts : List A) (u : S) : Prop :=
  ∃ pre, pre <+: acts ∧ exec next s pre = some u

/-- The run by `acts` takes step `a` when it is in `u`. -/
def Takes (next : S → A → Option S) (s : S) (acts : List A) (u : S) (a : A) : Prop :=
  ∃ pre, pre ++ [a] <+: acts ∧ exec next s pre = some u

theorem Visits.start (s : S) (acts : List A) : Visits next s acts s :=
  ⟨[], List.nil_prefix, rfl⟩

theorem Visits.snoc (h : Visits next s acts u) : Visits next s (acts ++ [a]) u := by
  obtain ⟨pre, hpre, hu⟩ := h
  exact ⟨pre, hpre.trans (List.prefix_append _ _), hu⟩

theorem Takes.snoc (h : Takes next s acts u a) : Takes next s (acts ++ [b]) u a := by
  obtain ⟨pre, hpre, hu⟩ := h
  exact ⟨pre, hpre.trans (List.prefix_append _ _), hu⟩

theorem Takes.visits (h : Takes next s acts u a) : Visits next s acts u := by
  obtain ⟨pre, hpre, hu⟩ := h
  exact ⟨pre, (List.prefix_append _ _).trans hpre, hu⟩

theorem Run.visits (h : Run next P s acts t) : Visits next s acts t :=
  ⟨acts, List.prefix_rfl, h.exec_eq⟩

theorem Run.takes (h : Run next P s acts t) : Takes next s (acts ++ [a]) t a :=
  ⟨acts, List.prefix_rfl, h.exec_eq⟩

/-- The last step adds the state it leads to. -/
theorem Run.visits_snoc (h : Run next P s acts t) (hs : next t a = some u) {v : S}
    (hv : Visits next s (acts ++ [a]) v) : Visits next s acts v ∨ v = u := by
  obtain ⟨pre, hpre, hv⟩ := hv
  rcases List.prefix_concat_iff.mp hpre with rfl | hpre
  · rw [exec_append, h.exec_eq, Option.bind_some, exec, hs, Option.bind_some, exec] at hv
    exact .inr (Option.some.inj hv).symm
  · exact .inl ⟨pre, hpre, hv⟩

/-- And itself. -/
theorem Run.takes_snoc (h : Run next P s acts t) {v : S} (hv : Takes next s (acts ++ [a]) v b) :
    Takes next s acts v b ∨ v = t ∧ b = a := by
  obtain ⟨pre, hpre, hv⟩ := hv
  rcases List.prefix_concat_iff.mp hpre with heq | hpre
  · obtain ⟨rfl, hb⟩ := List.append_inj' heq rfl
    exact .inr ⟨Option.mem_unique hv h.exec_eq, (List.cons.inj hb).1⟩
  · exact .inl ⟨pre, hpre, hv⟩

theorem Run.visits_nil (h : Visits next s [] u) : u = s := by
  obtain ⟨pre, hpre, hu⟩ := h
  rw [List.prefix_nil.mp hpre] at hu
  exact (Option.some.inj hu).symm

theorem Takes.mem (h : Takes next s acts u a) : a ∈ acts := by
  obtain ⟨pre, hpre, -⟩ := h
  exact hpre.subset (by simp)

/-- A test of every state on the way. -/
theorem Visits.test {Q : S → Bool} (hv : Visits next s acts u)
    (h : ∀ k ≤ acts.length, (exec next s (acts.take k)).all Q = true) : Q u = true := by
  obtain ⟨pre, hpre, hu⟩ := hv
  have hk := h pre.length hpre.length_le
  rwa [← List.prefix_iff_eq_take.mp hpre, hu] at hk

/-- What no step lowers was no higher before. -/
theorem Run.visits_le {T : Type*} [Preorder T] {f : S → T}
    (hf : ∀ s a t, next s a = some t → f s ≤ f t) (h : Run next P s acts t)
    (hu : Visits next s acts u) : f u ≤ f t := by
  induction h with
  | nil => exact Run.visits_nil hu ▸ le_rfl
  | snoc hrun _ hs ih =>
    rcases hrun.visits_snoc hs hu with hu | rfl
    · exact (ih hu).trans (hf _ _ _ hs)
    · exact le_rfl

end Trace
