import Mathlib.Data.List.Basic
import Mathlib.Data.Option.Basic

/-! Runs of a system given by a partial step function: as a relation, with a condition on the
steps taken, and as an execution of a list of actions. -/

namespace Trace

variable {S A : Type*} {next : S → A → Option S} {P Q : S → A → Prop} {s t u : S} {acts : List A}

/-- A run whose every step meets `P`, with the actions taken. -/
inductive Run (next : S → A → Option S) (P : S → A → Prop) (s : S) : List A → S → Prop
  | nil : Run next P s [] s
  | snoc {acts : List A} {t u : S} {a : A} :
      Run next P s acts t → P t a → next t a = some u → Run next P s (acts ++ [a]) u

def Reaches (next : S → A → Option S) (P : S → A → Prop) (s t : S) : Prop :=
  ∃ acts, Run next P s acts t

def exec (next : S → A → Option S) (s : S) : List A → Option S
  | [] => some s
  | a :: acts => (next s a).bind fun t => exec next t acts

theorem Run.trans {acts' : List A} (h : Run next P s acts t) (h' : Run next P t acts' u) :
    Run next P s (acts ++ acts') u := by
  induction h' with
  | nil => simpa using h
  | snoc _ hP hs ih =>
    rw [← List.append_assoc]
    exact ih.snoc hP hs

theorem Run.imp (hP : ∀ s a, P s a → Q s a) (h : Run next P s acts t) : Run next Q s acts t := by
  induction h with
  | nil => exact .nil
  | snoc _ ha hs ih => exact ih.snoc (hP _ _ ha) hs

theorem Reaches.refl (s : S) : Reaches next P s s := ⟨[], .nil⟩

theorem Reaches.trans (h : Reaches next P s t) (h' : Reaches next P t u) : Reaches next P s u := by
  obtain ⟨_, h⟩ := h
  obtain ⟨_, h'⟩ := h'
  exact ⟨_, h.trans h'⟩

theorem Reaches.snoc {a : A} (h : Reaches next P s t) (hs : next t a = some u) (hP : P t a) :
    Reaches next P s u := by
  obtain ⟨_, h⟩ := h
  exact ⟨_, h.snoc hP hs⟩

/-- What every step of a run keeps, the run keeps. -/
theorem Reaches.invariant {I : S → Prop}
    (hstep : ∀ s a t, I s → P s a → next s a = some t → I t) (hs : I s)
    (h : Reaches next P s t) : I t := by
  obtain ⟨acts, h⟩ := h
  induction h with
  | nil => exact hs
  | snoc _ ha hn ih => exact hstep _ _ _ ih ha hn

/-- Steps that leave the state alone, or that a step of another kind can stand for, may be left
out of a run. -/
theorem Reaches.absorb {I : S → Prop} (hI : ∀ t, Reaches next Q s t → I t)
    (hstep : ∀ t a u, I t → P t a → next t a = some u →
      u = t ∨ ∃ b, Q t b ∧ next t b = some u)
    (h : Reaches next P s t) : Reaches next Q s t := by
  obtain ⟨acts, h⟩ := h
  induction h with
  | nil => exact ⟨[], .nil⟩
  | snoc _ ha hn ih =>
    rcases hstep _ _ _ (hI _ ih) ha hn with rfl | ⟨b, hb, hnb⟩
    · exact ih
    · obtain ⟨acts', h'⟩ := ih
      exact ⟨_, h'.snoc hb hnb⟩

def Along (next : S → A → Option S) (P : S → A → Prop) (s : S) : List A → Prop
  | [] => True
  | a :: acts => P s a ∧ match next s a with
    | some t => Along next P t acts
    | none => True

instance Along.decidable (next : S → A → Option S) (P : S → A → Prop)
    [∀ s a, Decidable (P s a)] : ∀ acts s, Decidable (Along next P s acts)
  | [], _ => isTrue trivial
  | a :: acts, s => by
    have := Along.decidable next P acts
    unfold Along
    cases next s a <;> infer_instance

theorem Along.of_forall (hP : ∀ s, ∀ a ∈ acts, P s a) (s : S) : Along next P s acts := by
  induction acts generalizing s with
  | nil => trivial
  | cons a acts ih =>
    refine ⟨hP s a List.mem_cons_self, ?_⟩
    split
    · exact ih (fun s x hx => hP s x (List.mem_cons_of_mem a hx)) _
    · trivial

theorem Along.imp (hPQ : ∀ s, ∀ a ∈ acts, P s a → Q s a) (hP : Along next P s acts) :
    Along next Q s acts := by
  induction acts generalizing s with
  | nil => trivial
  | cons a acts ih =>
    obtain ⟨h1, h2⟩ := hP
    refine ⟨hPQ s a List.mem_cons_self h1, ?_⟩
    cases hs : next s a with
    | none => trivial
    | some t =>
      simp only [hs] at h2
      exact ih (fun s x hx => hPQ s x (List.mem_cons_of_mem a hx)) h2

theorem Along.and (hP : Along next P s acts) (hQ : Along next Q s acts) :
    Along next (fun s a => P s a ∧ Q s a) s acts := by
  induction acts generalizing s with
  | nil => trivial
  | cons a acts ih =>
    obtain ⟨h1, h2⟩ := hP
    obtain ⟨h3, h4⟩ := hQ
    refine ⟨⟨h1, h3⟩, ?_⟩
    cases hs : next s a with
    | none => trivial
    | some t =>
      simp only [hs] at h2 h4
      exact ih h2 h4

theorem Run.of_exec (hP : Along next P s acts) (h : exec next s acts = some t) :
    Run next P s acts t := by
  induction acts generalizing s with
  | nil =>
    obtain rfl := Option.some.inj h
    exact .nil
  | cons a acts ih =>
    obtain ⟨u, hu, ht⟩ := Option.bind_eq_some_iff.mp h
    obtain ⟨ha, hrest⟩ := hP
    simp only [hu] at hrest
    exact Run.trans (.snoc .nil ha hu) (ih hrest ht)

theorem exec_append (next : S → A → Option S) (s : S) (acts acts' : List A) :
    exec next s (acts ++ acts') = (exec next s acts).bind fun t => exec next t acts' := by
  induction acts generalizing s with
  | nil => rfl
  | cons a acts ih =>
    simp only [List.cons_append, exec, Option.bind_assoc, ih]

theorem Run.exec_eq (h : Run next P s acts t) : exec next s acts = some t := by
  induction h with
  | nil => rfl
  | snoc _ _ hs ih => simp [exec_append, ih, exec, hs]

theorem Run.get (next : S → A → Option S) (P : S → A → Prop) (s : S) (acts : List A)
    (hP : Along next P s acts) (h : (exec next s acts).isSome) :
    Run next P s acts ((exec next s acts).get h) :=
  .of_exec hP (Option.some_get h).symm

theorem Reaches.of_exec (next : S → A → Option S) (P : S → A → Prop) (s : S) (acts : List A)
    (hP : Along next P s acts) (h : (exec next s acts).isSome) :
    Reaches next P s ((exec next s acts).get h) :=
  ⟨acts, .get next P s acts hP h⟩

end Trace
