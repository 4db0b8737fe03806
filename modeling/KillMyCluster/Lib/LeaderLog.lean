import Mathlib.Data.List.Infix
import Mathlib.Data.Finset.Card
import Mathlib.Data.Finset.Lattice.Lemmas
import Mathlib.Data.Set.Basic
import Mathlib.Logic.Function.Basic
import Mathlib.Logic.Relation

/-! A replicated log driven by one leader per term, without messages: what a node
promises (its term), what it holds (its log), whom it voted for, and for every term
the log its leader built. Each step is an atomic act of one node. The log of a term
only grows, and every log is a prefix of the log of its last entry's term. -/

namespace LeaderLog

/-- A family of sets of nodes, any two of which meet. -/
structure QuorumSystem (N : Type*) where
  IsQuorum : Set N → Prop
  mono : ∀ {A B : Set N}, A ⊆ B → IsQuorum A → IsQuorum B
  meet : ∀ {A B : Set N}, IsQuorum A → IsQuorum B → ∃ x, x ∈ A ∧ x ∈ B

def majorities {N : Type*} [DecidableEq N] (members : Finset N) : QuorumSystem N where
  IsQuorum A := ∃ S : Finset N, ↑S ⊆ A ∧ S ⊆ members ∧ members.card / 2 + 1 ≤ S.card
  mono h := fun ⟨S, hS, hm, hc⟩ => ⟨S, hS.trans h, hm, hc⟩
  meet := by
    rintro A B ⟨S, hS, hSm, hSc⟩ ⟨T, hT, hTm, hTc⟩
    obtain ⟨x, hx⟩ := Finset.inter_nonempty_of_card_lt_card_add_card hSm hTm (by omega)
    rw [Finset.mem_inter] at hx
    exact ⟨x, hS (by simpa using hx.1), hT (by simpa using hx.2)⟩

variable {N E : Type*}

structure State (N E : Type*) where
  /-- The highest term a node has promised. -/
  term : N → ℕ
  log : N → List E
  /-- The log a node stood for election with, by term. -/
  cand : ℕ → N → Option (List E)
  /-- The candidate a node voted for in a term, with its own log at that moment. -/
  ballot : ℕ → N → Option (N × List E)
  leader : ℕ → Option N
  /-- The log a term's leader was elected with, and the one it built from it. -/
  ilog : ℕ → List E
  tlog : ℕ → List E
  /-- How far a node acknowledged the log of a term, and how far its leader committed it. -/
  ack : ℕ → N → ℕ
  commit : ℕ → ℕ

def State.init : State N E where
  term _ := 0
  log _ := []
  cand _ _ := none
  ballot _ _ := none
  leader _ := none
  ilog _ := []
  tlog _ := []
  ack _ _ := 0
  commit _ := 0

section Terms

variable (tm : E → ℕ)

def lastTerm (l : List E) : ℕ := (l.getLast?.map tm).getD 0

/-- The order an election compares logs by: last term first, then length. -/
def UpToDate (l l' : List E) : Prop :=
  lastTerm tm l' < lastTerm tm l ∨ lastTerm tm l = lastTerm tm l' ∧ l'.length ≤ l.length

def OwnAt (g : State N E) (t i : ℕ) : Prop :=
  1 ≤ i ∧ ∃ e, (g.tlog t)[i - 1]? = some e ∧ tm e = t

end Terms

section Steps

variable [DecidableEq N] (tm : E → ℕ) (Q : QuorumSystem N)

def set2 {α : Type*} (f : ℕ → N → α) (t : ℕ) (v : N) (x : α) : ℕ → N → α :=
  Function.update f t (Function.update (f t) v x)

inductive Step (v : N) (g : State N E) : State N E → Prop
  | advance (t : ℕ) (h : g.term v ≤ t) :
    Step v g { g with term := Function.update g.term v t }
  | campaign (t : ℕ) (h : g.term v < t) :
    Step v g { g with
      term := Function.update g.term v t
      cand := set2 g.cand t v (some (g.log v))
      ballot := set2 g.ballot t v (some (v, g.log v)) }
  | vote (t : ℕ) (c : N) (lc : List E) (ht : g.term v = t) (hb : g.ballot t v = none)
      (hc : g.cand t c = some lc) (hu : UpToDate tm lc (g.log v)) :
    Step v g { g with ballot := set2 g.ballot t v (some (c, g.log v)) }
  | elect (t : ℕ) (ht : g.term v = t) (hl : g.leader t = none)
      (hc : g.cand t v = some (g.log v))
      (hq : Q.IsQuorum {u | ∃ l, g.ballot t u = some (v, l)}) :
    Step v g { g with
      leader := Function.update g.leader t (some v)
      ilog := Function.update g.ilog t (g.log v)
      tlog := Function.update g.tlog t (g.log v) }
  | append (t : ℕ) (es : List E) (ht : g.term v = t) (hl : g.leader t = some v)
      (hlog : g.tlog t = g.log v) (hes : ∀ e ∈ es, tm e = t) :
    Step v g { g with
      log := Function.update g.log v (g.log v ++ es)
      tlog := Function.update g.tlog t (g.tlog t ++ es) }
  | accept (t : ℕ) (c : N) (l : List E) (ht : g.term v = t) (hl : g.leader t = some c)
      (hne : c ≠ v) (hpre : l <+: g.tlog t)
      (hkeep : ∀ q, q <+: g.log v → q <+: g.tlog t → q <+: l) :
    Step v g { g with log := Function.update g.log v l }
  | ack (t i : ℕ) (ht : g.term v = t) (hl : g.leader t ≠ none)
      (hi : i ≤ (g.tlog t).length) (hpre : (g.tlog t).take i <+: g.log v) :
    Step v g { g with ack := set2 g.ack t v (max i (g.ack t v)) }
  | commit (t i : ℕ) (hl : g.leader t = some v) (hi : g.commit t ≤ i)
      (hown : OwnAt tm g t i) (hq : Q.IsQuorum {u | i ≤ g.ack t u}) :
    Step v g { g with commit := Function.update g.commit t i }

abbrev Steps (v : N) : State N E → State N E → Prop := Relation.ReflTransGen (Step tm Q v)

end Steps

end LeaderLog
