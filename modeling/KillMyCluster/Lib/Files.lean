import Mathlib.Data.Nat.Notation
import Mathlib.Logic.Function.Basic

/-! A directory of files under operations that a crash may cut short. What was written and synced
stays; of the bytes that were being written any number may be there. Renaming, removing and
truncating a file happen at once or not at all. -/

namespace Files

variable {N B : Type*} [DecidableEq N]

/-- The files by name; `none` where there is no such file. -/
abbrev Dir (N B : Type*) := N → Option (List B)

inductive Op (N B : Type*)
  /-- Open for appending, write and sync. -/
  | append (f : N) (bytes : List B)
  /-- Create or empty, write and sync. -/
  | create (f : N) (bytes : List B)
  | rename (src dst : N)
  | remove (f : N)
  | truncate (f : N) (len : ℕ)

def Op.run (d : Dir N B) : Op N B → Dir N B
  | .append f bytes => Function.update d f (some ((d f).getD [] ++ bytes))
  | .create f bytes => Function.update d f (some bytes)
  | .rename src dst => Function.update (Function.update d src none) dst (d src)
  | .remove f => Function.update d f none
  | .truncate f len => Function.update d f ((d f).map (List.take len))

/-- The crash comes during the operation, when `k` bytes are written. -/
def Op.cut (d : Dir N B) (k : ℕ) : Op N B → Dir N B
  | .append f bytes => Function.update d f (some ((d f).getD [] ++ bytes.take k))
  | .create f bytes => Function.update d f (some (bytes.take k))
  | _ => d

def runs (d : Dir N B) (ops : List (Op N B)) : Dir N B := ops.foldl Op.run d

/-- After `done` operations, with so many bytes of the next written, or before it. -/
structure CrashPoint where
  done : ℕ
  bytes : Option ℕ := none
deriving DecidableEq, Repr

def crashed (d : Dir N B) (ops : List (Op N B)) (pt : CrashPoint) : Dir N B :=
  match ops[pt.done]?, pt.bytes with
  | some op, some k => op.cut (runs d (ops.take pt.done)) k
  | _, _ => runs d (ops.take pt.done)

section Lemmas

variable {d : Dir N B} {op : Op N B} {ops : List (Op N B)}

@[simp] theorem runs_nil (d : Dir N B) : runs d [] = d := rfl

@[simp] theorem runs_cons (d : Dir N B) (op : Op N B) (ops : List (Op N B)) :
    runs d (op :: ops) = runs (op.run d) ops := rfl

theorem runs_append (d : Dir N B) (ops ops' : List (Op N B)) :
    runs d (ops ++ ops') = runs (runs d ops) ops' := List.foldl_append

@[simp] theorem crashed_nil (d : Dir N B) (pt : CrashPoint) : crashed d [] pt = d := by
  simp [crashed]

@[simp] theorem crashed_before (d : Dir N B) (ops : List (Op N B)) :
    crashed d ops ⟨0, none⟩ = d := by
  cases ops <;> rfl

@[simp] theorem crashed_in (d : Dir N B) (op : Op N B) (ops : List (Op N B)) (k : ℕ) :
    crashed d (op :: ops) ⟨0, some k⟩ = op.cut d k := rfl

@[simp] theorem crashed_succ (d : Dir N B) (op : Op N B) (ops : List (Op N B)) (j : ℕ)
    (b : Option ℕ) : crashed d (op :: ops) ⟨j + 1, b⟩ = crashed (op.run d) ops ⟨j, b⟩ := rfl

/-- What holds whenever the first operation or a later one is hit holds wherever the crash comes. -/
theorem crashed_cases {Q : Dir N B → Prop} (hbefore : Q d) (hin : ∀ k, Q (op.cut d k))
    (hafter : ∀ pt, Q (crashed (op.run d) ops pt)) (pt : CrashPoint) :
    Q (crashed d (op :: ops) pt) := by
  obtain ⟨j, b⟩ := pt
  cases j with
  | zero =>
    cases b with
    | none => exact hbefore
    | some k => exact hin k
  | succ j => exact hafter ⟨j, b⟩

end Lemmas

end Files
