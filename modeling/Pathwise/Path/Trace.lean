import Pathwise.Path.Basic
import Pathwise.Path.Error

/-!
# Pathwise.Path.Trace

The outcome of a path search, as a list that is computed on demand.

A search may find paths and then meet a defect, and the paths before the defect count: a
verifier has looked at them by then, and may have stopped at one of them. So the outcome is
neither a list nor an error but both, the paths in order and what comes after the last one.
`toList` and `outcome` take a trace apart. The searches of two parts of a graph are put
together by `append`, which drops the second one if the first one ends with a defect.

The rest of a search stands behind a function, so that as much of it is computed as is looked
at.
-/

namespace Pathwise

/-- The paths a search finds, in order, and how it ends. -/
inductive Trace where
  /-- The search is complete. -/
  | done
  /-- The search meets a defect. -/
  | fail (e : VerifyError)
  /-- The search finds a path and goes on. -/
  | emit (p : BasicPath) (rest : Unit → Trace)

namespace Trace

instance : Inhabited Trace := ⟨done⟩

/-- First `t`, then, unless it fails, `u`. -/
def append (t : Trace) (u : Unit → Trace) : Trace :=
  match t with
  | done => u ()
  | fail e => fail e
  | emit p rest => emit p fun _ => (rest ()).append u

/-- The traces of the items of a list, one after the other. -/
def concat {α : Type} (f : α → Trace) : List α → Trace
  | [] => done
  | a :: as => (f a).append fun _ => concat f as

/-- The trace of a single path. -/
def one (p : BasicPath) : Trace := emit p fun _ => done

/-- The trace of a result that may be missing or a defect. -/
def ofResult : Except VerifyError (Option BasicPath) → Trace
  | .ok none => done
  | .ok (some p) => one p
  | .error e => fail e

def toList : Trace → List BasicPath
  | done => []
  | fail _ => []
  | emit p rest => p :: (rest ()).toList

/-- The defect that ends a trace, if one does. -/
def outcome : Trace → Except VerifyError Unit
  | done => .ok ()
  | fail e => .error e
  | emit _ rest => (rest ()).outcome

/-- All paths, or the defect. -/
def collect (t : Trace) : Except VerifyError (List BasicPath) := do
  t.outcome
  return t.toList

/-! ## Laws

Two searches in a row have the paths of both, unless the first one fails; then the second one
contributes nothing, and the failure is the outcome. -/

/-- The paths of two searches in a row. -/
@[simp] theorem toList_append (t : Trace) (u : Unit → Trace) :
    (t.append u).toList =
      t.toList ++ (match t.outcome with | .ok () => (u ()).toList | .error _ => []) := by
  induction t with
  | done => rfl
  | fail e => rfl
  | emit p rest ih => simp [append, toList, outcome, ih]

/-- The end of two searches in a row. -/
@[simp] theorem outcome_append (t : Trace) (u : Unit → Trace) :
    (t.append u).outcome =
      (match t.outcome with | .ok () => (u ()).outcome | .error e => .error e) := by
  induction t with
  | done => rfl
  | fail e => rfl
  | emit p rest ih => simp [append, outcome, ih]

end Trace

end Pathwise
