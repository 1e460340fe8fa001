import Pathwise.Program.Basic

/-!
# Pathwise.Path.Basic

Basic paths: straight runs of blocks between two points where a fact is known or has to be shown.

A path starts at the entry of a function, where the precondition is known, or at a loop head,
where the invariant is. It ends at the exit or a loop head, or inside a block just before an
assertion or a call, and its obligation has to hold there.

A path carries all that its verification condition is made of, the formula that is known, the
statements in between and the formula to be shown. The blocks are kept beside the statements for
the route that messages show. Loops are cut at their heads, so that a function has finitely many
paths although it may have infinitely many executions.
-/

namespace Pathwise

/-- Where a path begins. -/
inductive PathStart where
  | precondition
  | loopHead (id : BlockId)
  deriving Repr, DecidableEq, Inhabited

/-- What the end of a path has to show. -/
inductive ObligationKind where
  | postcondition
  /-- The invariant holds when the loop is entered. -/
  | established (head : BlockId)
  /-- The invariant holds again after a round of the loop. -/
  | maintained (head : BlockId)
  /-- An assertion holds. -/
  | assertion (ordinal : Nat)
  /-- The precondition of a callee holds at the call. -/
  | callPrecondition (ordinal : Nat) (callee : String)
  deriving Repr, DecidableEq, Inhabited

def ObligationKind.text : ObligationKind → String
  | postcondition => "postcondition"
  | established head => s!"invariant of _LOOPHEAD#{head} on entry"
  | maintained head => s!"invariant of _LOOPHEAD#{head} preserved"
  | assertion ordinal => s!"assertion #{ordinal}"
  | callPrecondition ordinal callee => s!"precondition of `{callee}` at call #{ordinal}"

/-- A block on a path, with those of its statements that the path runs through. That is all of
them, unless the path ends inside the block. -/
structure Segment where
  block : BlockId
  /-- An initial part of its statements. -/
  statements : List Statement
  deriving Inhabited

/-- A basic path with its obligation. -/
structure BasicPath where
  start : PathStart
  /-- What is known at the start. -/
  known : Expr
  segments : List Segment
  /-- What has to hold at its end. -/
  obligation : Expr
  /-- Why it has to hold. -/
  kind : ObligationKind
  deriving Inhabited

namespace BasicPath

/-- The label of a block of `f`, or its bare number if there is no such block. -/
def labelIn (f : Function) (id : BlockId) : String :=
  match f.block? id with
  | some b => b.label
  | none => "#" ++ toString id

/-- The labels along the path, for instance `_PRECOND#0 -> _BASIC#2`. A loop head that
starts the path is not repeated as its first segment. -/
def route (p : BasicPath) (f : Function) : String :=
  let first := match p.start with
    | .precondition => labelIn f f.entry
    | .loopHead id => labelIn f id
  let others := (p.segments.filter fun s => PathStart.loopHead s.block ≠ p.start).map
    fun s => labelIn f s.block
  " -> ".intercalate (first :: others)

/-- Obligation and route in one line. -/
def describe (p : BasicPath) (f : Function) : String := p.kind.text ++ " along " ++ p.route f

end BasicPath

end Pathwise
