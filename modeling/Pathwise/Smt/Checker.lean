import Pathwise.Smt.Encode
import Pathwise.Solver.Process
import Pathwise.Verifier

/-!
# Pathwise.Smt.Checker

The validity checker behind a solver.

A formula is valid when its negation is unsatisfiable, so every query asserts the negation and the
answer is read backwards. Registered predicates stay registered; their definitions are part of
every later query, in order of registration.

Each query is a script of its own, with everything that the formula needs: options, declarations
of the free variables and function symbols, definitions of the predicates, and one assertion.
Nothing is kept inside the solver between two queries, and the state of the checker is no more
than the list of predicates and a count.

A symbol that a registered predicate uses is declared with the predicates and not again with the
formula, since a solver refuses a second declaration.
-/

namespace Pathwise.Smt

/-- What the checker remembers between queries. -/
structure CheckerState where
  /-- The registered predicates, in order. -/
  predicates : List Predicate := []
  /-- How many queries were sent. -/
  queries : Nat := 0
  deriving Inhabited

namespace CheckerState

/-- The function symbols of the registered predicates, in name order. Of two predicates
that use a symbol the later one fixes its types. -/
def symbols (s : CheckerState) : SortedMap String Expr.SymbolTypes :=
  s.predicates.foldl (fun out q => out.union q.body.functionSymbols) .empty

/-- Whether a command declares one of the given symbols. -/
def declares (symbols : SortedMap String Expr.SymbolTypes) : Command → Bool
  | .declareFun name _ _ => symbols.contains name
  | _ => false

/-- The script that decides a formula. -/
def script (s : CheckerState) (e : Expr) : Script :=
  [.setOption "produce-models" "true", .setLogic "ALL"] ++
    e.declarations.filter (fun c => !declares s.symbols c) ++
    s.symbols.entries.map (fun (f, types) => declareSymbol f types) ++
    s.predicates.map Predicate.definition ++
    [.assert (.not e.encode), .checkSat, .getModel]

end CheckerState

/-- The part of a model that is about the free variables of a formula. -/
def counterModel (e : Expr) (model : Option Model) : CounterModel :=
  .ofList ((model.getD []).filter fun a => e.hasFree a.1)

/-- What the answer to the negation of a formula says about the formula. -/
def validity (e : Expr) : SolverAnswer → Validity
  | .unsat => .valid
  | .sat model => .invalid (counterModel e model)
  | .unknown reason => .unknown reason

/-- The checker that asks a backend. -/
def checker {m : Type → Type} [Monad m] (backend : Backend m) :
    Checker SolverError (StateT CheckerState m) where
  define q := do
    modify fun s => { s with predicates := s.predicates ++ [q] }
    return .ok ()
  check e := do
    let script := (← get).script e
    modify fun s => { s with queries := s.queries + 1 }
    return (← backend script).map (validity e)
  message := SolverError.message

/-- Verify a program with a fresh checker on a backend. -/
def verify {m : Type → Type} [Monad m] (backend : Backend m) (p : Program) (keepGoing : Bool) :
    m (Except VerifyError ProgramReport) := do
  let (report, _) ← ((checker backend).verify p keepGoing).run {}
  return report

end Pathwise.Smt
