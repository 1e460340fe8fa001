import Pathwise.Proofs.Binding
import Pathwise.Path.Wlp

/-!
# Pathwise.Proofs.Hygiene

The naming discipline that verification relies on.

Substitution works by name and does not rename. So the names of a function must say which variable
is meant, quantifiers must keep to names of their own, and the names of fresh variables must be
free (`Program.Hygienic`). Two arrays of a function must not share a length either, and a length
must not be a parameter or result on its own (`Program.OwnLengths`): a length that a predicate
application passes along is no part of the expression, and is replaced only where its array is.

The discipline comes in two strengths. `Program.Disciplined` is about each function by itself, and
is what the types of conditions need. `Program.Hygienic` extends it by what relates functions to
one another, since the contract of a callee is put into the conditions of its callers, and by what
the truth of conditions needs.

Validation checks none of this. All of it can be decided, and there are instances for it, so that
the examples of later modules are checked by evaluation. Where a condition is not met,
verification may go wrong; the modules that assume the discipline have examples for that too.

Ranking functions are left out throughout, since no condition mentions them.
-/

namespace Pathwise

/-! ## What the parts of a program mention

Expressions, targets and variables of a function, collected over its blocks. The lemmas say that
what a single block or statement mentions is among them. -/

def Action.exprs : Action → List Expr
  | assign _ value => [value]
  | store _ index value => [index, value]
  | call _ _ args => args
  | assert condition => [condition]
  | assume condition => [condition]

def Action.targets : Action → List Variable
  | assign target _ => [target]
  | store array _ _ => [array]
  | call targets _ _ => targets
  | assert _ => []
  | assume _ => []

/-- The id of the function that an action calls. -/
def Action.callee? : Action → Option FunctionId
  | call _ callee _ => some callee
  | _ => none

def BlockKind.annotation? : BlockKind → Option Expr
  | precondition condition _ => some condition
  | postcondition condition => some condition
  | basic => none
  | loopHead invariant _ => some invariant

def Block.exprs (b : Block) : List Expr :=
  b.kind.annotation?.toList ++ b.statements.flatMap fun s => s.action.exprs

namespace Function

def exprs (f : Function) : List Expr := f.blocks.flatMap Block.exprs

def targets (f : Function) : List Variable :=
  f.blocks.flatMap fun b => b.statements.flatMap fun s => s.action.targets

/-- All variables of a function, bound ones and lengths included. What hygiene asks of names is
asked of these. -/
def mentions (f : Function) : List Variable :=
  (f.parameters ++ f.results ++ f.targets).flatMap Variable.withLength ++
    f.exprs.flatMap Expr.mentions

/-- The variables of a function that stand for cells of the state: parameters, results and
locals. -/
def stateVariables (f : Function) : List Variable :=
  (f.parameters ++ f.results ++ f.targets ++ f.exprs.flatMap (Expr.reads [])).flatMap
    Variable.withLength

/-- The names that quantifiers of a function bind. -/
def binders (f : Function) : List String := f.exprs.flatMap Expr.binders

/-- The names of the lengths of arrays. -/
def lengthNames (f : Function) : List String :=
  f.mentions.filterMap fun v => v.length?.map Variable.name

/-- The names that a precondition may mention: the parameters and their lengths. -/
def parameterNames (f : Function) : List String :=
  (f.parameters.flatMap Variable.withLength).map Variable.name

/-- The names of the results and their lengths. -/
def resultNames (f : Function) : List String :=
  (f.results.flatMap Variable.withLength).map Variable.name

variable {f : Function} {i : BlockId} {b : Block} {e : Expr}

theorem mem_exprs_of_annotation (hb : f.block? i = some b) (he : b.kind.annotation? = some e) :
    e ∈ f.exprs :=
  List.mem_flatMap.2 ⟨b, List.mem_of_getElem? hb, List.mem_append_left _ (by simp [he])⟩

theorem mem_exprs_of_action (hb : f.block? i = some b) {a : Statement} (ha : a ∈ b.statements)
    (he : e ∈ a.action.exprs) : e ∈ f.exprs :=
  List.mem_flatMap.2 ⟨b, List.mem_of_getElem? hb,
    List.mem_append_right _ (List.mem_flatMap.2 ⟨a, ha, he⟩)⟩

theorem mem_targets_of_action (hb : f.block? i = some b) {a : Statement} (ha : a ∈ b.statements)
    {v : Variable} (hv : v ∈ a.action.targets) : v ∈ f.targets :=
  List.mem_flatMap.2 ⟨b, List.mem_of_getElem? hb, List.mem_flatMap.2 ⟨a, ha, hv⟩⟩

theorem annotation_of_precondition? (h : f.precondition? = some e) :
    ∃ i b, f.block? i = some b ∧ b.kind.annotation? = some e := by
  unfold precondition? at h
  split at h
  · next hb =>
      cases h
      exact ⟨_, _, hb, rfl⟩
  · cases h

theorem annotation_of_postcondition? (h : f.postcondition? = some e) :
    ∃ i b, f.block? i = some b ∧ b.kind.annotation? = some e := by
  unfold postcondition? at h
  split at h
  · next hb =>
      cases h
      exact ⟨_, _, hb, rfl⟩
  · cases h

theorem mem_exprs_of_precondition? (h : f.precondition? = some e) : e ∈ f.exprs := by
  obtain ⟨i, b, hb, he⟩ := annotation_of_precondition? h
  exact mem_exprs_of_annotation hb he

theorem mem_exprs_of_postcondition? (h : f.postcondition? = some e) : e ∈ f.exprs := by
  obtain ⟨i, b, hb, he⟩ := annotation_of_postcondition? h
  exact mem_exprs_of_annotation hb he

end Function

/-- A name that only fresh variables may have. The mark may stand anywhere in it, as in the name
of the length of a fresh array. -/
def Reserved (x : String) : Prop := "$post".toList <:+: x.toList

instance (x : String) : Decidable (Reserved x) := inferInstanceAs (Decidable (_ <:+: _))

/-! ## The discipline

Structures of conditions on names, each quantified over the functions of a program. They are
decidable, because a program is finite and its variables can be compared. -/

/-- The variables of array types, and no others, are arrays. -/
def Program.ArrayKinds (p : Program) : Prop :=
  ∀ f ∈ p.functions, ∀ v ∈ f.mentions, v.isArray = v.ty.isArray

/-- The names of each function are unique in it. Different functions may use the same names,
for variables of the one and quantifiers of the other as well. -/
structure Program.Disciplined (p : Program) : Prop where
  /-- Inside a function a name has one type and one kind. -/
  unique : ∀ f ∈ p.functions, ∀ v ∈ f.mentions, ∀ w ∈ f.mentions, v.name = w.name → v = w
  /-- The variables of array types, and no others, are arrays. -/
  kinds : p.ArrayKinds
  /-- Quantifiers bind names that their function does not use otherwise. -/
  binders : ∀ f ∈ p.functions, ∀ x ∈ f.binders, ∀ v ∈ f.stateVariables, v.name ≠ x

/-- The discipline for the names of a program. Conditions of a callee are put into the conditions
of its callers, so quantifiers have to keep away from the names of all functions, and fresh
variables and lengths must not be mistaken for others. -/
structure Program.Hygienic (p : Program) : Prop extends p.Disciplined where
  /-- Quantifiers bind names that no function uses otherwise. -/
  across : ∀ f ∈ p.functions, ∀ g ∈ p.functions, ∀ x ∈ f.binders, ∀ v ∈ g.stateVariables,
    v.name ≠ x
  /-- No variable has a name for fresh variables. -/
  reserved : ∀ f ∈ p.functions, ∀ v ∈ f.mentions, ¬ Reserved v.name
  /-- Lengths are not assigned on their own. -/
  lengths : ∀ f ∈ p.functions, ∀ v ∈ f.targets, v.name ∉ f.lengthNames
  /-- A precondition mentions parameters and their lengths. -/
  preconditions : ∀ f ∈ p.functions, ∀ c ∈ f.precondition?, ∀ v ∈ c.reads [],
    v.name ∈ f.parameterNames
  /-- A postcondition mentions parameters, results and their lengths. -/
  postconditions : ∀ f ∈ p.functions, ∀ c ∈ f.postcondition?, ∀ v ∈ c.reads [],
    v.name ∈ f.parameterNames ++ f.resultNames

/-- Every length belongs to one array. Lengths are then changed through their arrays only, which
is how the conditions change them. -/
structure Program.OwnLengths (p : Program) : Prop where
  /-- No two arrays of a function share their length. -/
  own : ∀ f ∈ p.functions, ∀ v ∈ f.mentions, ∀ w ∈ f.mentions, v.length?.isSome →
    v.length? = w.length? → v = w
  /-- No parameter or result is the length of an array. -/
  noLength : ∀ f ∈ p.functions, ∀ v ∈ f.parameters ++ f.results, v.name ∉ f.lengthNames

instance (p : Program) : Decidable p.ArrayKinds :=
  inferInstanceAs (Decidable (∀ f ∈ p.functions, ∀ v ∈ f.mentions, v.isArray = v.ty.isArray))

instance (p : Program) : Decidable p.Disciplined :=
  decidable_of_iff
    ((∀ f ∈ p.functions, ∀ v ∈ f.mentions, ∀ w ∈ f.mentions, v.name = w.name → v = w) ∧
      p.ArrayKinds ∧ ∀ f ∈ p.functions, ∀ x ∈ f.binders, ∀ v ∈ f.stateVariables, v.name ≠ x)
    ⟨fun ⟨h₁, h₂, h₃⟩ => ⟨h₁, h₂, h₃⟩, fun ⟨h₁, h₂, h₃⟩ => ⟨h₁, h₂, h₃⟩⟩

instance (p : Program) : Decidable p.Hygienic :=
  decidable_of_iff
    (p.Disciplined ∧
      (∀ f ∈ p.functions, ∀ g ∈ p.functions, ∀ x ∈ f.binders, ∀ v ∈ g.stateVariables,
        v.name ≠ x) ∧
      (∀ f ∈ p.functions, ∀ v ∈ f.mentions, ¬ Reserved v.name) ∧
      (∀ f ∈ p.functions, ∀ v ∈ f.targets, v.name ∉ f.lengthNames) ∧
      (∀ f ∈ p.functions, ∀ c ∈ f.precondition?, ∀ v ∈ c.reads [],
        v.name ∈ f.parameterNames) ∧
      (∀ f ∈ p.functions, ∀ c ∈ f.postcondition?, ∀ v ∈ c.reads [],
        v.name ∈ f.parameterNames ++ f.resultNames))
    ⟨fun ⟨h₁, h₂, h₃, h₄, h₅, h₆⟩ => ⟨h₁, h₂, h₃, h₄, h₅, h₆⟩,
      fun ⟨h₁, h₂, h₃, h₄, h₅, h₆⟩ => ⟨h₁, h₂, h₃, h₄, h₅, h₆⟩⟩

instance (p : Program) : Decidable p.OwnLengths :=
  decidable_of_iff
    ((∀ f ∈ p.functions, ∀ v ∈ f.mentions, ∀ w ∈ f.mentions, v.length?.isSome →
        v.length? = w.length? → v = w) ∧
      ∀ f ∈ p.functions, ∀ v ∈ f.parameters ++ f.results, v.name ∉ f.lengthNames)
    ⟨fun ⟨h₁, h₂⟩ => ⟨h₁, h₂⟩, fun ⟨h₁, h₂⟩ => ⟨h₁, h₂⟩⟩

end Pathwise
