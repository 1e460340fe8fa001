import Pathwise.Smt.Sexp

/-!
# Pathwise.Smt.Model

The constants of a model, read from the list of definitions a solver prints.

A definition without parameters gives a constant its value; other definitions describe auxiliary
functions and are skipped. Definitions may stand at any depth, so the bare list and the list
headed by `model` are read alike.

Values stay text here. What sort a value has is known to the one who asked and not to the model,
so it is read where it is used, by `Value.parseScalar?`; arrays are shown as the solver wrote
them.
-/

namespace Pathwise.Smt

/-- Values of constants as text, in the order the solver printed them. -/
abbrev Model := List (String × String)

namespace Sexp

/-- The name of an atom without the bars around it. -/
def unbar (name : String) : String := String.ofList (Text.trimWhile (· = '|') name.toList)

/-- The constant that the items of a definition define, if it has no parameters. -/
def constant? : List Sexp → Option (String × String)
  | [_, atom name, list [], _, value] => some (unbar name, value.render)
  | _ => none

/-- Whether the items of a list are those of a definition. -/
def isDefinition : List Sexp → Bool
  | atom head :: _ => head = "define-fun"
  | _ => false

mutual

/-- The constants defined in an expression. -/
def definitions : Sexp → Model
  | atom _ => []
  | list items => if isDefinition items then (constant? items).toList else definitionsList items

/-- The constants defined in a list of expressions. -/
def definitionsList : List Sexp → Model
  | [] => []
  | s :: ss => definitions s ++ definitionsList ss

end

end Sexp

/-- The start of a definition as solvers lay it out. -/
def definitionMark : String := "(define-fun "

/-- The model in the text after a positive answer. A text without the start of a
definition holds no model, whatever else it holds; neither does one that defines no
constant. -/
def Model.parse (text : String) : Except SexpError (Option Model) := do
  if !Text.contains text definitionMark then return none
  let model := Sexp.definitionsList (← Sexp.parse text)
  return if model.isEmpty then none else some model

end Pathwise.Smt
