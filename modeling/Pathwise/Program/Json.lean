import Pathwise.Json.Reader
import Pathwise.Program.Validate

/-!
# Pathwise.Program.Json

Programs as JSON.

The form is one object per record and one single-member object per variant, with the variant's
name as the key. A record may also be an array of its fields in order, and a variant without data
is its bare name or its name with `null`. Unknown members are ignored; missing and repeated ones
are errors.

Every reader takes the number of nested arrays and objects it may still enter, which bounds the
depth of a program file and the recursion alike. The number goes down by one where a reader enters
an array or object, so a reader of records starts with a pattern `depth + 1`, and a variant that
holds a record with `depth + 2`.

What is written of a program is read back as that program, as long as its numbers fit into 64
bits, the nesting allows it and there are no float literals; `Pathwise.Proofs.RoundTrip` states
that. Reading accepts more than is ever written, since it takes records in the form of
arrays as well.

`Program.parse` reads, and then validates: a text that is no program and a program with a defect
are two kinds of failure.
-/

namespace Pathwise

namespace Json

/-- How deep the arrays and objects of a program file may nest. -/
def nestingLimit : Nat := 127

/-- The value of the member `name`, which must occur exactly once. -/
def unique? (name : String) (members : List (String × Json)) : Option Json :=
  match members.filter fun m => m.1 = name with
  | [(_, j)] => some j
  | _ => none

/-- The fields of a record, in the order of `names`: an object with each of them once, or an array
of exactly as many items. The order of members in an object does not matter. -/
def fields? (names : List String) : Json → Option (List Json)
  | obj members => names.mapM fun name => unique? name members
  | arr items => if items.length = names.length then some items else none
  | _ => none

/-- The name of a variant without data. -/
def plain? (depth : Nat) : Json → Option String
  | str name => some name
  | obj [(name, null)] => if depth = 0 then none else some name
  | _ => none

/-- A list, each item read one level deeper. -/
def list? {α : Type} (item : Nat → Json → Option α) : Nat → Json → Option (List α)
  | depth + 1, arr items => items.mapM (item depth)
  | _, _ => none

def string : Json → Option String
  | str s => some s
  | _ => none

/-- An id or ordinal: an integer that fits into 64 bits. -/
def natural? : Json → Option Nat
  | int n => if 0 ≤ n ∧ n < UInt64.size then some n.toNat else none
  | _ => none

def int64? : Json → Option Int64
  | int n => Pathwise.int64? n
  | _ => none

def bool? : Json → Option Bool
  | bool b => some b
  | _ => none

/-- A float literal, which any number may be. -/
def float? : Json → Option Float
  | int n => (Decimal.Parts.toWord (n < 0) ⟨Decimal.digits n.natAbs, none, none⟩).scaled?
  | real x => some x
  | _ => none

end Json

open Json

/-! ## Reading

One reader per type, in the order in which the types build on each other. A reader gives `none`
for everything that is not the form of its type, without a reason: the only message for a
malformed program is that it is malformed. -/

def ScalarTy.ofJson? (depth : Nat) (j : Json) : Option ScalarTy := do
  match ← plain? depth j with
  | "Int" => some .int
  | "Float" => some .float
  | "Bool" => some .bool
  | _ => none

def Ty.ofJson? (depth : Nat) (j : Json) : Option Ty :=
  match depth, j with
  | depth + 1, obj [("Array", elem)] => (ScalarTy.ofJson? depth elem).map .array
  | depth, j => (ScalarTy.ofJson? depth j).map ScalarTy.toTy

def Signature.ofJson? (depth : Nat) (j : Json) : Option Signature :=
  match depth, fields? ["params", "returns"] j with
  | depth + 1, some [params, returns] => do
    return ⟨← list? Ty.ofJson? depth params, ← list? Ty.ofJson? depth returns⟩
  | _, _ => none

def VariableKind.ofJson? (depth : Nat) (j : Json) : Option VariableKind :=
  match depth, j with
  | depth + 1, obj [("Array", body)] =>
    match depth, fields? ["length"] body with
    | _ + 1, some [length] => length.string.map .array
    | _, _ => none
  | depth, j => do
    match ← plain? depth j with
    | "Local" => some .scalar
    | "Quantified" => some .quantified
    | _ => none

def Variable.ofJson? (depth : Nat) (j : Json) : Option Variable :=
  match depth, fields? ["name", "ty", "kind"] j with
  | depth + 1, some [name, ty, kind] => do
    return ⟨← name.string, ← Ty.ofJson? depth ty, ← VariableKind.ofJson? depth kind⟩
  | _, _ => none

def UnOp.ofJson? (depth : Nat) (j : Json) : Option UnOp := do
  match ← plain? depth j with
  | "Neg" => some .neg
  | "Not" => some .not
  | _ => none

/-- The binary operators by name. -/
def BinOp.names : List (String × BinOp) :=
  [("Add", .add), ("Sub", .sub), ("Mul", .mul), ("Div", .div), ("Mod", .mod), ("Lt", .lt),
   ("Le", .le), ("Gt", .gt), ("Ge", .ge), ("Eq", .eq), ("Ne", .ne), ("And", .and), ("Or", .or),
   ("Implies", .implies), ("Iff", .iff)]

def BinOp.ofJson? (depth : Nat) (j : Json) : Option BinOp := do
  BinOp.names.lookup (← plain? depth j)

def Quantifier.ofJson? (depth : Nat) (j : Json) : Option Quantifier := do
  match ← plain? depth j with
  | "Forall" => some .all
  | "Exists" => some .any
  | _ => none

/-- Read an expression. -/
def Expr.ofJson? : Nat → Json → Option Expr
  | depth + 1, obj [(tag, body)] =>
    match tag, depth with
    | "Var", depth => (Variable.ofJson? depth body).map .var
    | "IntLit", _ => body.int64?.map .int
    | "FloatLit", _ => body.float?.map .float
    | "BoolLit", _ => body.bool?.map .bool
    | "Unary", depth + 1 => do
      let arr [op, e] := body | none
      return .unary (← UnOp.ofJson? depth op) (← Expr.ofJson? depth e)
    | "Binary", depth + 1 => do
      let arr [op, l, r] := body | none
      return .binary (← BinOp.ofJson? depth op) (← Expr.ofJson? depth l) (← Expr.ofJson? depth r)
    | "Quantified", depth + 1 => do
      let [q, v, e] ← fields? ["quantifier", "variable", "body"] body | none
      return .quant (← Quantifier.ofJson? depth q) (← Variable.ofJson? depth v)
        (← Expr.ofJson? depth e)
    | "ArrayRead", depth + 1 => do
      let [a, i] ← fields? ["array", "index"] body | none
      return .read (← Expr.ofJson? depth a) (← Expr.ofJson? depth i)
    | "ArrayUpdate", depth + 1 => do
      let [a, i, v, n] ← fields? ["array", "index", "value", "length"] body | none
      return .update (← Expr.ofJson? depth a) (← Expr.ofJson? depth i) (← Expr.ofJson? depth v)
        (← Expr.ofJson? depth n)
    | "Call", depth + 2 => do
      let [f, args, ty] ← fields? ["function", "args", "ty"] body | none
      let arr args := args | none
      return .call (← f.string) (← args.mapM (Expr.ofJson? depth)) (← Ty.ofJson? (depth + 1) ty)
    | "PredicateApp", depth + 2 => do
      let [p, args] ← fields? ["predicate", "args"] body | none
      let arr args := args | none
      return .app (← p.string) (← args.mapM (Expr.ofJson? depth))
    | _, _ => none
  | _, _ => none

def Action.ofJson? (depth : Nat) (j : Json) : Option Action :=
  match depth, j with
  | depth + 2, obj [(tag, body)] =>
    match tag with
    | "VariableAssign" => do
      let [v, e] ← fields? ["variable", "rhs"] body | none
      return .assign (← Variable.ofJson? depth v) (← Expr.ofJson? depth e)
    | "SubscriptAssign" => do
      let [v, i, e] ← fields? ["array", "index", "rhs"] body | none
      return .store (← Variable.ofJson? depth v) (← Expr.ofJson? depth i) (← Expr.ofJson? depth e)
    | "FunctionCall" => do
      let [lhs, site] ← fields? ["lhs", "call"] body | none
      let depth' + 1 := depth | none
      let [f, args] ← fields? ["function", "args"] site | none
      return .call (← list? Variable.ofJson? depth lhs) (← f.natural?)
        (← list? Expr.ofJson? depth' args)
    | "Assert" => do
      let [e] ← fields? ["annotation"] body | none
      return .assert (← Expr.ofJson? depth e)
    | "Assume" => do
      let [e] ← fields? ["condition"] body | none
      return .assume (← Expr.ofJson? depth e)
    | _ => none
  | _, _ => none

def Statement.ofJson? (depth : Nat) (j : Json) : Option Statement :=
  match depth, fields? ["ordinal", "kind"] j with
  | depth + 1, some [ordinal, kind] => do
    return ⟨← ordinal.natural?, ← Action.ofJson? depth kind⟩
  | _, _ => none

def BlockKind.ofJson? (depth : Nat) (j : Json) : Option BlockKind :=
  match plain? depth j with
  | some "Basic" => some .basic
  | _ =>
    match depth, j with
    | depth + 2, obj [(tag, body)] =>
      match tag with
      | "Precondition" => do
        let [e, ranking] ← fields? ["condition", "ranking_function"] body | none
        return .precondition (← Expr.ofJson? depth e) (← list? Expr.ofJson? depth ranking)
      | "Postcondition" => do
        let [e] ← fields? ["condition"] body | none
        return .postcondition (← Expr.ofJson? depth e)
      | "LoopHead" => do
        let [e, ranking] ← fields? ["invariant", "ranking_function"] body | none
        return .loopHead (← Expr.ofJson? depth e) (← list? Expr.ofJson? depth ranking)
      | _ => none
    | _, _ => none

def Block.ofJson? (depth : Nat) (j : Json) : Option Block :=
  match depth, fields? ["id", "kind", "predecessors", "successors", "statements"] j with
  | depth + 1, some [id, kind, preds, succs, stmts] => do
    return ⟨← id.natural?, ← BlockKind.ofJson? depth kind,
      ← list? (fun _ => natural?) depth preds, ← list? (fun _ => natural?) depth succs,
      ← list? Statement.ofJson? depth stmts⟩
  | _, _ => none

def Function.ofJson? (depth : Nat) (j : Json) : Option Function :=
  match depth, fields? ["name", "ty", "parameters", "rvs", "precondition", "postcondition",
    "blocks"] j with
  | depth + 1, some [name, ty, params, rvs, entry, exit, blocks] => do
    return ⟨← name.string, ← ty.natural?, ← list? Variable.ofJson? depth params,
      ← list? Variable.ofJson? depth rvs, ← entry.natural?, ← exit.natural?,
      ← list? Block.ofJson? depth blocks⟩
  | _, _ => none

def Predicate.ofJson? (depth : Nat) (j : Json) : Option Predicate :=
  match depth, fields? ["name", "ty", "parameters", "expression"] j with
  | depth + 1, some [name, ty, params, body] => do
    return ⟨← name.string, ← ty.natural?, ← list? Variable.ofJson? depth params,
      ← Expr.ofJson? depth body⟩
  | _, _ => none

/-- Read a program. The signatures are interned in turn, so repeated ones collapse. -/
def Program.ofJson? (depth : Nat) (j : Json) : Option Program :=
  match depth, fields? ["types", "functions", "predicates"] j with
  | depth + 1, some [types, functions, predicates] => do
    return ⟨.ofList (← list? Signature.ofJson? depth types),
      ← list? Function.ofJson? depth functions, ← list? Predicate.ofJson? depth predicates⟩
  | _, _ => none

/-- Why a program text is refused. -/
inductive LoadError where
  /-- The text is not the JSON form of a program. -/
  | malformed
  /-- The program has a defect. -/
  | defect (e : ProgramError)

/-- Read a program and check that it is well formed. -/
def Program.parse (text : String) : Except LoadError Program := do
  match (Json.parse? text).bind (Program.ofJson? nestingLimit) with
  | none => .error .malformed
  | some p =>
    match p.validate with
    | .error e => .error (.defect e)
    | .ok () => .ok p

/-! ## Writing

One writer per type, in the same order. Writers use the object form of records and the bare names
of variants only, and the order of members is that of the fields. -/

/-- A variant with data. -/
def Json.variant (tag : String) (body : Json) : Json := obj [(tag, body)]

/-- An id or ordinal. -/
def Json.ofNat (n : Nat) : Json := int n

def ScalarTy.toJson : ScalarTy → Json
  | .int => str "Int"
  | .float => str "Float"
  | .bool => str "Bool"

def Ty.toJson : Ty → Json
  | .int => str "Int"
  | .float => str "Float"
  | .bool => str "Bool"
  | .array elem => variant "Array" elem.toJson

def Signature.toJson (s : Signature) : Json :=
  obj [("params", arr (s.params.map Ty.toJson)), ("returns", arr (s.returns.map Ty.toJson))]

def VariableKind.toJson : VariableKind → Json
  | .scalar => str "Local"
  | .array length => variant "Array" (obj [("length", str length)])
  | .quantified => str "Quantified"

def Variable.toJson (v : Variable) : Json :=
  obj [("name", str v.name), ("ty", v.ty.toJson), ("kind", v.kind.toJson)]

def UnOp.toJson : UnOp → Json
  | .neg => str "Neg"
  | .not => str "Not"

/-- The name of a binary operator. -/
def BinOp.name : BinOp → String
  | .add => "Add"
  | .sub => "Sub"
  | .mul => "Mul"
  | .div => "Div"
  | .mod => "Mod"
  | .lt => "Lt"
  | .le => "Le"
  | .gt => "Gt"
  | .ge => "Ge"
  | .eq => "Eq"
  | .ne => "Ne"
  | .and => "And"
  | .or => "Or"
  | .implies => "Implies"
  | .iff => "Iff"

def Quantifier.toJson : Quantifier → Json
  | .all => str "Forall"
  | .any => str "Exists"

mutual

/-- An expression as JSON. A float literal is written with its shortest digits. -/
def Expr.toJson : Expr → Json
  | .var v => variant "Var" v.toJson
  | .int n => variant "IntLit" (Json.int n.toInt)
  | .float x => variant "FloatLit" (real x)
  | .bool b => variant "BoolLit" (Json.bool b)
  | .unary op e => variant "Unary" (arr [op.toJson, Expr.toJson e])
  | .binary op l r => variant "Binary" (arr [str op.name, Expr.toJson l, Expr.toJson r])
  | .quant q v e => variant "Quantified"
    (obj [("quantifier", q.toJson), ("variable", v.toJson), ("body", Expr.toJson e)])
  | .read a i => variant "ArrayRead" (obj [("array", Expr.toJson a), ("index", Expr.toJson i)])
  | .update a i v n => variant "ArrayUpdate" (obj [("array", Expr.toJson a),
    ("index", Expr.toJson i), ("value", Expr.toJson v), ("length", Expr.toJson n)])
  | .call f args ty => variant "Call"
    (obj [("function", str f), ("args", arr (Expr.toJsonList args)), ("ty", ty.toJson)])
  | .app p args => variant "PredicateApp"
    (obj [("predicate", str p), ("args", arr (Expr.toJsonList args))])

def Expr.toJsonList : List Expr → List Json
  | [] => []
  | e :: es => Expr.toJson e :: Expr.toJsonList es

end

def Action.toJson : Action → Json
  | .assign v e => variant "VariableAssign" (obj [("variable", v.toJson), ("rhs", e.toJson)])
  | .store v i e => variant "SubscriptAssign"
    (obj [("array", v.toJson), ("index", i.toJson), ("rhs", e.toJson)])
  | .call targets f args => variant "FunctionCall"
    (obj [("lhs", arr (targets.map Variable.toJson)),
      ("call", obj [("function", .ofNat f), ("args", arr (Expr.toJsonList args))])])
  | .assert e => variant "Assert" (obj [("annotation", e.toJson)])
  | .assume e => variant "Assume" (obj [("condition", e.toJson)])

def Statement.toJson (s : Statement) : Json :=
  obj [("ordinal", .ofNat s.ordinal), ("kind", s.action.toJson)]

def BlockKind.toJson : BlockKind → Json
  | .precondition e ranking => variant "Precondition"
    (obj [("condition", e.toJson), ("ranking_function", arr (Expr.toJsonList ranking))])
  | .postcondition e => variant "Postcondition" (obj [("condition", e.toJson)])
  | .basic => str "Basic"
  | .loopHead e ranking => variant "LoopHead"
    (obj [("invariant", e.toJson), ("ranking_function", arr (Expr.toJsonList ranking))])

def Block.toJson (b : Block) : Json :=
  obj [("id", .ofNat b.id), ("kind", b.kind.toJson),
    ("predecessors", arr (b.predecessors.map .ofNat)),
    ("successors", arr (b.successors.map .ofNat)),
    ("statements", arr (b.statements.map Statement.toJson))]

def Function.toJson (f : Function) : Json :=
  obj [("name", str f.name), ("ty", .ofNat f.sig),
    ("parameters", arr (f.parameters.map Variable.toJson)),
    ("rvs", arr (f.results.map Variable.toJson)), ("precondition", .ofNat f.entry),
    ("postcondition", .ofNat f.exit), ("blocks", arr (f.blocks.map Block.toJson))]

def Predicate.toJson (q : Predicate) : Json :=
  obj [("name", str q.name), ("ty", .ofNat q.sig),
    ("parameters", arr (q.parameters.map Variable.toJson)), ("expression", q.body.toJson)]

def Program.toJson (p : Program) : Json :=
  obj [("types", arr (p.types.signatures.map Signature.toJson)),
    ("functions", arr (p.functions.map Function.toJson)),
    ("predicates", arr (p.predicates.map Predicate.toJson))]

end Pathwise
