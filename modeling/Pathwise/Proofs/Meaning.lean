import Pathwise.Program.Basic

/-!
# Pathwise.Proofs.Meaning

What expressions mean, as opposed to what evaluation computes.

* Integers have no bounds, arrays are total maps, and quantifiers range over all integers.
* A `Meaning` fixes everything that the integers leave open: what floats stand for, the quotient
  by zero, the function symbols and the predicates. All results hold for every choice of it.
* A `State` has a cell for each name and type, and each cell holds a value of its type. A program
  uses a name at one type, so only one of the cells of a name matters to it.

`Expr.value` is total. It follows the static type of an expression (`Expr.ty_value`), and so is of
interest for well-typed expressions only.

This is the logic that verification conditions are formulas of. A condition is valid if it holds
in all states (`Expr.Valid`), and that is what a sound checker reports. Floats are left abstract,
down to their comparison: no result about conditions depends on how they are represented.

Since cells are typed, assigning to a name at one type leaves its other cells alone. A state thus
never has to be checked for holding values of the right types; the price is that hypotheses about
names have to say that a name is used at one type, where that matters.
-/

namespace Pathwise

/-- What the elements of an array range over, where `N` holds the values of floats. -/
def ScalarTy.Carrier (N : Type) : ScalarTy → Type
  | .int => Int
  | .float => N
  | .bool => Bool

/-- A value of any type. -/
inductive Datum (N : Type) where
  | int (n : Int)
  | float (x : N)
  | bool (b : Bool)
  /-- A total map from the integers. -/
  | array (elem : ScalarTy) (m : Int → elem.Carrier N)

namespace Datum

variable {N : Type}

def ty : Datum N → Ty
  | int _ => .int
  | float _ => .float
  | bool _ => .bool
  | array elem _ => .array elem

/-- The integer that a value is, and zero for other values. -/
def asInt : Datum N → Int
  | int n => n
  | _ => 0

/-- The truth value that a value is, and `false` for other values. -/
def asBool : Datum N → Bool
  | bool b => b
  | _ => false

/-- An element of an array as a value. -/
def ofElement : (elem : ScalarTy) → elem.Carrier N → Datum N
  | .int, n => int n
  | .float, x => float x
  | .bool, b => bool b

/-- A value as an element of an array; `zero` stands in for what is no float. -/
def toElement (zero : N) (elem : ScalarTy) (d : Datum N) : elem.Carrier N :=
  match elem, d with
  | .int, d => d.asInt
  | .float, float x => x
  | .float, _ => zero
  | .bool, d => d.asBool

/-- The element of an array at an index. What is no array is given back, so that reading is total.
-/
def select (a i : Datum N) : Datum N :=
  match a with
  | array elem m => ofElement elem (m i.asInt)
  | d => d

/-- An array with the element at one index replaced. What is no array stays as it is. -/
def store (zero : N) (a i d : Datum N) : Datum N :=
  match a with
  | array elem m => array elem fun j => if j = i.asInt then d.toElement zero elem else m j
  | a => a

@[simp] theorem ty_int (n : Int) : (int n : Datum N).ty = .int := rfl

@[simp] theorem ty_float (x : N) : (float x : Datum N).ty = .float := rfl

@[simp] theorem ty_bool (b : Bool) : (bool b : Datum N).ty = .bool := rfl

@[simp] theorem ty_array (elem : ScalarTy) (m : Int → elem.Carrier N) :
    (array elem m : Datum N).ty = .array elem := rfl

@[simp] theorem asBool_bool (b : Bool) : (bool b : Datum N).asBool = b := rfl

@[simp] theorem asInt_int (n : Int) : (int n : Datum N).asInt = n := rfl

theorem ty_ofElement (elem : ScalarTy) (x : elem.Carrier N) :
    (ofElement elem x).ty = elem.toTy := by cases elem <;> rfl

/-- Reading gives an element, and leaves alone what is no array. -/
theorem ty_select (a i : Datum N) : (a.select i).ty = a.ty.element?.getD a.ty := by
  cases a with
  | array elem m => exact ty_ofElement elem _
  | _ => rfl

theorem ty_store (zero : N) (a i d : Datum N) : (a.store zero i d).ty = a.ty := by
  cases a <;> rfl

end Datum

/-- A fixed choice of everything that the integers leave open: what floats are, division by zero,
and what function symbols and predicates stand for. -/
structure Meaning where
  /-- The values of floats. -/
  Num : Type
  /-- Some value of floats. -/
  zero : Num
  literal : Float → Num
  negate : Num → Num
  arith : BinOp → Num → Num → Num
  /-- Comparison of numbers, equality included. -/
  compare : BinOp → Num → Num → Bool
  /-- Quotient and remainder of an integer by zero. -/
  byZero : BinOp → Int → Int
  /-- The function symbols, at a result type. -/
  function : String → List (Datum Num) → Ty → Datum Num
  /-- A function symbol gives a value of the result type. -/
  function_ty : ∀ f ds t, (function f ds t).ty = t
  /-- The predicates, on arguments followed by the lengths of the arrays among them. -/
  predicate : String → List (Datum Num) → Bool

/-! ## Operators

Operators are total functions on values. On operands of the wrong types they give something of the
type that the static rules expect, so that the type of a value is always the type of its
expression. -/

def UnOp.meaning (M : Meaning) (op : UnOp) (d : Datum M.Num) : Datum M.Num :=
  match op, d with
  | .neg, .int n => .int (-n)
  | .neg, .float x => .float (M.negate x)
  | .neg, d => d
  | .not, d => .bool !d.asBool

namespace BinOp

/-- Arithmetic on integers; quotient and remainder are Euclidean. -/
def onIntegers (M : Meaning) (op : BinOp) (a b : Int) : Int :=
  match op with
  | .add => a + b
  | .sub => a - b
  | .mul => a * b
  | .div => if b = 0 then M.byZero .div a else a / b
  | .mod => if b = 0 then M.byZero .mod a else a % b
  | _ => a

def orders (op : BinOp) (a b : Int) : Bool :=
  match op with
  | .lt => a < b
  | .le => a ≤ b
  | .gt => b < a
  | _ => b ≤ a

open Classical in
/-- Comparison of values. -/
noncomputable def compares (M : Meaning) (op : BinOp) (l r : Datum M.Num) : Bool :=
  match op, l, r with
  | op, .float x, .float y => M.compare op x y
  | .eq, l, r => l = r
  | .ne, l, r => l ≠ r
  | op, l, r => op.orders l.asInt r.asInt

def connects (op : BinOp) (a b : Bool) : Bool :=
  match op with
  | .and => a && b
  | .or => a || b
  | .implies => !a || b
  | _ => a == b

noncomputable def meaning (M : Meaning) (op : BinOp) (l r : Datum M.Num) : Datum M.Num :=
  if op.isArithmetic then
    match l, r with
    | .int a, .int b => .int (op.onIntegers M a b)
    | .float x, .float y => .float (M.arith op x y)
    | l, _ => l
  else if op.isComparison then .bool (op.compares M l r)
  else .bool (op.connects l.asBool r.asBool)

/-- An arithmetic operation is of the type of its left operand, every other one is a truth value.
-/
theorem ty_meaning (M : Meaning) (op : BinOp) (l r : Datum M.Num) :
    (op.meaning M l r).ty = if op.isArithmetic then l.ty else .bool := by
  unfold meaning
  by_cases ha : op.isArithmetic
  · rw [if_pos ha, if_pos ha]
    split <;> rfl
  · rw [if_neg ha, if_neg ha]
    split <;> rfl

end BinOp

open Classical in
/-- A quantifier over all integers. -/
noncomputable def Quantifier.meaning (q : Quantifier) (holds : Int → Bool) : Bool :=
  match q with
  | .all => ∀ n, holds n
  | .any => ∃ n, holds n

/-! ## States

A state is a family of values, with the proof that each is of its type. Setting a cell changes one
name at one type. -/

/-- A state: a value of each type for each name. A name may be used at several types, and then has
several cells. -/
@[ext] structure State (M : Meaning) where
  read : String → Ty → Datum M.Num
  typed : ∀ x t, (read x t).ty = t

namespace State

variable {M : Meaning}

/-- The state with `d` in the cell of name `x` that is for values like `d`. Cells of the same name
for other types stay as they are. -/
def set (s : State M) (x : String) (d : Datum M.Num) : State M where
  read y t := if y = x ∧ t = d.ty then d else s.read y t
  typed y t := by
    by_cases h : y = x ∧ t = d.ty
    · rw [if_pos h, h.2]
    · rw [if_neg h, s.typed y t]

theorem read_set (s : State M) (x : String) (d : Datum M.Num) (y : String) (t : Ty) :
    (s.set x d).read y t = if y = x ∧ t = d.ty then d else s.read y t := rfl

@[simp] theorem read_set_self (s : State M) (x : String) (d : Datum M.Num) :
    (s.set x d).read x d.ty = d := if_pos ⟨rfl, rfl⟩

theorem read_set_of_ne (s : State M) {x y : String} (d : Datum M.Num) (t : Ty) (h : y ≠ x) :
    (s.set x d).read y t = s.read y t := if_neg fun hc => h hc.1

theorem exists_int (s : State M) (x : String) : ∃ n, s.read x .int = .int n := by
  have h := s.typed x .int
  cases hd : s.read x .int with
  | int n => exact ⟨n, rfl⟩
  | _ =>
      rw [hd] at h
      cases h

end State

/-! ## Expressions

The value of an expression by recursion, with lists of arguments and their lengths beside it. The
induction principle that comes first is the one used throughout, since the one that Lean derives
has a separate motive for lists. -/

namespace Expr

/-- Induction over expressions, with the hypothesis for every item of a list of
arguments. -/
@[induction_eliminator]
theorem induct {motive : Expr → Prop}
    (var : ∀ v, motive (.var v)) (int : ∀ n, motive (.int n)) (float : ∀ x, motive (.float x))
    (bool : ∀ b, motive (.bool b)) (unary : ∀ op e, motive e → motive (.unary op e))
    (binary : ∀ op l r, motive l → motive r → motive (.binary op l r))
    (quant : ∀ q v body, motive body → motive (.quant q v body))
    (read : ∀ array index, motive array → motive index → motive (.read array index))
    (update : ∀ array index value length, motive array → motive index → motive value →
      motive length → motive (.update array index value length))
    (call : ∀ f args ty, (∀ e ∈ args, motive e) → motive (.call f args ty))
    (app : ∀ p args, (∀ e ∈ args, motive e) → motive (.app p args)) (e : Expr) : motive e :=
  @Expr.rec motive (fun es => ∀ e ∈ es, motive e) var int float bool unary binary quant read
    update call app (fun _ h => nomatch h)
    (fun _ _ he hes _ h => (List.mem_cons.1 h).elim (fun h => h ▸ he) (hes _)) e

mutual

/-- The value of an expression in a state. -/
noncomputable def value (M : Meaning) : Expr → State M → Datum M.Num
  | var v, s => s.read v.name v.ty
  | int n, _ => .int n.toInt
  | float x, _ => .float (M.literal x)
  | bool b, _ => .bool b
  | unary op e, s => op.meaning M (value M e s)
  | binary op l r, s => op.meaning M (value M l s) (value M r s)
  | quant q v body, s =>
    .bool (q.meaning fun n => (value M body (s.set v.name (.int n))).asBool)
  | read array index, s => (value M array s).select (value M index s)
  | update array index val _, s =>
    (value M array s).store M.zero (value M index s) (value M val s)
  | call f args ty, s => M.function f (values M args s) ty
  | app p args, s => .bool (M.predicate p (values M args s ++ lengths M args s))

noncomputable def values (M : Meaning) : List Expr → State M → List (Datum M.Num)
  | [], _ => []
  | e :: es, s => value M e s :: values M es s

/-- The lengths that go along with the array-typed expressions of a list. -/
noncomputable def lengths (M : Meaning) : List Expr → State M → List (Datum M.Num)
  | [], _ => []
  | e :: es, s =>
    (if e.ty.isArray then (lengthValue? M e s).toList else []) ++ lengths M es s

/-- The value of the length of an array expression. -/
noncomputable def lengthValue? (M : Meaning) : Expr → State M → Option (Datum M.Num)
  | var v, s => v.length?.map fun l => s.read l.name l.ty
  | update _ _ _ length, s => some (value M length s)
  | _, _ => none

end

/-- The length value of an expression is the value of its length term. -/
theorem lengthValue?_eq (M : Meaning) (e : Expr) (s : State M) :
    e.lengthValue? M s = e.arrayLength?.map fun n => n.value M s := by
  cases e with
  | var v => cases h : v.length? <;> simp [lengthValue?, arrayLength?, value, h]
  | update a i x n => simp [lengthValue?, arrayLength?]
  | _ => simp [lengthValue?, arrayLength?]

/-- A value is of the static type of its expression. This holds of all expressions, since
operators give some value of their result type to operands of any types. -/
theorem ty_value (M : Meaning) (e : Expr) (s : State M) : (e.value M s).ty = e.ty := by
  induction e generalizing s with
  | var v => simpa [value, ty] using s.typed v.name v.ty
  | int n => simp [value, ty]
  | float x => simp [value, ty]
  | bool b => simp [value, ty]
  | unary op e ih =>
      cases op with
      | neg =>
          rw [value, ty, ← ih s]
          cases value M e s <;> rfl
      | not => simp [value, ty, UnOp.meaning]
  | binary op l r ihl ihr => rw [value, ty, BinOp.ty_meaning, ihl]
  | quant q v body ih => simp [value, ty]
  | read a i iha ihi => rw [value, ty, Datum.ty_select, iha]
  | update a i x n iha _ _ _ => rw [value, ty, Datum.ty_store, iha]
  | call f args t => rw [value, ty, M.function_ty]
  | app p args => simp [value, ty]

/-- Whether a formula is true in a state. -/
def Holds (M : Meaning) (s : State M) (e : Expr) : Prop := (e.value M s).asBool = true

/-- A formula that is true in all states. What is left open by the theory is fixed by the meaning,
so validity is relative to it. -/
def Valid (M : Meaning) (e : Expr) : Prop := ∀ s, e.Holds M s

theorem holds_and {M : Meaning} {s : State M} {l r : Expr} :
    (l.and r).Holds M s ↔ l.Holds M s ∧ r.Holds M s := by
  simp [Holds, Expr.and, value, BinOp.meaning, BinOp.isArithmetic, BinOp.isComparison,
    BinOp.connects]

theorem holds_implies {M : Meaning} {s : State M} {l r : Expr} :
    (l.implies r).Holds M s ↔ (l.Holds M s → r.Holds M s) := by
  cases h : (l.value M s).asBool <;>
    simp [Holds, Expr.implies, value, BinOp.meaning, BinOp.isArithmetic, BinOp.isComparison,
      BinOp.connects, h]

/-- Equality of anything but floats is equality of values. For floats it is a comparison that the
meaning provides. -/
theorem holds_eq {M : Meaning} {s : State M} {l r : Expr} (hl : l.ty ≠ .float) :
    (binary .eq l r).Holds M s ↔ l.value M s = r.value M s := by
  rw [← ty_value M l s] at hl
  simp only [Holds, value, BinOp.meaning, BinOp.isArithmetic, BinOp.isComparison]
  cases hv : l.value M s with
  | float x => simp [hv] at hl
  | _ => simp [BinOp.compares]

theorem holds_le_self {M : Meaning} {s : State M} {e : Expr} (he : e.ty = .int) :
    (binary .le e e).Holds M s := by
  rw [← ty_value M e s] at he
  simp only [Holds, value, BinOp.meaning, BinOp.isArithmetic, BinOp.isComparison]
  cases hv : e.value M s with
  | int n => simp [BinOp.compares, BinOp.orders]
  | _ => simp [hv, Datum.ty] at he

/-- A universal formula is true if its body is, whatever integer the bound name holds. -/
theorem holds_all {M : Meaning} {s : State M} {v : Variable} {body : Expr} :
    (quant .all v body).Holds M s ↔ ∀ n, body.Holds M (s.set v.name (.int n)) := by
  simp [Holds, value, Quantifier.meaning]

theorem holds_true {M : Meaning} {s : State M} : (Expr.bool true).Holds M s := by
  simp [Holds, value]

end Expr

end Pathwise
