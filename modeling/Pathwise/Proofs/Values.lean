import Pathwise.Eval
import Pathwise.Proofs.Denotation

/-!
# Pathwise.Proofs.Values

Values of evaluation and what they stand for.

A value is a 64-bit integer, a float, a truth value, or an array that is explicit at finitely many
indices. What it stands for (`Value.datum`) is a value without bounds. An array is extended beyond
64 bits by its default.

`Represents` relates the two. The operators of evaluation, with their checks for overflow and for
division by zero, keep to what the operators of terms denote (`UnOp.represents`,
`BinOp.represents`). This needs that no float is involved: equality of floats is not equality of
numbers, and their arithmetic rounds.

Evaluation and denotation disagree about what happens at the edge of an operation, and the lemmas
say where this does not matter. An overflow or a division by zero is an error of evaluation while
the term denotes something, so the lemmas assume that evaluation gives a value. A store of the
default value removes an index from the explicit ones instead of adding it, so elements after a
store are compared by lookup and not by the list of indices.

Connectives are apart. Evaluation stops at the left operand if this settles the result
(`BinOp.settled?`), and then nothing is known about the value of the right one.
-/

namespace Pathwise

open Smt

/-! ## Integers and arrays

The bounds of 64 bits, and lookup in arrays before and after a store. -/

theorem toInt_of_int64? {n : Int} {i : Int64} (h : int64? n = some i) : i.toInt = n := by
  rw [int64?] at h
  split at h
  · next hn =>
      cases h
      rw [Int64.toInt_minValue, Int64.toInt_maxValue] at hn
      exact Int64.toInt_ofInt_of_le (by omega) (by omega)
  · cases h

theorem int64?_toInt (i : Int64) : int64? i.toInt = some i := by
  have hle := i.le_toInt
  have hlt := i.toInt_lt
  rw [int64?, if_pos, Int64.ofInt_toInt]
  rw [Int64.toInt_minValue, Int64.toInt_maxValue]
  omega

/-- The integer fits into 64 bits. -/
def Fits64 (n : Int) : Prop := -9223372036854775808 ≤ n ∧ n ≤ 9223372036854775807

instance (n : Int) : Decidable (Fits64 n) :=
  inferInstanceAs (Decidable (-9223372036854775808 ≤ n ∧ n ≤ 9223372036854775807))

theorem fits64_toInt (a : Int64) : Fits64 a.toInt := ⟨a.le_toInt, Int.le_of_lt_add_one a.toInt_lt⟩

theorem int64?_eq_none_iff {n : Int} : int64? n = none ↔ ¬ Fits64 n := by
  rw [int64?, Fits64, Int64.toInt_minValue, Int64.toInt_maxValue]
  split <;> simp <;> omega

namespace TotalMap

variable {α : Type}

/-- The value at an index without bounds: beyond 64 bits it is the default. -/
def get (m : TotalMap α) (j : Int) : α :=
  match int64? j with
  | some i => m.select i
  | none => m.default

@[simp] theorem get_toInt (m : TotalMap α) (i : Int64) : m.get i.toInt = m.select i := by
  rw [get, int64?_toInt]

variable [BEq α] {m : TotalMap α} {i : Int64} {x : α}

theorem default_store : (m.store i x).default = m.default := by
  rw [store]
  split <;> rfl

/-- Lookup after a store, if values that compare equal to the default are equal to it. Floats
break this, since the two zeros compare equal. -/
theorem select_store (h : x == m.default → x = m.default) (j : Int64) :
    (m.store i x).select j = if j = i then x else m.select j := by
  rw [store]
  split
  · next hx =>
      rw [select, SortedMap.find?_erase]
      by_cases hj : j = i
      · rw [if_pos hj, if_pos hj, Option.getD_none, h hx]
      · rw [if_neg hj, if_neg hj, select]
  · rw [select, SortedMap.find?, SortedMap.insert,
      SortedMap.lookup_place j i x m.explicit.entries fun _ => Int64.lt_irrefl]
    by_cases hj : j = i
    · rw [if_pos hj, if_pos hj, Option.getD_some]
    · rw [if_neg hj, if_neg hj, select, SortedMap.find?]

/-- An element after a store is the one that was stored, the default or what was there before.
This needs nothing about equality, and is enough for types. -/
theorem select_store_cases (j : Int64) :
    (m.store i x).select j = x ∨ (m.store i x).select j = m.default ∨
      (m.store i x).select j = m.select j := by
  rw [store]
  split
  · rw [select, SortedMap.find?_erase]
    split
    · exact Or.inr (Or.inl rfl)
    · exact Or.inr (Or.inr rfl)
  · rw [select, SortedMap.find?, SortedMap.insert,
      SortedMap.lookup_place j i x m.explicit.entries fun _ => Int64.lt_irrefl]
    split
    · exact Or.inl rfl
    · exact Or.inr (Or.inr rfl)

/-- The same for indices without bounds. An index that is stored to fits. -/
theorem get_store (h : x == m.default → x = m.default) (j : Int) :
    (m.store i x).get j = if j = i.toInt then x else m.get j := by
  rw [get, get]
  cases hj : int64? j with
  | none =>
      -- an index beyond 64 bits is none that was stored to
      have hne : j ≠ i.toInt := by
        rintro rfl
        rw [int64?_toInt] at hj
        cases hj
      rw [if_neg hne]
      exact default_store
  | some k =>
      have hk := toInt_of_int64? hj
      simp only [select_store h k, ← hk, Int64.toInt_inj]

end TotalMap

/-! ## Types and data

Types are needed to say which datum a value stands for. An array without explicit elements tells
its type by its default alone. -/

namespace Value

/-- A value is of a type. An array holds elements of one type, and so does its default. -/
inductive HasTy : Value → Ty → Prop where
  | int (n : Int64) : HasTy (.int n) .int
  | float (x : Float) : HasTy (.float x) .float
  | bool (b : Bool) : HasTy (.bool b) .bool
  | array {m : TotalMap Value} {elem : ScalarTy} (default : HasTy m.default elem.toTy)
      (elements : ∀ i, HasTy (m.select i) elem.toTy) : HasTy (.array m) (.array elem)

/-- The type of a value as the element of an array; arrays are no elements. -/
def scalarTy : Value → ScalarTy
  | int _ => .int
  | float _ => .float
  | bool _ => .bool
  | array _ => .bool

/-- A value as the element of an array. -/
def element (S : Structure) : (v : Value) → (elem : ScalarTy) → elem.Carrier S.Num
  | int n, .int => n.toInt
  | float x, .float => S.literal x
  | bool b, .bool => b
  | _, .int => (0 : Int)
  | _, .float => S.zero
  | _, .bool => false

/-- What a value stands for. Integers lose their bounds, and an array becomes a total map on the
integers, with elements of one type. -/
def datum (S : Structure) : Value → Datum S.Num
  | int n => .int n.toInt
  | float x => .float (S.literal x)
  | bool b => .bool b
  | array m => .array m.default.scalarTy fun j => (m.get j).element S m.default.scalarTy

variable {S : Structure} {x y : Value} {elem : ScalarTy} {t : Ty}

theorem HasTy.scalarTy_eq (h : x.HasTy elem.toTy) : x.scalarTy = elem := by
  cases elem <;> cases h <;> rfl

/-- An element of an array stands for the same datum as the value by itself. -/
theorem HasTy.ofElement (h : x.HasTy elem.toTy) :
    Datum.ofElement elem (x.element S elem) = x.datum S := by
  cases elem <;> cases h <;> rfl

theorem HasTy.toElement (h : x.HasTy elem.toTy) :
    (x.datum S).toElement S.zero elem = x.element S elem := by
  cases elem <;> cases h <;> rfl

theorem HasTy.ty_datum (h : x.HasTy t) : (x.datum S).ty = t := by
  cases h with
  | array hdefault _ => rw [datum, Datum.ty_array, hdefault.scalarTy_eq]
  | _ => rfl

theorem beq_int (m n : Int64) : (int m == int n) = decide (m = n) := by
  show same _ _ = _
  rw [same]

theorem beq_bool (a b : Bool) : (bool a == bool b) = decide (a = b) := by
  show same _ _ = _
  rw [same]

/-- Where no floats are involved, `==` is equality. This is for scalars, of which the elements of
arrays are made. -/
theorem HasTy.beq_iff (h : elem ≠ .float) (hx : x.HasTy elem.toTy) (hy : y.HasTy elem.toTy) :
    x == y ↔ x = y := by
  cases elem with
  | float => cases h rfl
  | int =>
      cases hx
      cases hy
      simp [beq_int]
  | bool =>
      cases hx
      cases hy
      simp [beq_bool]

theorem HasTy.select {m : TotalMap Value} (h : (Value.array m).HasTy (.array elem)) (i : Int64) :
    (m.select i).HasTy elem.toTy := by
  cases h with
  | array _ helements => exact helements i

theorem HasTy.datum_array {m : TotalMap Value} (h : (Value.array m).HasTy (.array elem)) :
    (Value.array m).datum S = .array elem fun j => (m.get j).element S elem := by
  cases h with
  | array hdefault _ =>
      have helem := hdefault.scalarTy_eq
      subst helem
      rfl

/-- Reading an element is the lookup in the array that is denoted. -/
theorem HasTy.datum_select {m : TotalMap Value} (h : (Value.array m).HasTy (.array elem))
    (i : Int64) : ((Value.array m).datum S).select (.int i.toInt) = (m.select i).datum S := by
  rw [h.datum_array, Datum.select, Datum.asInt_int, TotalMap.get_toInt, (h.select i).ofElement]

/-- A store keeps the type, also one that removes an index. -/
theorem HasTy.store {m : TotalMap Value} (h : (Value.array m).HasTy (.array elem))
    (hx : x.HasTy elem.toTy) (i : Int64) : (Value.array (m.store i x)).HasTy (.array elem) := by
  cases h with
  | array hdefault helements =>
      refine .array (by rwa [TotalMap.default_store]) fun j => ?_
      rcases TotalMap.select_store_cases (m := m) (i := i) (x := x) j with hj | hj | hj
      · rwa [hj]
      · rwa [hj]
      · rw [hj]
        exact helements j

/-- Storing an element is the update of the array that is denoted. Elements must not be floats,
since a store of the other zero is taken for one of the default. -/
theorem HasTy.datum_store {m : TotalMap Value} (h : (Value.array m).HasTy (.array elem))
    (he : elem ≠ .float) (hx : x.HasTy elem.toTy) (i : Int64) :
    (Value.array (m.store i x)).datum S =
      ((Value.array m).datum S).store S.zero (.int i.toInt) (x.datum S) := by
  have hdefault : m.default.HasTy elem.toTy := by
    cases h with
    | array hdefault _ => exact hdefault
  rw [(h.store hx i).datum_array, h.datum_array, Datum.store, hx.toElement]
  congr 1
  funext j
  rw [TotalMap.get_store (hx.beq_iff he hdefault).1, Datum.asInt_int]
  split <;> rfl

end Value

/-- The datum `d` is what the value `v` of type `t` stands for. -/
structure Represents (S : Structure) (d : Datum S.Num) (v : Value) (t : Ty) : Prop where
  hasTy : v.HasTy t
  eq : d = v.datum S

/-- Whether no float is involved in a type. -/
def Ty.floatFree : Ty → Bool
  | .float | .array .float => false
  | _ => true

/-! ## Operators

By cases on the operator, for operands of either scalar type. The terms that operators are encoded
as are unfolded here and nowhere else. -/

section Operators

variable {S : Structure} {ρ : String → Datum S.Num} {x y v : Value} {u t : Ty} {e : Expr}

theorem represents_fitting {n : Int} (h : fitting e n = .ok v) :
    Represents S (.int n) v .int := by
  rw [fitting] at h
  split at h
  · next i hi =>
      cases h
      exact ⟨.int i, by rw [Value.datum, toInt_of_int64? hi]⟩
  · cases h

theorem UnOp.represents {op : UnOp} {c : Expr} (hu : op.result? u = some t) (hf : u.floatFree)
    (hx : Represents S (c.encode.denote S ρ) x u) (h : op.apply e x = .ok v) :
    Represents S ((Expr.unary op c).encode.denote S ρ) v t := by
  obtain ⟨hty, heq⟩ := hx
  cases op with
  | neg =>
      rw [Expr.encode, Term.denote, heq]
      cases hty with
      | int n =>
          cases hu
          exact represents_fitting h
      | float y => cases hf
      | _ => cases hu
  | not =>
      rw [Expr.encode, Term.denote, heq]
      cases hty with
      | bool b =>
          cases hu
          cases h
          exact ⟨.bool _, rfl⟩
      | _ => cases hu

theorem toInt_ne_zero {b : Int64} (h : b ≠ 0) : b.toInt ≠ 0 := fun h0 =>
  h (Int64.toInt_inj.1 (h0.trans Int64.toInt_zero.symm))

/-- A binary operation on integers. Quotient and remainder are those of the structure, which are
fixed for divisors other than zero. -/
theorem BinOp.represents_ints {op : BinOp} {l r : Term} {a b : Int64} (ha : op.appliesTo .int)
    (hl : l.denote S ρ = .int a.toInt) (hr : r.denote S ρ = .int b.toInt)
    (h : op.apply e (.int a) (.int b) = .ok v) :
    Represents S ((op.encode .int l r).denote S ρ) v (op.result .int) := by
  cases op with
  | add | sub | mul =>
      simp only [encode, Term.denote, hl, hr]
      exact represents_fitting h
  | div =>
      simp only [encode, Term.denote, hl, hr]
      simp only [apply, onInts, Option.getD_some] at h
      split at h
      · cases h
      · next hb =>
          -- the divisor is not zero, so the structure divides as integers do
          have hdiv := (S.div_eq a.toInt (toInt_ne_zero hb)).1
          show Represents S (.int (S.div a.toInt b.toInt)) v .int
          rw [hdiv]
          exact represents_fitting h
  | mod =>
      simp only [encode, Term.denote, hl, hr]
      simp only [apply, onInts, Option.getD_some] at h
      split at h
      · cases h
      · next hb =>
          have hmod := (S.div_eq a.toInt (toInt_ne_zero hb)).2
          show Represents S (.int (S.mod a.toInt b.toInt)) v .int
          rw [hmod]
          split at h
          · cases h
          · exact represents_fitting h
  | lt | le | gt | ge =>
      simp only [encode, Term.denote, hl, hr]
      cases h
      exact ⟨.bool _, rfl⟩
  | eq =>
      cases h
      refine ⟨.bool _, ?_⟩
      simp [encode, Term.denote, hl, hr, Op.denote, Value.datum, Value.beq_int, Int64.toInt_inj]
  | ne =>
      cases h
      refine ⟨.bool _, ?_⟩
      simp [encode, Term.denote, hl, hr, Op.denote, Value.datum, bne, Value.beq_int,
        Int64.toInt_inj]
  | and | or | implies | iff => cases ha

theorem BinOp.represents_bools {op : BinOp} {l r : Term} {a b : Bool} (ha : op.appliesTo .bool)
    (hl : l.denote S ρ = .bool a) (hr : r.denote S ρ = .bool b)
    (h : op.apply e (.bool a) (.bool b) = .ok v) :
    Represents S ((op.encode .bool l r).denote S ρ) v (op.result .bool) := by
  cases op with
  | eq | iff =>
      cases h
      refine ⟨.bool _, ?_⟩
      simp [encode, Term.denote, hl, hr, Op.denote, Value.datum, Value.beq_bool]
  | ne =>
      cases h
      refine ⟨.bool _, ?_⟩
      simp [encode, Term.denote, hl, hr, Op.denote, Value.datum, bne, Value.beq_bool]
  | and | or | implies => cases h
  | _ => cases ha

theorem BinOp.represents {op : BinOp} {l r : Term} (ha : op.appliesTo u) (hf : u.floatFree)
    (hl : Represents S (l.denote S ρ) x u) (hr : Represents S (r.denote S ρ) y u)
    (h : op.apply e x y = .ok v) :
    Represents S ((op.encode u l r).denote S ρ) v (op.result u) := by
  obtain ⟨hx, hxd⟩ := hl
  obtain ⟨hy, hyd⟩ := hr
  cases hx with
  | int a =>
      cases hy with
      | int b => exact represents_ints ha hxd hyd h
  | bool a =>
      cases hy with
      | bool b => exact represents_bools ha hxd hyd h
  | float a => cases hf
  | array _ _ => cases op <;> cases ha

/-- The value of a connective whose left operand settles it. In that case the right operand is not
evaluated, and may have no value. -/
def BinOp.settled? (op : BinOp) (a : Bool) : Option Bool :=
  match op, a with
  | .and, false => some false
  | .or, true => some true
  | .implies, false => some true
  | _, _ => none

theorem BinOp.represents_of_settled {op : BinOp} {l r : Term} {a c : Bool}
    (h : op.settled? a = some c) (hl : l.denote S ρ = .bool a) :
    Represents S ((op.encode u l r).denote S ρ) (.bool c) (op.result u) := by
  cases op <;> cases a <;> cases h <;>
    exact ⟨.bool _, by simp [encode, Term.denote, Term.denoteList, hl, Op.denote, Value.datum]⟩

theorem BinOp.represents_of_not_settled {op : BinOp} {l r : Term} {a b : Bool}
    (ho : op = .and ∨ op = .or ∨ op = .implies) (h : op.settled? a = none)
    (hl : l.denote S ρ = .bool a) (hr : r.denote S ρ = .bool b) :
    Represents S ((op.encode u l r).denote S ρ) (.bool b) (op.result u) := by
  rcases ho with rfl | rfl | rfl <;> cases a <;> cases h <;>
    exact ⟨.bool _, by simp [encode, Term.denote, Term.denoteList, hl, hr, Op.denote, Value.datum]⟩

end Operators

end Pathwise
