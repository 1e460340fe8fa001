import Mathlib.Data.Real.Basic
import Mathlib.Tactic.NormNum
import Pathwise.Proofs.Values

/-!
# Pathwise.Proofs.Evaluation

Evaluation agrees with the denotation of the encoding.

The two meanings of an expression were written apart from each other. Evaluation works on 64-bit
integers, looks at the right operand of a connective only if the left one does not settle it, and
evaluates the body of a predicate in a scope of its own. The encoding turns a predicate into a
function with the lengths of arrays as further arguments, after all others, and a term of it
denotes a value without bounds.

* `Expr.evalWith_unary` and so on take an evaluation that has succeeded apart, one lemma for each
  constructor.
* `Expr.Accords` says that evaluation and denotation agree on an expression, its value and its
  length. Each constructor has a lemma, and `Expr.accords` puts them together by induction. The
  bodies of predicates are left to the interpretation (`Interpretation.Agrees`).
* That the evaluator's interpretation is as required is an induction over the number of nested
  expansions (`Evaluator.agrees`).

The statement is about evaluations that give a value. Those that overflow, divide by zero, meet a
function or expand too deep give none, and the encoding denotes something all the same. So nothing
is said about which formulas can be evaluated.

No float may be involved, neither in the expression nor in the predicates that it comes to
(`Program.FloatFree`). The second half of this is not for convenience:
`evaluation_differs_at_floats` has an expression without floats on which the two disagree.
-/

namespace Pathwise

open Smt

/-! ## Steps of evaluation

Evaluations that have succeeded, taken apart. The lemmas say what the operands have come to, and
forget in which order they were looked at except where it matters. -/

theorem Value.eq_of_asBool {e : Expr} {v : Value} {b : Bool} (h : v.asBool e = .ok b) :
    v = .bool b := by
  cases v <;> cases h
  rfl

theorem Value.eq_of_asInt {e : Expr} {v : Value} {n : Int64} (h : v.asInt e = .ok n) :
    v = .int n := by
  cases v <;> cases h
  rfl

theorem Value.eq_of_asArray {e : Expr} {v : Value} {m : TotalMap Value}
    (h : v.asArray e = .ok m) : v = .array m := by
  cases v <;> cases h
  rfl

/-- A step that goes on with the truth value, the integer or the array that a value is. -/
theorem cast_bind_eq_ok {α β : Type} {x : EvalM Value} {cast : Value → EvalM α} {mk : α → Value}
    {k : α → EvalM β} {r : β} (hcast : ∀ {v a}, cast v = .ok a → v = mk a)
    (h : (x >>= fun v => cast v >>= k) = .ok r) : ∃ a, x = .ok (mk a) ∧ k a = .ok r := by
  obtain ⟨v, rfl, hv⟩ := bind_eq_ok_iff.1 h
  obtain ⟨a, ha, hk⟩ := bind_eq_ok_iff.1 hv
  exact ⟨a, by rw [hcast ha], hk⟩

theorem eq_ok_of_asBool {x : EvalM Value} {e : Expr} {b : Bool}
    (h : (x >>= fun v => v.asBool e) = .ok b) : x = .ok (.bool b) := by
  obtain ⟨v, rfl, hv⟩ := bind_eq_ok_iff.1 h
  rw [Value.eq_of_asBool hv]

namespace Expr

variable {I : Interpretation} {env : Valuation} {v : Value}

theorem evalWith_unary {op : UnOp} {e : Expr} (h : (unary op e).evalWith I env = .ok v) :
    ∃ x, e.evalWith I env = .ok x ∧ op.apply (unary op e) x = .ok v := by
  rw [evalWith] at h
  exact bind_eq_ok_iff.1 h

/-- The length of an array is evaluated like any other expression. -/
theorem evalLength_eq (e : Expr) :
    e.evalLength I env = e.arrayLength?.map (·.evalWith I env) := by
  cases e with
  | var v =>
      rw [evalLength, arrayLength?, Option.map_map]
      rfl
  | _ => rfl

/-- The connectives look at their left operand first, and at the right one only if the left does
not settle the matter. -/
theorem evalWith_connective {op : BinOp} (ho : op = .and ∨ op = .or ∨ op = .implies)
    (l r : Expr) :
    (binary op l r).evalWith I env = do
      let a ← (← l.evalWith I env).asBool l
      match op.settled? a with
      | some c => return .bool c
      | none => return .bool (← (← r.evalWith I env).asBool r) := by
  rcases ho with rfl | rfl | rfl
  all_goals
    rw [evalWith]
    congr 1
    funext x
    congr 1
    funext a
    cases a <;> rfl

/-- The other operators evaluate both operands. -/
theorem evalWith_operator {op : BinOp} (ho : ¬ (op = .and ∨ op = .or ∨ op = .implies))
    (l r : Expr) :
    (binary op l r).evalWith I env =
      (l.evalWith I env >>= fun x => r.evalWith I env >>= fun y =>
        op.apply (binary op l r) x y) := by
  cases op with
  | and | or | implies => simp at ho
  | _ => simp only [evalWith]

/-- A binary operation evaluates both operands, or it is a connective. Then the left operand
settles it, or its value is that of the right operand. -/
theorem evalWith_binary {op : BinOp} {l r : Expr} (h : (binary op l r).evalWith I env = .ok v) :
    (∃ x y, l.evalWith I env = .ok x ∧ r.evalWith I env = .ok y ∧
      op.apply (binary op l r) x y = .ok v) ∨
    ∃ a, l.evalWith I env = .ok (.bool a) ∧
      ((∃ c, op.settled? a = some c ∧ v = .bool c) ∨
        (op = .and ∨ op = .or ∨ op = .implies) ∧ op.settled? a = none ∧
          ∃ b, r.evalWith I env = .ok (.bool b) ∧ v = .bool b) := by
  by_cases ho : op = .and ∨ op = .or ∨ op = .implies
  · rw [evalWith_connective ho] at h
    obtain ⟨a, ha, h⟩ := cast_bind_eq_ok Value.eq_of_asBool h
    refine Or.inr ⟨a, ha, ?_⟩
    cases hs : op.settled? a with
    | some c =>
        rw [hs] at h
        exact Or.inl ⟨c, rfl, (Except.ok.inj h).symm⟩
    | none =>
        rw [hs] at h
        obtain ⟨b, hb, h⟩ := cast_bind_eq_ok Value.eq_of_asBool h
        exact Or.inr ⟨ho, rfl, b, hb, (Except.ok.inj h).symm⟩
  · left
    rw [evalWith_operator ho] at h
    obtain ⟨x, hx, h⟩ := bind_eq_ok_iff.1 h
    obtain ⟨y, hy, h⟩ := bind_eq_ok_iff.1 h
    exact ⟨x, y, hx, hy, h⟩

theorem evalWith_read {a i : Expr} (h : (read a i).evalWith I env = .ok v) :
    ∃ m k, a.evalWith I env = .ok (.array m) ∧ i.evalWith I env = .ok (.int k) ∧
      m.select k = v := by
  rw [evalWith] at h
  obtain ⟨m, hm, h⟩ := cast_bind_eq_ok Value.eq_of_asArray h
  obtain ⟨k, hk, h⟩ := cast_bind_eq_ok Value.eq_of_asInt h
  exact ⟨m, k, hm, hk, Except.ok.inj h⟩

/-- An update stores a value in an array. Its length is not looked at. -/
theorem evalWith_update {a i x n : Expr} (h : (update a i x n).evalWith I env = .ok v) :
    ∃ m k y, a.evalWith I env = .ok (.array m) ∧ i.evalWith I env = .ok (.int k) ∧
      x.evalWith I env = .ok y ∧ .array (m.store k y) = v := by
  rw [evalWith] at h
  obtain ⟨m, hm, h⟩ := cast_bind_eq_ok Value.eq_of_asArray h
  obtain ⟨k, hk, h⟩ := cast_bind_eq_ok Value.eq_of_asInt h
  obtain ⟨y, hy, h⟩ := bind_eq_ok_iff.1 h
  exact ⟨m, k, y, hm, hk, hy, Except.ok.inj h⟩

/-- An application binds the arguments and expands the predicate. -/
theorem evalWith_app {name : String} {args : List Expr}
    (h : (app name args).evalWith I env = .ok v) :
    ∃ q scope b, I.predicate? name = some q ∧
      evalArgs I env q.parameters .empty args = .ok scope ∧ I.expand q scope = .ok b ∧
      .bool b = v := by
  rw [evalWith] at h
  split at h
  · cases h
  · next q hq =>
      obtain ⟨scope, hscope, h⟩ := bind_eq_ok_iff.1 h
      obtain ⟨b, hb, h⟩ := bind_eq_ok_iff.1 h
      exact ⟨q, scope, b, hq, hscope, hb, Except.ok.inj h⟩

end Expr

/-! ## Quantifiers

A quantifier tries out the integers of its domain one after the other and may stop early. What it
has found is the quantifier over the whole domain, whether or not it has looked at all of it. -/

namespace Quantifier

theorem among_congr {q : Quantifier} {α : Type} {P Q : α → Prop} {f : α → Bool}
    (h : ∀ a, P a ↔ Q a) : q.among P f = q.among Q f := by
  rw [show P = Q from funext fun a => propext (h a)]

/-- Trying out consecutive integers decides the quantifier over these. The evaluation may stop
early, and then the integers that were not tried make no difference. -/
theorem eq_among_of_decide {q : Quantifier} {holds : Int64 → EvalM Bool} {P : Int → Bool}
    {first : Int} {count : Nat} {b : Bool} (h : q.decide holds first count = .ok b)
    (hP : ∀ i, first ≤ i → i < first + count → ∀ c, holds (Int64.ofInt i) = .ok c → P i = c) :
    b = q.among (fun i => first ≤ i ∧ i < first + count) P := by
  induction count generalizing first with
  | zero =>
      cases h
      cases q <;> simp [among]
  | succ n ih =>
      rw [decide] at h
      obtain ⟨c, hc, h⟩ := bind_eq_ok_iff.1 h
      have hfirst : P first = c := hP first (by omega) (by omega) c hc
      have hrest : ∀ i, first + 1 ≤ i → i < first + 1 + n →
          ∀ c, holds (Int64.ofInt i) = .ok c → P i = c :=
        fun i hi hin => hP i (by omega) (by omega)
      -- the first integer decides, or the quantifier over the rest does
      have hsplit : ∀ i, first ≤ i ∧ i < first + (n + 1 : Nat) ↔
          i = first ∨ first + 1 ≤ i ∧ i < first + 1 + n := fun i => by omega
      rw [among_congr hsplit]
      cases q with
      | all =>
          cases c with
          | false =>
              cases h
              simp [among, hfirst]
          | true =>
              rw [ih h hrest]
              simp [among, or_imp, forall_and, hfirst]
      | any =>
          cases c with
          | false =>
              rw [ih h hrest]
              simp [among, or_and_right, exists_or, hfirst]
          | true =>
              cases h
              simp [among, or_and_right, exists_or, hfirst]

end Quantifier

/-! ## Programs without floats

An expression comes to the bodies of the predicates that it applies, and to those that they apply.
No float may occur in any of these, but may in others. -/

/-- The expression `d` is part of `e`, or of the bodies of the predicates that `e` is about.
Evaluation may come to all of these. -/
inductive Program.Unfolds (p : Program) : Expr → Expr → Prop where
  | part {e d : Expr} (hd : d ∈ e.visit) : Unfolds p e d
  | body {e d : Expr} {name : String} {args : List Expr} {q : Predicate}
      (ha : .app name args ∈ e.visit) (hq : p.predicate? name = some q)
      (hd : Unfolds p q.body d) : Unfolds p e d

/-- No float is involved in an expression, nor in the predicates that it is about, however deep
these are applied in one another. -/
def Program.FloatFree (p : Program) (e : Expr) : Prop := ∀ d, p.Unfolds e d → d.ty.floatFree

namespace Program.FloatFree

variable {p : Program} {e : Expr}

theorem ty (h : p.FloatFree e) : e.ty.floatFree := h e (.part e.self_mem_visit)

theorem child (h : p.FloatFree e) {c : Expr} (hc : c ∈ e.children) : p.FloatFree c := by
  intro d hd
  refine h d ?_
  cases hd with
  | part hd => exact .part (Expr.visit_subset_of_child hc hd)
  | body ha hq hd => exact .body (Expr.visit_subset_of_child hc ha) hq hd

theorem body {name : String} {args : List Expr} {q : Predicate}
    (h : p.FloatFree (.app name args)) (hq : p.predicate? name = some q) : p.FloatFree q.body :=
  fun d hd => h d (.body (Expr.self_mem_visit _) hq hd)

/-- It is enough to look at the expression and at all predicates, although not all of them need be
expanded. -/
theorem of_visit (he : ∀ d ∈ e.visit, d.ty.floatFree)
    (hp : ∀ q ∈ p.predicates, ∀ d ∈ q.body.visit, d.ty.floatFree) : p.FloatFree e := by
  intro d hd
  induction hd with
  | part hd => exact he _ hd
  | body _ hq _ ih => exact ih (hp _ (mem_of_predicate? hq).1)

end Program.FloatFree

/-! ## Agreement

Names in the evaluator and in terms, values that fit the types of variables, and the passing of
arguments. Parameters are bound one by one, each with its length; a term passes all arguments
first and then all lengths. `Binds` is where the two orders meet. -/

/-- The variables of a predicate are in order: no two parameters or lengths share a name, and
a name has one type. -/
structure Predicate.WellNamed (q : Predicate) : Prop where
  /-- No two parameters or lengths share a name. -/
  nodup : (q.formals.map Variable.name).Nodup
  /-- A name has one type, and arrays have lengths. -/
  uniform : Uniform (q.formals ++ q.body.mentions)

instance (q : Predicate) : Decidable q.WellNamed :=
  decidable_of_iff
    ((q.formals.map Variable.name).Nodup ∧ Uniform (q.formals ++ q.body.mentions))
    ⟨fun ⟨h₁, h₂⟩ => ⟨h₁, h₂⟩, fun ⟨h₁, h₂⟩ => ⟨h₁, h₂⟩⟩

namespace Valuation

/-- The values of names are what a valuation says, where it says something. Other names may have
any values. -/
def Matches (S : Structure) (env : Valuation) (ρ : String → Datum S.Num) : Prop :=
  ∀ x v, env.find? x = some v → ρ x = v.datum S

/-- A valuation gives variables with the given names values of their types, if any. -/
def Fits (env : Valuation) (vs : List Variable) (names : List String) : Prop :=
  ∀ v ∈ vs, v.name ∈ names → ∀ x, env.find? v.name = some x → x.HasTy v.ty

theorem Fits.mono {env : Valuation} {vs : List Variable} {names names' : List String}
    (h : env.Fits vs names') (hn : names ⊆ names') : env.Fits vs names :=
  fun v hv hx => h v hv (hn hx)

end Valuation

/-- An interpretation goes by a program, its predicates and their definitions in a
structure. -/
structure Interpretation.Agrees (I : Interpretation) (p : Program) (S : Structure) : Prop where
  predicate? : ∀ name, I.predicate? name = p.predicate? name
  /-- Quantifiers range over the same integers. -/
  domain : ∀ n, S.Domain n ↔ I.low.toInt ≤ n ∧ n ≤ I.high.toInt
  /-- The structure interprets the predicates as they are defined. -/
  interprets : p.Interprets S
  /-- The variables of the predicates are in order. -/
  wellNamed : ∀ q ∈ p.predicates, q.WellNamed
  /-- The expansion of a predicate goes by the definition as well. -/
  expand : ∀ q ∈ p.predicates, p.FloatFree q.body → ∀ (scope : Valuation) ρ,
    scope.Matches S ρ → scope.Fits (q.formals ++ q.body.mentions) (q.body.encode.freeConsts []) →
    ∀ b, I.expand q scope = .ok b → q.body.encode.denote S ρ = .bool b

/-- The value of an argument, and its length if it is an array, is passed to a parameter. -/
structure Expr.PassedTo (I : Interpretation) (env : Valuation) (S : Structure)
    (ρ : String → Datum S.Num) (v : Variable) (e : Expr) : Prop where
  ty : e.ty = v.ty
  /-- The value, if there is one, is what the encoding denotes. -/
  value : ∀ x, e.evalWith I env = .ok x → Represents S (e.encode.denote S ρ) x v.ty
  /-- So is the length of an array. -/
  length : v.ty.isArray → ∃ r, e.evalLength I env = some r ∧ ∀ n, r = .ok n →
    ∃ d, Term.denoteList S e.encodeLength ρ = [d] ∧ Represents S d n .int

/-- The scope for some parameters holds what the encoded arguments and lengths denote. -/
structure Binds (S : Structure) (params : List Variable) (values lengths : List (Datum S.Num))
    (scope scope' : Valuation) : Prop where
  values_ty : List.Forall₂ (fun v d => d.ty = v.ty) params values
  lengths_ty : List.Forall₂ (fun l d => d.ty = l.ty) (params.filterMap Variable.length?) lengths
  /-- What is new in the scope is an argument or a length. -/
  origin : ∀ {x y}, scope'.find? x = some y → scope.find? x = some y ∨
    ∃ w d, ((w, d) ∈ params.zip values ∨ (w, d) ∈ (params.filterMap Variable.length?).zip lengths) ∧
      w.name = x ∧ Represents S d y w.ty

namespace Binds

variable {S : Structure} {params : List Variable} {values lengths : List (Datum S.Num)}
  {scope scope' : Valuation} {v l : Variable} {d k : Datum S.Num} {x n : Value}

/-- A scalar parameter is bound to a value. -/
theorem cons_scalar (h : Binds S params values lengths (scope.insert v.name x) scope')
    (hl : v.length? = none) (hd : Represents S d x v.ty) :
    Binds S (v :: params) (d :: values) lengths scope scope' where
  values_ty := .cons (hd.eq ▸ hd.hasTy.ty_datum) h.values_ty
  lengths_ty := by
    rw [List.filterMap_cons_none hl]
    exact h.lengths_ty
  origin {y z} hy := by
    rw [List.filterMap_cons_none hl, List.zip_cons_cons]
    rcases h.origin hy with hscope | ⟨w, c, hw, hwy, hc⟩
    · rw [SortedMap.find?_insert] at hscope
      split at hscope
      · next hyv =>
          cases hscope
          exact Or.inr ⟨v, d, Or.inl List.mem_cons_self, hyv.symm, hd⟩
      · exact Or.inl hscope
    · exact Or.inr ⟨w, c, hw.imp_left (List.mem_cons_of_mem _), hwy, hc⟩

/-- An array parameter is bound to a value, and its length to another one. -/
theorem cons_array
    (h : Binds S params values lengths ((scope.insert v.name x).insert l.name n) scope')
    (hl : v.length? = some l) (hd : Represents S d x v.ty) (hn : Represents S k n .int) :
    Binds S (v :: params) (d :: values) (k :: lengths) scope scope' := by
  have hlty := Variable.ty_of_length? hl
  constructor
  · exact .cons (hd.eq ▸ hd.hasTy.ty_datum) h.values_ty
  · rw [List.filterMap_cons_some hl]
    exact .cons (by rw [hn.eq, hn.hasTy.ty_datum, hlty]) h.lengths_ty
  · intro y z hy
    rw [List.filterMap_cons_some hl, List.zip_cons_cons, List.zip_cons_cons]
    rcases h.origin hy with hscope | ⟨w, c, hw, hwy, hc⟩
    · rw [SortedMap.find?_insert, SortedMap.find?_insert] at hscope
      split at hscope
      · next hyl =>
          cases hscope
          exact Or.inr ⟨l, k, Or.inr List.mem_cons_self, hyl.symm, hlty ▸ hn⟩
      · split at hscope
        · next hyv =>
            cases hscope
            exact Or.inr ⟨v, d, Or.inl List.mem_cons_self, hyv.symm, hd⟩
        · exact Or.inl hscope
    · exact Or.inr ⟨w, c, hw.imp (List.mem_cons_of_mem _) (List.mem_cons_of_mem _), hwy, hc⟩

end Binds

namespace Expr

variable {I : Interpretation} {env : Valuation} {S : Structure} {ρ : String → Datum S.Num}

/-- Parameters are bound to what the encoding passes, although in another order: an encoded
application has all lengths after all arguments. -/
theorem binds_evalArgs {params : List Variable} {args : List Expr} {scope scope' : Valuation}
    (hk : ∀ v ∈ params, v.isArray = v.ty.isArray)
    (hargs : List.Forall₂ (PassedTo I env S ρ) params args)
    (h : evalArgs I env params scope args = .ok scope') :
    Binds S params (Term.denoteList S (encodeList args) ρ)
      (Term.denoteList S (encodeLengths args) ρ) scope scope' := by
  induction hargs generalizing scope with
  | nil =>
      cases h
      exact ⟨.nil, .nil, Or.inl⟩
  | @cons v e params args he _ ih =>
      obtain ⟨hv, hk⟩ := List.forall_mem_cons.1 hk
      rw [evalArgs] at h
      obtain ⟨x, hx, h⟩ := bind_eq_ok_iff.1 h
      have hvalue := he.value x hx
      rw [encodeList, Term.denoteList, encodeLengths, Term.denoteList_append]
      cases hl : v.length? with
      | none =>
          have ha : e.ty.isArray = false := by
            rw [he.ty, ← hv, Variable.isArray_iff_length?, hl]
            rfl
          rw [hl] at h
          rw [ha]
          exact (ih hk h).cons_scalar hl hvalue
      | some l =>
          have ha : v.ty.isArray = true := by
            rw [← hv, Variable.isArray_iff_length?, hl]
            rfl
          obtain ⟨r, hr, hlength⟩ := he.length ha
          rw [hl, hr] at h
          obtain ⟨n, hn, h⟩ := bind_eq_ok_iff.1 h
          obtain ⟨d, hd, hdn⟩ := hlength n hn
          rw [he.ty, if_pos ha, hd]
          exact (ih hk h).cons_array hl hvalue hdn

end Expr

/-- The symbol of a predicate, applied to what the encoding passes, denotes the value of the
expansion. -/
theorem Interpretation.Agrees.symbol_eq {I : Interpretation} {p : Program} {S : Structure}
    (hI : I.Agrees p S) {q : Predicate} (hq : q ∈ p.predicates) (hf : p.FloatFree q.body)
    {values lengths : List (Datum S.Num)} {scope : Valuation}
    (hb : Binds S q.parameters values lengths .empty scope) {b : Bool}
    (h : I.expand q scope = .ok b) : S.symbol q.name (values ++ lengths) = .bool b := by
  have hty : List.Forall₂ (fun v d => d.ty = v.ty) q.formals (values ++ lengths) :=
    List.rel_append hb.values_ty hb.lengths_ty
  -- everything in the scope is an argument or a length, and so the value of a formal
  have horigin : ∀ {x y}, scope.find? x = some y →
      ∃ w d, (w, d) ∈ q.formals.zip (values ++ lengths) ∧ w.name = x ∧ Represents S d y w.ty := by
    intro x y hx
    rcases hb.origin hx with hnone | ⟨w, d, hw, hwx, hd⟩
    · cases hnone
    · refine ⟨w, d, ?_, hwx, hd⟩
      rw [Predicate.formals, List.zip_append hb.values_ty.length_eq]
      exact List.mem_append.2 hw
  have hdefines := hI.interprets q hq
  rw [Predicate.definition_eq] at hdefines
  rw [hdefines _ (List.forall₂_map_left_iff.2 (hty.imp fun v d hd => by rw [hd]))]
  refine hI.expand q hq hf scope _ (fun x y hx => ?_) (fun v hv _ y hy => ?_) b h
  · obtain ⟨w, d, hmem, rfl, hd⟩ := horigin hx
    rw [← hd.eq]
    refine assign_of_mem ?_ ?_ ?_
    · rw [List.map_map]
      exact (hI.wellNamed q hq).nodup
    · rw [List.length_map, hty.length_eq]
    · rw [List.map_map, List.zip_map_left]
      exact List.mem_map.2 ⟨(w, d), hmem, rfl⟩
  · obtain ⟨w, d, hmem, hw, hd⟩ := horigin hy
    have hwf := List.mem_append_left q.body.mentions (List.of_mem_zip hmem).1
    rw [← (hI.wellNamed q hq).uniform.ty w hwf v hv hw]
    exact hd.hasTy

namespace Expr

variable {p : Program} {I : Interpretation} {S : Structure} {vs : List Variable}

/-- An expression over some variables in which no float is involved. -/
structure Covered (p : Program) (vs : List Variable) (e : Expr) : Prop where
  /-- Its variables, bound ones and lengths included. -/
  mentions : e.mentions ⊆ vs
  floatFree : p.FloatFree e

theorem Covered.child {c e : Expr} (h : e.Covered p vs) (hc : c ∈ e.children) :
    c.Covered p vs where
  mentions _ hv := h.mentions (mentions_subset_of_child hc hv)
  floatFree := h.floatFree.child hc

theorem Covered.ty {e : Expr} (h : e.Covered p vs) {t : Ty} (hc : p.check e = .ok t) :
    t.floatFree := Program.ty_of_check hc ▸ h.floatFree.ty

/-- What a variable is read as is what its constant denotes. -/
theorem represents_read {env : Valuation} {ρ : String → Datum S.Num} (hρ : env.Matches S ρ)
    {v : Variable} (hv : v ∈ vs) (hfit : env.Fits vs [v.name]) {x : Value}
    (h : env.read v.name = .ok x) : Represents S (ρ v.name) x v.ty := by
  rw [Valuation.read] at h
  split at h
  · next y hy =>
      cases h
      exact ⟨hfit v hv List.mem_cons_self x hy, hρ v.name x hy⟩
  · cases h

/-- A quantifier tries out the domain. Both sides range over the same integers, which is what
agreement of an interpretation with a structure demands. -/
theorem represents_quant (hI : I.Agrees p S) {q : Quantifier} {v : Variable} {body : Expr}
    {env : Valuation} {ρ : String → Datum S.Num} {x : Value}
    (h : (quant q v body).evalWith I env = .ok x)
    (hbody : ∀ n : Int64, ∀ b, body.evalWith I (env.insert v.name (.int n)) = .ok (.bool b) →
      body.encode.denote S (assign ρ [(v.name, .int)] [.int n.toInt]) = .bool b) :
    Represents S ((quant q v body).encode.denote S ρ) x .bool := by
  rw [evalWith] at h
  obtain ⟨b, hb, h⟩ := bind_eq_ok_iff.1 h
  cases h
  have hlow := I.low.le_toInt
  have hhigh := I.high.toInt_lt
  have hamong := Quantifier.eq_among_of_decide
    (P := fun n => (body.encode.denote S (assign ρ [(v.name, .int)] [.int n])).asBool) hb ?_
  · refine ⟨.bool b, ?_⟩
    rw [encode, Term.denote_quant_int, Value.datum, hamong]
    congr 1
    refine Quantifier.among_congr fun n => ?_
    rw [hI.domain, Interpretation.domainSize]
    omega
  · intro n hn hn' c hc
    rw [Interpretation.domainSize] at hn'
    have hround : (Int64.ofInt n).toInt = n :=
      Int64.toInt_ofInt_of_le (by omega) (by omega)
    have hdenote := hbody (Int64.ofInt n) c (eq_ok_of_asBool hc)
    rw [hround] at hdenote
    rw [hdenote, Datum.asBool_bool]

/-- Binding a variable in a valuation is assigning its constant. -/
theorem matches_insert {env : Valuation} {ρ : String → Datum S.Num} (hρ : env.Matches S ρ)
    (x : String) (n : Int64) :
    Valuation.Matches S (env.insert x (.int n)) (assign ρ [(x, .int)] [.int n.toInt]) := by
  intro y z hy
  rw [SortedMap.find?_insert] at hy
  rw [assign_singleton]
  split at hy
  · next hyx =>
      cases hy
      rw [if_pos hyx]
      rfl
  · next hyx => rw [if_neg hyx, hρ y z hy]

/-- A bound integer fits its variable, and the other names fit as before. A name has one type
among the variables, so no array has the name that was bound. -/
theorem fits_insert (hu : Uniform vs) {env : Valuation} {v : Variable} (hv : v ∈ vs)
    (hvt : v.ty = .int) {t : Term} (hfit : env.Fits vs (t.freeConsts [v.name])) (n : Int64) :
    Valuation.Fits (env.insert v.name (.int n)) vs (t.freeConsts []) := by
  intro w hw hwt z hz
  rw [SortedMap.find?_insert] at hz
  split at hz
  · next hwv =>
      cases hz
      rw [hu.ty w hw v hv hwv, hvt]
      exact .int n
  · next hwv =>
      exact hfit w hw (Term.mem_freeConsts_of_bound (fun _ => by simpa using hwv) hwt) z hz

/-! ## One constructor at a time

Evaluation and denotation are compared by induction over the expression, and what is compared is
`Expr.Accords`. The lemmas below are the cases of the induction. A predicate is applied to
arguments and, without their being written, to the lengths of arrays, so the induction has to be
about lengths as well as about values. -/

/-- The value of an expression is what its encoding denotes, and so is its length. The valuation
has to fit only the names that are free in the term. -/
structure Accords (I : Interpretation) (vs : List Variable) (env : Valuation) (S : Structure)
    (ρ : String → Datum S.Num) (e : Expr) (t : Ty) : Prop where
  value : env.Fits vs (e.encode.freeConsts []) → ∀ x, e.evalWith I env = .ok x →
    Represents S (e.encode.denote S ρ) x t
  length : t.isArray → env.Fits vs (Term.freeConstsList [] e.encodeLength) →
    ∃ r, e.evalLength I env = some r ∧ ∀ n, r = .ok n →
      ∃ d, Term.denoteList S e.encodeLength ρ = [d] ∧ Represents S d n .int

namespace Accords

variable {env : Valuation} {ρ : String → Datum S.Num} {t u : Ty}

/-- An expression that is no array has no length to look at. -/
theorem of_scalar {e : Expr} (ht : t.isArray = false)
    (h : env.Fits vs (e.encode.freeConsts []) → ∀ x, e.evalWith I env = .ok x →
      Represents S (e.encode.denote S ρ) x t) : Accords I vs env S ρ e t := by
  refine ⟨h, fun ha => ?_⟩
  rw [ht] at ha
  cases ha

/-- The length of an array variable is a variable, and is read like any other. -/
theorem var (hu : Uniform vs) (hρ : env.Matches S ρ) {v : Variable}
    (hmem : ∀ w ∈ v.withLength, w ∈ vs) : Accords I vs env S ρ (.var v) v.ty := by
  have hv := hmem v v.self_mem_withLength
  refine ⟨fun hfit x hx => ?_, fun ha hfit => ?_⟩
  · rw [evalWith] at hx
    rw [encode, Term.denote]
    exact represents_read hρ hv (hfit.mono (by simp [encode, Term.freeConsts])) hx
  · rw [← hu.kinds v hv, Variable.isArray_iff_length?] at ha
    obtain ⟨l, hl⟩ := Option.isSome_iff_exists.1 ha
    have hfree : [l.name] ⊆ Term.freeConstsList [] (encodeLength (.var v)) := by
      simp [encodeLength, hl, Term.freeConstsList, Term.freeConsts]
    refine ⟨env.read l.name, by simp [evalLength, hl], fun n hn => ⟨ρ l.name, ?_, ?_⟩⟩
    · simp [encodeLength, hl, Term.denoteList, Term.denote]
    · rw [← Variable.ty_of_length? hl]
      exact represents_read hρ (hmem l (by simp [hl])) (hfit.mono hfree) hn

/-- Unary operators are computed alike, if no float is involved. -/
theorem unary {op : UnOp} {e : Expr} (he : Accords I vs env S ρ e u) (hf : u.floatFree)
    (hres : op.result? u = some t) : Accords I vs env S ρ (.unary op e) t := by
  refine .of_scalar (UnOp.isArray_of_result? hres) fun hfit x hx => ?_
  obtain ⟨y, hy, happly⟩ := evalWith_unary hx
  have hy := he.value (hfit.mono (by cases op <;> exact fun _ h => h)) y hy
  exact UnOp.represents hres hf hy happly

/-- Where the left operand settles a connective, nothing is asked of the right one. -/
theorem binary {op : BinOp} {l r : Expr} (hl : Accords I vs env S ρ l u)
    (hr : Accords I vs env S ρ r u) (hty : l.ty = u) (hf : u.floatFree)
    (happlies : op.appliesTo u) : Accords I vs env S ρ (.binary op l r) (op.result u) := by
  refine .of_scalar (BinOp.isArray_result happlies) fun hfit x hx => ?_
  rw [encode, BinOp.freeConsts_encode] at hfit
  have hl := hl.value (hfit.mono (by simp))
  have hr := hr.value (hfit.mono (by simp))
  rw [encode, hty]
  rcases evalWith_binary hx with ⟨y, z, hy, hz, happly⟩ | ⟨a, hla, hright⟩
  · exact BinOp.represents happlies hf (hl y hy) (hr z hz) happly
  · rcases hright with ⟨c, hset, rfl⟩ | ⟨hop, hset, b, hrb, rfl⟩
    · exact BinOp.represents_of_settled hset (hl _ hla).eq
    · exact BinOp.represents_of_not_settled hop hset (hl _ hla).eq (hr _ hrb).eq

/-- The body is evaluated once for each integer of the domain, in a valuation of its own. -/
theorem quant (hI : I.Agrees p S) (hu : Uniform vs) {q : Quantifier} {v : Variable} {body : Expr}
    (hv : v ∈ vs) (hvt : v.ty = .int)
    (hbody : ∀ n : Int64, Accords I vs (env.insert v.name (.int n)) S
      (assign ρ [(v.name, .int)] [.int n.toInt]) body .bool) :
    Accords I vs env S ρ (.quant q v body) .bool := by
  refine .of_scalar rfl fun hfit x hx => represents_quant hI hx fun n b hb => ?_
  exact ((hbody n).value (fits_insert hu hv hvt hfit n) _ hb).eq

theorem read {a i : Expr} {elem : ScalarTy} (ha : Accords I vs env S ρ a (.array elem))
    (hi : Accords I vs env S ρ i .int) : Accords I vs env S ρ (.read a i) elem.toTy := by
  refine .of_scalar (Ty.isArray_toTy elem) fun hfit x hx => ?_
  obtain ⟨m, k, hm, hk, rfl⟩ := evalWith_read hx
  rw [encode, Term.freeConsts] at hfit
  have hm := ha.value (hfit.mono (by simp)) _ hm
  have hk := hi.value (hfit.mono (by simp)) _ hk
  refine ⟨hm.hasTy.select k, ?_⟩
  rw [encode, Term.denote, hm.eq, hk.eq]
  exact hm.hasTy.datum_select k

/-- An update carries its length with it, as an operand that does not occur in its term. -/
theorem update {a i y n : Expr} {elem : ScalarTy} (ha : Accords I vs env S ρ a (.array elem))
    (hi : Accords I vs env S ρ i .int) (hy : Accords I vs env S ρ y elem.toTy)
    (hn : Accords I vs env S ρ n .int) (helem : elem ≠ .float) :
    Accords I vs env S ρ (.update a i y n) (.array elem) := by
  refine ⟨fun hfit x hx => ?_, fun _ hfit => ?_⟩
  · obtain ⟨m, k, z, hm, hk, hz, rfl⟩ := evalWith_update hx
    rw [encode, Term.freeConsts] at hfit
    have hm := ha.value (hfit.mono (by simp)) _ hm
    have hk := hi.value (hfit.mono (by simp)) _ hk
    have hz := hy.value (hfit.mono (by simp)) _ hz
    refine ⟨hm.hasTy.store hz.hasTy k, ?_⟩
    rw [encode, Term.denote, hm.eq, hk.eq, hz.eq, hm.hasTy.datum_store helem hz.hasTy k]
    rfl
  · rw [encodeLength] at hfit ⊢
    refine ⟨n.evalWith I env, by rw [evalLength], fun z hz => ⟨n.encode.denote S ρ, ?_, ?_⟩⟩
    · rw [Term.denoteList, Term.denoteList]
    · exact hn.value (hfit.mono (by simp [Term.freeConstsList])) z hz

/-- Arguments that accord are passed as they should be. -/
theorem passedTo {params : List Variable} {args : List Expr}
    (hargs : List.Forall₂ (fun v a => a.ty = v.ty ∧ Accords I vs env S ρ a v.ty) params args)
    (hfit : env.Fits vs (Term.freeConstsList [] (encodeList args) ++
      Term.freeConstsList [] (encodeLengths args))) :
    List.Forall₂ (PassedTo I env S ρ) params args := by
  rw [List.forall₂_iff_zip]
  refine ⟨hargs.length_eq, fun {v a} hva => ?_⟩
  have ha : a ∈ args := (List.of_mem_zip hva).2
  obtain ⟨hty, hvalue, hlength⟩ := List.forall₂_zip hargs hva
  refine ⟨hty, hvalue (hfit.mono fun y hy => ?_), fun harr =>
    hlength harr (hfit.mono fun y hy => ?_)⟩
  · exact List.mem_append_left _ (mem_freeConstsList_encodeList.2 ⟨a, ha, hy⟩)
  · exact List.mem_append_right _ (mem_freeConstsList_encodeLengths.2 ⟨a, ha, hty ▸ harr, hy⟩)

/-- The arguments and lengths are bound in one order and passed in another, and the body is
what the symbol stands for. -/
theorem app (hI : I.Agrees p S) {name : String} {args : List Expr} {q : Predicate}
    (hq : p.predicate? name = some q) (hf : p.FloatFree q.body)
    (hargs : List.Forall₂ (fun v a => a.ty = v.ty ∧ Accords I vs env S ρ a v.ty)
      q.parameters args) : Accords I vs env S ρ (.app name args) .bool := by
  refine .of_scalar rfl fun hfit x hx => ?_
  obtain ⟨q', scope, b, hq', hscope, hb, rfl⟩ := evalWith_app hx
  rw [hI.predicate?, hq] at hq'
  cases hq'
  obtain ⟨hmem, hname⟩ := Program.mem_of_predicate? hq
  rw [encode, Term.freeConsts, Term.freeConstsList_append] at hfit
  have hkinds : ∀ v ∈ q.parameters, v.isArray = v.ty.isArray := fun v hv =>
    (hI.wellNamed q hmem).uniform.kinds v (List.mem_append_left _ (List.mem_append_left _ hv))
  refine ⟨.bool b, ?_⟩
  rw [encode, Term.denote, Term.denoteList_append, ← hname]
  exact hI.symbol_eq hmem hf (binds_evalArgs hkinds (passedTo hargs hfit) hscope) hb

end Accords

/-- Expressions that pass the type check and involve no float accord with their encodings. Names
that have no value in the valuation may denote anything, for then evaluation gives nothing to
compare. -/
theorem accords (hI : I.Agrees p S) (hu : Uniform vs) {e : Expr} {t : Ty}
    (hc : p.check e = .ok t) (he : e.Covered p vs) {env : Valuation} {ρ : String → Datum S.Num}
    (hρ : env.Matches S ρ) : Accords I vs env S ρ e t := by
  induction e generalizing t env ρ with
  | var v =>
      cases Except.ok.inj hc
      exact .var hu hρ fun w hw => he.mentions (by rwa [mentions_var])
  | int n =>
      cases Except.ok.inj hc
      refine .of_scalar rfl fun _ x hx => ?_
      cases hx
      exact ⟨.int n, rfl⟩
  | float y => cases he.floatFree.ty
  | bool b =>
      cases Except.ok.inj hc
      refine .of_scalar rfl fun _ x hx => ?_
      cases hx
      exact ⟨.bool b, rfl⟩
  | unary op e ih =>
      obtain ⟨u, hcu, hres⟩ := Program.check_unary_iff.1 hc
      have hec : e.Covered p vs := he.child (by simp [children])
      exact (ih hcu hec hρ).unary (hec.ty hcu) hres
  | binary op l r ihl ihr =>
      obtain ⟨u, hcl, hcr, happlies, rfl⟩ := Program.check_binary_iff.1 hc
      have hlc : l.Covered p vs := he.child (by simp [children])
      have hrc : r.Covered p vs := he.child (by simp [children])
      exact (ihl hcl hlc hρ).binary (ihr hcr hrc hρ) (Program.ty_of_check hcl) (hlc.ty hcl)
        happlies
  | quant q v body ih =>
      obtain ⟨-, hvt, hbody, rfl⟩ := Program.check_quant_iff.1 hc
      have hv : v ∈ vs := he.mentions (by
        rw [mentions_eq]
        exact List.mem_append_left _ v.self_mem_withLength)
      have hec : body.Covered p vs := he.child (by simp [children])
      exact .quant hI hu hv hvt fun n => ih hbody hec (matches_insert hρ v.name n)
  | read a i iha ihi =>
      obtain ⟨elem, hca, rfl, hci⟩ := Program.check_read_iff.1 hc
      exact (iha hca (he.child (by simp [children])) hρ).read
        (ihi hci (he.child (by simp [children])) hρ)
  | update a i y n iha ihi ihy ihn =>
      obtain ⟨elem, hca, hci, hcn, hcy, rfl⟩ := Program.check_update_iff.1 hc
      have helem : elem ≠ .float := by
        rintro rfl
        cases he.ty hc
      exact (iha hca (he.child (by simp [children])) hρ).update
        (ihi hci (he.child (by simp [children])) hρ) (ihy hcy (he.child (by simp [children])) hρ)
        (ihn hcn (he.child (by simp [children])) hρ) helem
  | call f args u ih =>
      -- functions have no value, so nothing is asked of the arguments
      refine .of_scalar (Program.check_call_iff.1 hc).2.2 fun _ x hx => ?_
      cases hx
  | app name args ih =>
      obtain ⟨rfl, q, hq, hargs⟩ := Program.check_app_iff.1 hc
      refine .app hI hq (he.floatFree.body hq) (List.forall₂_iff_zip.2 ⟨hargs.length_eq, ?_⟩)
      intro v a hva
      have ha : a ∈ args := (List.of_mem_zip hva).2
      have hca := List.forall₂_zip hargs hva
      exact ⟨Program.ty_of_check hca, ih a ha hca (he.child ha) hρ⟩

end Expr

/-! ## Evaluators

The interpretation of the evaluator, by induction on the number of expansions that are left: an
expansion evaluates a body with one fewer. -/

namespace Evaluator

variable {p : Program} {S : Structure}

/-- What evaluation with a number of nested expansions depends on. -/
def interpretation (ev : Evaluator) : (depth : Nat) → Interpretation
  | 0 => ⟨ev.predicate?, fun q _ => .error (.tooDeep q.name), ev.low, ev.high⟩
  | depth + 1 =>
    ⟨ev.predicate?, fun q scope => do (← ev.evalTo depth q.body scope).asBool q.body, ev.low,
      ev.high⟩

theorem evalTo_eq (ev : Evaluator) (depth : Nat) (e : Expr) (env : Valuation) :
    ev.evalTo depth e env = e.evalWith (ev.interpretation depth) env := by
  cases depth <;> rfl

/-- Without repeated names the last predicate of a name is the first one. Evaluation looks for the
one, and the program for the other. -/
theorem predicate?_eq (hn : (p.predicates.map Predicate.name).Nodup) (low high : Int64)
    (name : String) : predicate? ⟨p.predicates, low, high⟩ name = p.predicate? name := by
  rw [predicate?]
  cases hq : p.predicate? name with
  | none =>
      rw [Program.predicate?, List.find?_eq_none] at hq
      rw [List.find?_eq_none]
      exact fun q hmem => hq q (List.mem_reverse.1 hmem)
  | some q =>
      obtain ⟨hmem, hname⟩ := Program.mem_of_predicate? hq
      have hnodup : (p.predicates.reverse.map Predicate.name).Nodup := by
        rwa [List.map_reverse, List.nodup_reverse]
      rw [← hname]
      exact find?_of_nodup hnodup (List.mem_reverse.2 hmem)

/-- However deep predicates are expanded, the expansion goes by their definitions. The structure
interprets the predicates as they are defined, to any depth. -/
theorem agrees (hv : p.validate = .ok ()) (hp : ∀ q ∈ p.predicates, q.WellNamed)
    (hS : p.Interprets S) {low high : Int64}
    (hD : ∀ n, S.Domain n ↔ low.toInt ≤ n ∧ n ≤ high.toInt) (depth : Nat) :
    ((⟨p.predicates, low, high⟩ : Evaluator).interpretation depth).Agrees p S := by
  have hpredicate := predicate?_eq (Program.nodup_predicates hv) low high
  induction depth with
  | zero => exact ⟨hpredicate, hD, hS, hp, fun _ _ _ _ _ _ _ _ h => by cases h⟩
  | succ depth ih =>
      refine ⟨hpredicate, hD, hS, hp, fun q hq hf scope ρ hmatch hfit b h => ?_⟩
      have hbody := eq_ok_of_asBool h
      rw [evalTo_eq] at hbody
      have hc := Program.check_body hv hq
      exact ((Expr.accords ih (hp q hq).uniform hc
        ⟨List.subset_append_right _ _, hf⟩ hmatch).value hfit _ hbody).eq

end Evaluator

/-- The values of names in a structure, where a valuation comes first, and the constants of the
structure stand in for what it does not have. -/
def Valuation.assignment (env : Valuation) (S : Structure) : String → Datum S.Num :=
  fun x => ((env.find? x).map (Value.datum S)).getD (S.const x)

/-- A valuation gives values of these types, where it gives any. -/
def Valuation.HasTypes (env : Valuation) (types : SortedMap String Ty) : Prop :=
  ∀ x t, types.find? x = some t → ∀ v, env.find? x = some v → v.HasTy t

theorem Valuation.matches_assignment (env : Valuation) (S : Structure) :
    env.Matches S (env.assignment S) := by
  intro x v hx
  rw [assignment, hx]
  rfl

theorem Valuation.HasTypes.fits {env : Valuation} {e : Expr} (h : env.HasTypes e.freeVariables)
    (hu : Uniform e.mentions) : env.Fits e.mentions (e.encode.freeConsts []) :=
  fun v hv hx => h v.name v.ty (Expr.find?_freeVariables hu hv hx)

/-- Where evaluation gives a value, the encoding denotes it. The program is valid, and its
predicates and the expression are about uniformly named variables and no floats; the valuation
gives free variables values of their types, if any.

The structure is any that interprets the predicates as they are defined and lets quantifiers
range over the integers that evaluation tries out. So the functions, the quotients by zero and the
variables without a value can be anything. If the references among the predicates have no cycle,
and the functions in their bodies have names of their own, every structure can be turned into such
a one by a change of the symbols of predicates alone. -/
theorem evaluation_agrees_with_encoding {p : Program} (hv : p.validate = .ok ())
    (hp : ∀ q ∈ p.predicates, q.WellNamed) {e : Expr} {t : Ty} (hc : p.check e = .ok t)
    (hu : Uniform e.mentions) (hf : p.FloatFree e) {env : Valuation}
    (henv : env.HasTypes e.freeVariables) (low high : Int64) :
    (p.Acyclic →
      (∀ q ∈ p.predicates, ∀ a ∈ q.body.symbols, ∀ r ∈ p.predicates, a.1 ≠ r.name) →
      ∀ S : Structure, ∃ g, (∀ f, (∀ q ∈ p.predicates, q.name ≠ f) → g f = S.symbol f) ∧
        p.Interprets (S.withSymbols g)) ∧
    ∀ S : Structure, p.Interprets S → (∀ n, S.Domain n ↔ low.toInt ≤ n ∧ n ≤ high.toInt) →
      ∀ v, (⟨p.predicates, low, high⟩ : Evaluator).eval e env = .ok v →
        v.HasTy t ∧ e.encode.denote S (env.assignment S) = v.datum S := by
  refine ⟨fun ha hs => Program.exists_interprets (Program.nodup_predicates hv) ha hs, ?_⟩
  intro S hS hD v h
  rw [Evaluator.eval, Evaluator.evalTo_eq] at h
  have hrep := (Expr.accords (Evaluator.agrees hv hp hS hD _) hu hc
    ⟨List.Subset.refl _, hf⟩ (env.matches_assignment S)).value (henv.fits hu) v h
  exact ⟨hrep.hasTy, hrep.eq⟩

namespace Bounds

open Sample (a c m length)

def u : Variable := .scalar "u" .bool

/-- The elements of `xs` exceed those of `ys` by at most two. -/
def near : Predicate := ⟨"near", 1, [xs, ys], .app "close" [.var xs, .int 2, .var ys]⟩

/-- A program of two predicates, one of which refers to the other. -/
def pair : Program where
  types := .ofList
    [.predicate [.array .int, .int, .array .int], .predicate [.array .int, .array .int]]
  functions := []
  predicates := [near, close]

/-- The formula `near(a{m <- 5}, c) && (a[m] mod -2 <= m || u)`. -/
def question : Expr :=
  .and (.app "near" [.update (.var a) (.var m) (.int 5) (.var (length a)), .var c])
    (.binary .or
      (.binary .le (.binary .mod (.read (.var a) (.var m)) (.int (-2))) (.var m)) (.var u))

/-- The array `a` is four at one and three elsewhere, `c` is four everywhere; `u` has no
value. -/
def values : Valuation := .ofList
  [("a", .array ((TotalMap.constant (.int 3)).store 1 (.int 4))), ("a$length", .int 2),
    ("c", .array (.constant (.int 4))), ("c$length", .int 3), ("m", .int 1)]

/-- The theory of integers over an interval, without any reals, constants or functions. -/
def integers (low high : Int64) : Structure where
  Num := Unit
  zero := ()
  literal _ := ()
  negate _ := ()
  onReals _ _ _ := .float ()
  div := (· / ·)
  mod := (· % ·)
  division m n hn := ⟨(Int.mul_ediv_add_emod m n).symm, Int.emod_nonneg m hn, by
    have hlt := Int.emod_lt m hn
    omega⟩
  Domain n := low.toInt ≤ n ∧ n ≤ high.toInt
  const _ := .bool false
  symbol _ _ := .bool false

theorem hasTypes_values : values.HasTypes question.freeVariables := by
  have hentries : question.freeVariables.entries =
      [("a", .array .int), ("a$length", .int), ("c", .array .int), ("c$length", .int),
        ("m", .int), ("u", .bool)] := by decide +kernel
  have hfour : (Value.array (.constant (.int 4))).HasTy (.array .int) :=
    .array (.int 4) fun _ => .int 4
  have hthree : (Value.array (.constant (.int 3))).HasTy (.array .int) :=
    .array (.int 3) fun _ => .int 3
  intro x t hx v hv
  have hmem := SortedMap.mem_of_lookup hx
  rw [hentries] at hmem
  simp only [List.mem_cons, Prod.mk.injEq, List.not_mem_nil, or_false] at hmem
  rcases hmem with ⟨rfl, rfl⟩ | ⟨rfl, rfl⟩ | ⟨rfl, rfl⟩ | ⟨rfl, rfl⟩ | ⟨rfl, rfl⟩ | ⟨rfl, rfl⟩
  · cases hv
    exact hthree.store (.int 4) 1
  · cases hv
    exact .int 2
  · cases hv
    exact hfour
  · cases hv
    exact .int 3
  · cases hv
    exact .int 1
  · cases hv

end Bounds

/-- One predicate passes arrays on to another, and the left side of the disjunction settles it,
so that the variable without a value does not matter. -/
theorem evaluation_agrees_with_encoding_near :
    Bounds.pair.validate = .ok () ∧ (∀ q ∈ Bounds.pair.predicates, q.WellNamed) ∧
      Bounds.pair.check Bounds.question = .ok .bool ∧ Uniform Bounds.question.mentions ∧
      Bounds.pair.FloatFree Bounds.question ∧
      Bounds.values.HasTypes Bounds.question.freeVariables ∧ Bounds.pair.Acyclic ∧
      (⟨Bounds.pair.predicates, -1, 4⟩ : Evaluator).eval Bounds.question Bounds.values =
        .ok (.bool true) ∧
      ∃ g, Bounds.pair.Interprets ((Bounds.integers (-1) 4).withSymbols g) ∧
        Bounds.question.encode.denote ((Bounds.integers (-1) 4).withSymbols g)
          (Bounds.values.assignment _) = .bool true := by
  have hv : Bounds.pair.validate = .ok () := rfl
  have hp : ∀ q ∈ Bounds.pair.predicates, q.WellNamed := by decide +kernel
  have hc : Bounds.pair.check Bounds.question = .ok .bool := rfl
  have hu : Uniform Bounds.question.mentions := by decide +kernel
  have hf : Bounds.pair.FloatFree Bounds.question :=
    .of_visit (by decide +kernel) (by decide +kernel)
  have ha : Bounds.pair.Acyclic :=
    Program.acyclic_of_rank (fun x => if x = "near" then 1 else 0) (by decide +kernel)
  have heval : (⟨Bounds.pair.predicates, -1, 4⟩ : Evaluator).eval Bounds.question Bounds.values =
      .ok (.bool true) := rfl
  obtain ⟨hexists, hagrees⟩ :=
    evaluation_agrees_with_encoding hv hp hc hu hf Bounds.hasTypes_values (-1) 4
  obtain ⟨g, -, hg⟩ := hexists ha (by decide +kernel) (Bounds.integers (-1) 4)
  exact ⟨hv, hp, hc, hu, hf, Bounds.hasTypes_values, ha, heval, g, hg,
    (hagrees _ hg (fun _ => Iff.rfl) _ heval).2⟩

/-! ## Floats

Evaluation computes with 64-bit floats, and the sort of the encoding is that of the reals. That
an expression has no float in it does not help if a predicate that it applies has one. -/

/-- The number that a numeral stands for. -/
noncomputable def Decimal.value (d : Decimal) : ℝ :=
  (if d.negative then -1 else 1) * d.coefficient * 10 ^ d.exponent

namespace Rounding

/-- The predicate `sums(n) := 0.1 + 0.2 == 0.3`. -/
def sums : Predicate :=
  ⟨"sums", 0, [.scalar "n" .int],
    .binary .eq (.binary .add (.float 0.1) (.float 0.2)) (.float 0.3)⟩

/-- The program of this predicate only. -/
def program : Program where
  types := ⟨[.predicate [.int]], by decide⟩
  predicates := [sums]

/-- The formula `sums(0)`, in which no float occurs. -/
def question : Expr := .app "sums" [.int 0]

open Classical in
/-- The theories of integers and reals, where quantified integers range over an interval. A
literal has the value of the numeral that stands for it in the text of a term. -/
noncomputable def standard (low high : Int64) : Structure where
  Num := ℝ
  zero := 0
  literal x := (Decimal.ofFloat x).value
  negate x := -x
  onReals op x y :=
    match op with
    | .add => .float (x + y)
    | .sub => .float (x - y)
    | .mul => .float (x * y)
    | .realDiv => .float (x / y)
    | .lt => .bool (x < y)
    | .le => .bool (x ≤ y)
    | .gt => .bool (y < x)
    | .ge => .bool (y ≤ x)
    | _ => .float x
  div := (· / ·)
  mod := (· % ·)
  division m n hn := ⟨(Int.mul_ediv_add_emod m n).symm, Int.emod_nonneg m hn, Int.emod_lt m hn⟩
  Domain n := low.toInt ≤ n ∧ n ≤ high.toInt
  const _ := .bool false
  symbol _ _ := .bool false

/-- The value of a float whose shortest numeral has one digit after the point. -/
theorem value_tenth (x : Float) (n : Nat) (h : Decimal.ofFloat x = ⟨false, n, -1⟩) :
    (Decimal.ofFloat x).value = n / 10 := by
  rw [h, Decimal.value, if_neg Bool.false_ne_true, one_mul, zpow_neg_one]
  rfl

/-- Over the reals the sum is what it should be. With floats it is off in the last place. -/
theorem denote_sums (low high : Int64) (g : String → List (Datum ℝ) → Datum ℝ)
    (ρ : String → Datum ℝ) :
    sums.body.encode.denote ((standard low high).withSymbols g) ρ = .bool true := by
  have h1 : (Decimal.ofFloat 0.1).value = _ := value_tenth 0.1 1 (by decide +kernel)
  have h2 : (Decimal.ofFloat 0.2).value = _ := value_tenth 0.2 2 (by decide +kernel)
  have h3 : (Decimal.ofFloat 0.3).value = _ := value_tenth 0.3 3 (by decide +kernel)
  have hsum : (Decimal.ofFloat 0.1).value + (Decimal.ofFloat 0.2).value =
      (Decimal.ofFloat 0.3).value := by
    rw [h1, h2, h3]
    norm_num
  simp [sums, Expr.encode, BinOp.encode, Term.denote, Op.denote, standard, hsum]

end Rounding

/-- A float in the body of a predicate is enough to part evaluation from the encoding. In
`sums(0)` there is none, and the program and the valuation are as they should be. Evaluation
adds `0.1` and `0.2` as floats and finds that the sum is not `0.3`; over the reals it is, in
every structure that interprets `sums` as it is defined. -/
theorem evaluation_differs_at_floats :
    Rounding.program.validate = .ok () ∧ Rounding.program.Acyclic ∧
      (∀ q ∈ Rounding.program.predicates, q.WellNamed) ∧
      Rounding.program.check Rounding.question = .ok .bool ∧
      Uniform Rounding.question.mentions ∧
      (∀ d ∈ Rounding.question.visit, d.ty.floatFree) ∧
      Valuation.HasTypes .empty Rounding.question.freeVariables ∧
      (⟨Rounding.program.predicates, -8, 8⟩ : Evaluator).eval Rounding.question .empty =
        .ok (.bool false) ∧
      (∃ g, Rounding.program.Interprets ((Rounding.standard (-8) 8).withSymbols g)) ∧
      ∀ g, Rounding.program.Interprets ((Rounding.standard (-8) 8).withSymbols g) →
        Rounding.question.encode.denote ((Rounding.standard (-8) 8).withSymbols g)
          (Valuation.assignment .empty _) = .bool true := by
  have hv : Rounding.program.validate = .ok () := rfl
  have ha : Rounding.program.Acyclic := Program.acyclic_of_rank (fun _ => 0) (by decide +kernel)
  refine ⟨hv, ha, by decide +kernel, rfl, by decide +kernel, by decide +kernel, ?_, rfl, ?_, ?_⟩
  · intro x t hx v hv
    cases hv
  · obtain ⟨g, -, hg⟩ := Program.exists_interprets (Program.nodup_predicates hv) ha
      (by decide +kernel) (Rounding.standard (-8) 8)
    exact ⟨g, hg⟩
  · intro g hg
    have hdefines := hg Rounding.sums List.mem_cons_self [.int 0] (.cons rfl .nil)
    exact hdefines.trans (Rounding.denote_sums _ _ _ _)

end Pathwise
