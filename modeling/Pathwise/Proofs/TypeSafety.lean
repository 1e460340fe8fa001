import Pathwise.Proofs.Expansion
import Pathwise.Proofs.Inputs

/-!
# Pathwise.Proofs.TypeSafety

Evaluation of typed expressions does not go wrong.

The value of an expression is of the type that the check computes, or there is none for a reason
that types do not tell: a division by zero, a number beyond 64 bits or a term of an uninterpreted
function. `Lands` says this of one answer and is closed under the steps of evaluation, so that
each operator needs one lemma. `Expr.landsIn_of_check` puts them together by induction over the
expression, with the expansion of predicates left to the interpretation (`Interpretation.Sound`).
An induction over the depth of expansions then deals with the bodies of predicates
(`Evaluator.sound`), each in a scope that holds its parameters and their lengths.

The two inductions are kept apart because they are about different things. The body of a predicate
is no part of the expression that applies it, and an interpretation of some depth is the result of
the second induction as well as the hypothesis of the first.

One more reason for having no value, that expansion went too deep, is excluded at the end. It does
not follow from types, but from the fact that predicates do not refer to themselves, in which case
the depth that evaluation allows is enough for all of them.

The valuation must give a value to every free variable. What an evaluation looks
at are fewer names than those (`Expr.inputs`), and that is what the induction is about.
-/

namespace Pathwise

/-! ## Faults

Errors carry data about where they arose. What matters here is their kind, and whether it is one
that a typed expression can have. -/

/-- The kinds of evaluation errors. -/
inductive EvalFault where
  | unbound
  | type
  | divisionByZero
  | overflow
  | uninterpreted
  | unknownPredicate
  | model
  | tooDeep
  deriving DecidableEq, Repr

def EvalError.fault : EvalError → EvalFault
  | unbound _ => .unbound
  | type _ _ _ => .type
  | divisionByZero _ => .divisionByZero
  | overflow _ => .overflow
  | uninterpreted _ => .uninterpreted
  | unknownPredicate _ => .unknownPredicate
  | model _ _ => .model
  | tooDeep _ => .tooDeep

/-- Whether a typed expression can have the fault: it lies in the values and the number of
expansions, not in the types. -/
def EvalFault.ofValues : EvalFault → Bool
  | divisionByZero | overflow | uninterpreted | tooDeep => true
  | _ => false

/-- The answer of an evaluation is as `P` says, or there is none although the types are
right. -/
inductive Lands {α : Type} (P : α → Prop) : EvalM α → Prop where
  | ok {a : α} (h : P a) : Lands P (.ok a)
  | error {err : EvalError} (h : err.fault.ofValues) : Lands P (.error err)

namespace Lands

variable {α β : Type} {P : α → Prop} {Q : β → Prop}

theorem bind {x : EvalM α} {f : α → EvalM β} (h : Lands P x) (hf : ∀ a, P a → Lands Q (f a)) :
    Lands Q (x >>= f) := by
  cases h with
  | ok ha => exact hf _ ha
  | error herr => exact .error herr

end Lands

/-! ## Operators

Each operator by itself, on values of the types that it is checked for. No operator reports an
error of types on them. -/

section Operators

variable {e : Expr} {x y : Value} {u t : Ty}

theorem Value.HasTy.lands_asBool (h : x.HasTy .bool) : Lands (fun _ => True) (x.asBool e) := by
  cases h
  exact .ok trivial

theorem Value.HasTy.lands_asInt (h : x.HasTy .int) : Lands (fun _ => True) (x.asInt e) := by
  cases h
  exact .ok trivial

theorem Value.HasTy.lands_asArray {elem : ScalarTy} (h : x.HasTy (.array elem)) :
    Lands (fun m => (Value.array m).HasTy (.array elem)) (x.asArray e) := by
  cases h with
  | array hdefault helements => exact .ok (.array hdefault helements)

theorem lands_fitting (n : Int) : Lands (Value.HasTy · .int) (fitting e n) := by
  rw [fitting]
  split
  · exact .ok (.int _)
  · exact .error rfl

theorem UnOp.lands_apply {op : UnOp} (h : op.result? u = some t) (hx : x.HasTy u) :
    Lands (Value.HasTy · t) (op.apply e x) := by
  cases op <;> cases hx <;> cases h
  · exact lands_fitting _
  · exact .ok (.float _)
  · exact .ok (.bool _)

namespace BinOp

/-- Arithmetic on integers. Quotient and remainder fail for a divisor of zero, and the remainder
also where the quotient would overflow. -/
theorem lands_onInts {op : BinOp} {a b : Int64} {r : EvalM Value} (h : op.onInts e a b = some r) :
    Lands (Value.HasTy · (op.result .int)) r := by
  cases op <;> cases h
  case add => exact lands_fitting _
  case sub => exact lands_fitting _
  case mul => exact lands_fitting _
  case div =>
    split
    · exact .error rfl
    · exact lands_fitting _
  case mod =>
    split
    · exact .error rfl
    · split
      · exact .error rfl
      · exact lands_fitting _
  all_goals exact .ok (.bool _)

/-- Arithmetic on floats, which fails for a divisor of zero only. -/
theorem lands_onFloats {op : BinOp} {a b : Float} {r : EvalM Value}
    (h : op.onFloats e a b = some r) : Lands (Value.HasTy · (op.result .float)) r := by
  cases op <;> cases h
  case div =>
    split
    · exact .error rfl
    · exact .ok (.float _)
  case add => exact .ok (.float _)
  case sub => exact .ok (.float _)
  case mul => exact .ok (.float _)
  all_goals exact .ok (.bool _)

/-- An operator other than the connectives, on two values of a type that it applies to. Both
operands are of one type, so their values are of one kind. -/
theorem lands_apply {op : BinOp} (ho : ¬ (op = .and ∨ op = .or ∨ op = .implies))
    (h : op.appliesTo u) (hx : x.HasTy u) (hy : y.HasTy u) :
    Lands (Value.HasTy · (op.result u)) (op.apply e x y) := by
  cases hx with
  | int a =>
      cases hy with
      | int b =>
          cases op with
          | and | or | implies => simp at ho
          | iff => cases h
          | eq => exact .ok (.bool _)
          | ne => exact .ok (.bool _)
          | _ => exact lands_onInts (e := e) rfl
  | float a =>
      cases hy with
      | float b =>
          cases op with
          | and | or | implies => simp at ho
          | iff | mod => cases h
          | eq => exact .ok (.bool _)
          | ne => exact .ok (.bool _)
          | _ => exact lands_onFloats (e := e) rfl
  | bool a =>
      cases hy with
      | bool b =>
          cases op with
          | and | or | implies => simp at ho
          | iff => exact .ok (.bool _)
          | eq => exact .ok (.bool _)
          | ne => exact .ok (.bool _)
          | _ => cases h
  | array _ _ =>
      cases op with
      | eq => exact .ok (.bool _)
      | ne => exact .ok (.bool _)
      | _ => cases h

end BinOp

/-- A quantifier tries out integers until one settles it. -/
theorem Quantifier.lands_decide (q : Quantifier) {holds : Int64 → EvalM Bool}
    (h : ∀ i, Lands (fun _ => True) (holds i)) (first : Int) (count : Nat) :
    Lands (fun _ => True) (q.decide holds first count) := by
  induction count generalizing first with
  | zero => exact .ok trivial
  | succ n ih =>
      rw [decide]
      refine (h _).bind fun b _ => ?_
      cases q <;> cases b
      · exact .ok trivial
      · exact ih _
      · exact ih _
      · exact .ok trivial

end Operators

/-! ## Expressions

Variables are read from a valuation that has values of their types, and predicates are applied in
a scope that is made from their arguments. -/

/-- A valuation gives a variable a value of its type. -/
def Valuation.Gives (env : Valuation) (v : Variable) : Prop :=
  ∃ x, env.find? v.name = some x ∧ x.HasTy v.ty

/-- A valuation gives values of their types to the variables with the given names. -/
def Valuation.Supplies (env : Valuation) (vs : List Variable) (names : List String) : Prop :=
  ∀ v ∈ vs, v.name ∈ names → env.Gives v

namespace Valuation

variable {env scope : Valuation} {vs done : List Variable} {names names' : List String}
  {v : Variable} {x : Value}

theorem Supplies.mono (h : env.Supplies vs names') (hn : names ⊆ names') :
    env.Supplies vs names :=
  fun v hv hx => h v hv (hn hx)

theorem Gives.lands_read (h : env.Gives v) : Lands (Value.HasTy · v.ty) (env.read v.name) := by
  obtain ⟨x, hx, hty⟩ := h
  rw [read, hx]
  exact .ok hty

/-- One more variable, where variables of the same name are of the same type. An array and its
length could share a name otherwise. -/
theorem gives_insert (h : ∀ w ∈ done, scope.Gives w)
    (hty : ∀ w ∈ done, w.name = v.name → w.ty = v.ty) (hx : x.HasTy v.ty) :
    ∀ w ∈ done ++ [v], Gives (scope.insert v.name x) w := by
  intro w hw
  by_cases hname : w.name = v.name
  · refine ⟨x, by rw [SortedMap.find?_insert, if_pos hname], ?_⟩
    rcases List.mem_append.1 hw with hw | hw
    · rwa [hty w hw hname]
    · rwa [List.mem_singleton.1 hw]
  · rcases List.mem_append.1 hw with hw | hw
    · obtain ⟨y, hy, hyt⟩ := h w hw
      exact ⟨y, by rw [SortedMap.find?_insert, if_neg hname, hy], hyt⟩
    · exact absurd (by rw [List.mem_singleton.1 hw]) hname

/-- The value that a quantifier binds is of the type of its variable. -/
theorem Supplies.insert {q : Quantifier} {body : Expr}
    (h : env.Supplies vs (Expr.quant q v body).inputs) (hu : Uniform vs) (hv : v ∈ vs)
    (hvt : v.ty = .int) (i : Int64) :
    Supplies (env.insert v.name (.int i)) vs body.inputs := by
  intro w hw hx
  by_cases hname : w.name = v.name
  · refine ⟨.int i, by rw [SortedMap.find?_insert, if_pos hname], ?_⟩
    rw [hu.ty w hw v hv hname, hvt]
    exact .int i
  · obtain ⟨y, hy, hyt⟩ := h w hw (Expr.mem_inputs_quant.2 ⟨hx, hname⟩)
    exact ⟨y, by rw [SortedMap.find?_insert, if_neg hname, hy], hyt⟩

end Valuation

/-- An interpretation goes by a program, and its expansions of predicates do not go wrong. This is
what the induction over expressions takes for granted, and what the induction over depths shows.
-/
structure Interpretation.Sound (I : Interpretation) (p : Program) : Prop where
  predicate? : ∀ name, I.predicate? name = p.predicate? name
  /-- A name in a predicate has one type, and arrays have lengths. -/
  uniform : ∀ q ∈ p.predicates, Uniform (q.formals ++ q.body.mentions)
  /-- A scope with the parameters and their lengths is enough for an expansion. -/
  expand : ∀ q ∈ p.predicates, ∀ scope : Valuation, (∀ v ∈ q.formals, scope.Gives v) →
    Lands (fun _ => True) (I.expand q scope)

/-- The parameters of a predicate and their lengths, in either order. -/
theorem Predicate.mem_formals {q : Predicate} {v : Variable} :
    v ∈ q.formals ↔ v ∈ q.parameters.flatMap Variable.withLength := by
  simp only [formals, List.mem_append, List.mem_filterMap, List.mem_flatMap,
    Variable.mem_withLength]
  constructor
  · rintro (hv | ⟨w, hw, hl⟩)
    · exact ⟨v, hv, Or.inl rfl⟩
    · exact ⟨w, hw, Or.inr hl⟩
  · rintro ⟨w, hw, rfl | hl⟩
    · exact Or.inl hw
    · exact Or.inr ⟨w, hw, hl⟩

namespace Expr

variable {p : Program} {I : Interpretation} {vs : List Variable} {env : Valuation}

/-- The variables of an expression are among those of a list. -/
def On (e : Expr) (vs : List Variable) : Prop := e.mentions ⊆ vs

theorem On.child {c e : Expr} (h : e.On vs) (hc : c ∈ e.children) : c.On vs :=
  fun _ hv => h (mentions_subset_of_child hc hv)

/-- The value of an argument is right for a parameter, and so is its length for an array. -/
structure LandsAs (I : Interpretation) (env : Valuation) (v : Variable) (e : Expr) : Prop where
  value : Lands (Value.HasTy · v.ty) (e.evalWith I env)
  length : v.length?.isSome → ∃ r, e.evalLength I env = some r ∧ Lands (Value.HasTy · .int) r

/-- The scope of an expansion holds the parameters and their lengths. The variables `done` are in
the scope already, and the list grows with the parameters. -/
theorem lands_evalArgs (done : List Variable) {params : List Variable} {args : List Expr}
    {scope : Valuation} (hargs : List.Forall₂ (LandsAs I env) params args)
    (hu : Uniform (done ++ params.flatMap Variable.withLength))
    (hscope : ∀ v ∈ done, scope.Gives v) :
    Lands (fun s => ∀ v ∈ done ++ params.flatMap Variable.withLength, s.Gives v)
      (evalArgs I env params scope args) := by
  induction hargs generalizing done scope with
  | nil => exact .ok (by simpa using hscope)
  | @cons v e params args he _ ih =>
      rw [List.flatMap_cons] at hu ⊢
      have hty : ∀ w ∈ done ++ v.withLength, ∀ w' ∈ done ++ v.withLength, w.name = w'.name →
          w.ty = w'.ty := fun w hw w' hw' => hu.ty w (by simp_all; tauto) w' (by simp_all; tauto)
      rw [evalArgs]
      refine he.value.bind fun x hx => ?_
      have hv := Valuation.gives_insert hscope
        (fun w hw => hty w (by simp [hw]) v (by simp)) hx
      cases hl : v.length? with
      | none =>
          have hw : v.withLength = [v] := by simp [Variable.withLength, hl]
          rw [hw, ← List.append_assoc] at hu ⊢
          exact ih _ hu hv
      | some l =>
          have hw : v.withLength = [v] ++ [l] := by simp [Variable.withLength, hl]
          obtain ⟨r, hr, hlength⟩ := he.length (by rw [hl]; rfl)
          rw [hr]
          refine hlength.bind fun n hn => ?_
          rw [← Variable.ty_of_length? hl] at hn
          have hvl := Valuation.gives_insert hv
            (fun w hw => hty w (by simp_all; tauto) l (by simp [hl])) hn
          rw [hw, ← List.append_assoc, ← List.append_assoc] at hu ⊢
          exact ih _ hu hvl

/-- A connective looks at the right operand only if the left one does not settle it. -/
theorem lands_connective {op : BinOp} {u : Ty} {l r : Expr}
    (ho : op = .and ∨ op = .or ∨ op = .implies) (h : op.appliesTo u)
    (hl : Lands (Value.HasTy · u) (l.evalWith I env))
    (hr : Lands (Value.HasTy · u) (r.evalWith I env)) :
    Lands (Value.HasTy · (op.result u)) ((binary op l r).evalWith I env) := by
  have hbool : u = .bool ∧ op.result u = .bool := by
    rcases ho with rfl | rfl | rfl <;> cases u <;> cases h <;> exact ⟨rfl, rfl⟩
  obtain ⟨rfl, hres⟩ := hbool
  rw [evalWith_connective ho, hres]
  refine hl.bind fun x hx => hx.lands_asBool.bind fun a _ => ?_
  -- the right operand counts only if the left one leaves the result open
  cases op.settled? a with
  | some c => exact .ok (.bool c)
  | none => exact hr.bind fun y hy => hy.lands_asBool.bind fun b _ => .ok (.bool b)

/-! ### One constructor at a time

`Expr.LandsIn` is what the induction over expressions is about: the value, and, since predicates
are given the lengths of arrays, the length too. Each lemma below is one case. -/

/-- The value of an expression, if there is one, is of a type, and so is the length of an array. -/
structure LandsIn (I : Interpretation) (vs : List Variable) (env : Valuation) (e : Expr)
    (t : Ty) : Prop where
  value : env.Supplies vs e.inputs → Lands (Value.HasTy · t) (e.evalWith I env)
  length : t.isArray → env.Supplies vs e.argumentInputs →
    ∃ r, e.evalLength I env = some r ∧ Lands (Value.HasTy · .int) r

namespace LandsIn

variable {t u : Ty}

theorem of_scalar {e : Expr} (ht : t.isArray = false)
    (h : env.Supplies vs e.inputs → Lands (Value.HasTy · t) (e.evalWith I env)) :
    LandsIn I vs env e t := by
  refine ⟨h, fun ha => ?_⟩
  rw [ht] at ha
  cases ha

theorem var (hu : Uniform vs) {v : Variable} (hmem : ∀ w ∈ v.withLength, w ∈ vs) :
    LandsIn I vs env (.var v) v.ty := by
  have hv := hmem v v.self_mem_withLength
  refine ⟨fun henv => ?_, fun ha henv => ?_⟩
  · rw [evalWith]
    exact (henv v hv (by simp [inputs])).lands_read
  · rw [← hu.kinds v hv, Variable.isArray_iff_length?] at ha
    obtain ⟨l, hl⟩ := Option.isSome_iff_exists.1 ha
    refine ⟨env.read l.name, by simp [evalLength, hl], ?_⟩
    rw [← Variable.ty_of_length? hl]
    exact (henv l (hmem l (by simp [hl])) (by simp [argumentInputs, passedLength?, hl])).lands_read

theorem unary {op : UnOp} {e : Expr} (he : LandsIn I vs env e u) (hres : op.result? u = some t) :
    LandsIn I vs env (.unary op e) t := by
  refine .of_scalar (UnOp.isArray_of_result? hres) fun henv => ?_
  rw [evalWith]
  exact (he.value henv).bind fun x hx => UnOp.lands_apply hres hx

theorem binary {op : BinOp} {l r : Expr} (hl : LandsIn I vs env l u) (hr : LandsIn I vs env r u)
    (happlies : op.appliesTo u) : LandsIn I vs env (.binary op l r) (op.result u) := by
  refine .of_scalar (BinOp.isArray_result happlies) fun henv => ?_
  rw [inputs] at henv
  have hl := hl.value (henv.mono (by simp))
  have hr := hr.value (henv.mono (by simp))
  by_cases ho : op = .and ∨ op = .or ∨ op = .implies
  · exact lands_connective ho happlies hl hr
  · rw [evalWith_operator ho]
    exact hl.bind fun x hx => hr.bind fun y hy => BinOp.lands_apply ho happlies hx hy

/-- Whatever integer is tried out, the body lands in a truth value. -/
theorem quant (hu : Uniform vs) {q : Quantifier} {v : Variable} {body : Expr} (hv : v ∈ vs)
    (hvt : v.ty = .int)
    (hbody : ∀ i : Int64, LandsIn I vs (env.insert v.name (.int i)) body .bool) :
    LandsIn I vs env (.quant q v body) .bool := by
  refine .of_scalar rfl fun henv => ?_
  rw [evalWith]
  refine (q.lands_decide (fun i => ?_) _ _).bind fun b _ => .ok (.bool b)
  exact ((hbody i).value (henv.insert hu hv hvt i)).bind fun x hx => hx.lands_asBool

theorem read {a i : Expr} {elem : ScalarTy} (ha : LandsIn I vs env a (.array elem))
    (hi : LandsIn I vs env i .int) : LandsIn I vs env (.read a i) elem.toTy := by
  refine .of_scalar (Ty.isArray_toTy elem) fun henv => ?_
  rw [inputs] at henv
  have ha := ha.value (henv.mono (by simp))
  have hi := hi.value (henv.mono (by simp))
  rw [evalWith]
  refine ha.bind fun x hx => hx.lands_asArray.bind fun m harray => ?_
  exact hi.bind fun y hy => hy.lands_asInt.bind fun k _ => .ok (harray.select k)

theorem update {a i y n : Expr} {elem : ScalarTy} (ha : LandsIn I vs env a (.array elem))
    (hi : LandsIn I vs env i .int) (hy : LandsIn I vs env y elem.toTy)
    (hn : LandsIn I vs env n .int) : LandsIn I vs env (.update a i y n) (.array elem) := by
  refine ⟨fun henv => ?_, fun _ henv => ⟨n.evalWith I env, rfl, ?_⟩⟩
  · rw [inputs] at henv
    have ha := ha.value (henv.mono (by simp))
    have hi := hi.value (henv.mono (by simp))
    have hy := hy.value (henv.mono fun _ hx => by simp [hx])
    rw [evalWith]
    refine ha.bind fun x hx => hx.lands_asArray.bind fun m harray => ?_
    refine hi.bind fun z hz => hz.lands_asInt.bind fun k _ => ?_
    exact hy.bind fun w hw => .ok (harray.store hw k)
  · exact hn.value (henv.mono fun _ hx => by simp [argumentInputs, inputs, hx])

/-- Arguments of the right types are right for their parameters, lengths included. -/
theorem landsAs {name : String} {args : List Expr} {params : List Variable}
    (hkinds : ∀ v ∈ params, v.isArray = v.ty.isArray)
    (hargs : List.Forall₂ (fun v a => LandsIn I vs env a v.ty) params args)
    (henv : env.Supplies vs (Expr.app name args).inputs) :
    List.Forall₂ (LandsAs I env) params args := by
  rw [List.forall₂_iff_zip]
  refine ⟨hargs.length_eq, fun {v a} hva => ?_⟩
  obtain ⟨hv, ha⟩ := List.of_mem_zip hva
  have henva := henv.mono (argumentInputs_subset ha)
  obtain ⟨hvalue, hlength⟩ := List.forall₂_zip hargs hva
  refine ⟨hvalue (henva.mono (List.subset_append_left _ _)), fun hl => hlength ?_ henva⟩
  rw [← hkinds v hv, Variable.isArray_iff_length?, hl]

/-- The scope of the expansion has all that the body of the predicate looks at. -/
theorem app (hI : I.Sound p) {name : String} {args : List Expr} {q : Predicate}
    (hq : p.predicate? name = some q)
    (hargs : List.Forall₂ (fun v a => LandsIn I vs env a v.ty) q.parameters args) :
    LandsIn I vs env (.app name args) .bool := by
  refine .of_scalar rfl fun henv => ?_
  have hmem := (Program.mem_of_predicate? hq).1
  have hkinds : ∀ v ∈ q.parameters, v.isArray = v.ty.isArray := fun v hv =>
    (hI.uniform q hmem).kinds v (by simp [Predicate.formals, hv])
  have huq : Uniform (q.parameters.flatMap Variable.withLength) :=
    (hI.uniform q hmem).mono fun v hv => List.mem_append_left _ (Predicate.mem_formals.2 hv)
  rw [evalWith, hI.predicate?, hq]
  refine (lands_evalArgs [] (landsAs hkinds hargs henv) huq (List.forall_mem_nil _)).bind
    fun scope hscope => ?_
  refine (hI.expand q hmem scope fun v hv => hscope v ?_).bind fun b _ => .ok (.bool b)
  exact Predicate.mem_formals.1 hv

end LandsIn

/-- Typed expressions land in their types, whatever the valuation holds besides the inputs.
Uninterpreted functions have no values, so nothing is asked of their arguments. -/
theorem landsIn_of_check (hI : I.Sound p) (hu : Uniform vs) {e : Expr} {t : Ty}
    (hc : p.check e = .ok t) (hm : e.On vs) : LandsIn I vs env e t := by
  induction e generalizing t env with
  | var v =>
      cases Except.ok.inj hc
      exact .var hu fun w hw => hm (by rwa [mentions_var])
  | int n =>
      cases Except.ok.inj hc
      exact .of_scalar rfl fun _ => .ok (.int n)
  | float y =>
      cases Except.ok.inj hc
      exact .of_scalar rfl fun _ => .ok (.float y)
  | bool b =>
      cases Except.ok.inj hc
      exact .of_scalar rfl fun _ => .ok (.bool b)
  | unary op e ih =>
      obtain ⟨u, hcu, hres⟩ := Program.check_unary_iff.1 hc
      exact (ih hcu (hm.child (by simp [children]))).unary hres
  | binary op l r ihl ihr =>
      obtain ⟨u, hcl, hcr, happlies, rfl⟩ := Program.check_binary_iff.1 hc
      exact (ihl hcl (hm.child (by simp [children]))).binary
        (ihr hcr (hm.child (by simp [children]))) happlies
  | quant q v body ih =>
      obtain ⟨-, hvt, hcb, rfl⟩ := Program.check_quant_iff.1 hc
      have hv : v ∈ vs := hm (by
        rw [mentions_eq]
        exact List.mem_append_left _ v.self_mem_withLength)
      exact .quant hu hv hvt fun i => ih hcb (hm.child (by simp [children]))
  | read a i iha ihi =>
      obtain ⟨elem, hca, rfl, hci⟩ := Program.check_read_iff.1 hc
      exact (iha hca (hm.child (by simp [children]))).read (ihi hci (hm.child (by simp [children])))
  | update a i y n iha ihi ihy ihn =>
      obtain ⟨elem, hca, hci, hcn, hcy, rfl⟩ := Program.check_update_iff.1 hc
      exact (iha hca (hm.child (by simp [children]))).update
        (ihi hci (hm.child (by simp [children]))) (ihy hcy (hm.child (by simp [children])))
        (ihn hcn (hm.child (by simp [children])))
  | call f args u ih => exact .of_scalar (Program.check_call_iff.1 hc).2.2 fun _ => .error rfl
  | app name args ih =>
      obtain ⟨rfl, q, hq, hargs⟩ := Program.check_app_iff.1 hc
      refine .app hI hq (List.forall₂_iff_zip.2 ⟨hargs.length_eq, ?_⟩)
      intro v a hva
      have ha : a ∈ args := (List.of_mem_zip hva).2
      exact ih a ha (List.forall₂_zip hargs hva) (hm.child ha)

end Expr

/-! ## Evaluators

The interpretation of an evaluator is sound at every depth. The body of a predicate mentions
nothing but what its scope holds, which validation has checked. -/

/-- The body of a predicate looks at the parameters and their lengths only. Validation allows no
other free variables, and inputs are free variables. -/
theorem Program.exists_formal_of_inputs {p : Program} (hv : p.validate = .ok ()) {q : Predicate}
    (hq : q ∈ p.predicates) (hk : q.body.Kinded) {x : String}
    (hx : x ∈ q.body.inputs) : ∃ w ∈ q.formals, w.name = x := by
  have hvalid := validatePredicate_of_validate hv hq
  unfold validatePredicate at hvalid
  obtain ⟨sig, -, hvalid⟩ := bind_eq_ok_iff.1 hvalid
  have hvalid := (seq_eq_ok_iff.1 hvalid).2
  dsimp only at hvalid
  rw [check_body hv hq] at hvalid
  have hvalid := (seq_eq_ok_iff.1 (seq_eq_ok_iff.1 hvalid).2).2
  split at hvalid
  · cases hvalid
  · next hnone =>
      obtain ⟨t, ht⟩ := Expr.mem_freeVariables_of_inputs hk hx
      have hkey : x ∈ q.body.freeVariables.keys :=
        List.mem_map.2 ⟨(x, t), SortedMap.mem_of_lookup ht, rfl⟩
      have hallowed := List.find?_eq_none.1 hnone x hkey
      rw [decide_eq_true_iff, not_not, Predicate.allowedNames, List.mem_flatMap] at hallowed
      obtain ⟨v, hv, hxv⟩ := hallowed
      have hnames : x ∈ v.withLength.map Variable.name := by
        cases hl : v.length? <;> simp_all [Variable.withLength]
      obtain ⟨w, hw, rfl⟩ := List.mem_map.1 hnames
      exact ⟨w, Predicate.mem_formals.2 (List.mem_flatMap.2 ⟨v, hv, hw⟩), rfl⟩

namespace Evaluator

variable {p : Program}

/-- However deep predicates are expanded, no expansion goes wrong. At depth zero each of them
fails, and fails for being too deep, which is no fault of types. -/
theorem sound (hv : p.validate = .ok ())
    (hp : ∀ q ∈ p.predicates, Uniform (q.formals ++ q.body.mentions)) (low high : Int64)
    (depth : Nat) : ((⟨p.predicates, low, high⟩ : Evaluator).interpretation depth).Sound p := by
  have hpredicate := predicate?_eq (Program.nodup_predicates hv) low high
  induction depth with
  -- at depth zero every expansion is too deep
  | zero => exact ⟨hpredicate, hp, fun _ _ _ _ => .error rfl⟩
  | succ depth ih =>
      refine ⟨hpredicate, hp, fun q hq scope hscope => ?_⟩
      have hsupplies : scope.Supplies (q.formals ++ q.body.mentions) q.body.inputs := by
        intro v hmem hx
        have hk := fun w hw => (hp q hq).kinds w (List.mem_append_right q.formals hw)
        obtain ⟨w, hw, hname⟩ := Program.exists_formal_of_inputs hv hq hk hx
        obtain ⟨x, hx, hty⟩ := hscope w hw
        rw [(hp q hq).ty w (List.mem_append_left _ hw) v hmem hname] at hty
        exact ⟨x, hname ▸ hx, hty⟩
      have hbody := (Expr.landsIn_of_check ih (hp q hq) (Program.check_body hv hq)
        (List.subset_append_right _ _)).value hsupplies
      rw [← evalTo_eq] at hbody
      exact hbody.bind fun x hx => hx.lands_asBool

end Evaluator

/-- A valuation gives each of some names a value of its type. -/
def Valuation.Covers (env : Valuation) (types : SortedMap String Ty) : Prop :=
  ∀ x t, types.find? x = some t → ∃ v, env.find? x = some v ∧ v.HasTy t

/-- A valuation for the free variables has all that an evaluation looks at. -/
theorem Valuation.Covers.supplies {env : Valuation} {e : Expr} (h : env.Covers e.freeVariables)
    (hu : Uniform e.mentions) : env.Supplies e.mentions e.inputs :=
  fun v hv hx => h v.name v.ty (Expr.find?_freeVariables_of_inputs hu hv hx)

/-- Evaluation of a typed expression does not go wrong, in a valid program whose predicates do
not refer to themselves and whose names have one type each. If the valuation gives every free
variable a value of its type, then the answer is a value of the type of the expression, or the
evaluation ran into a division by zero, a number beyond 64 bits or an uninterpreted function. -/
theorem evaluation_type_safe {p : Program} (hv : p.validate = .ok ()) (ha : p.Acyclic)
    (hp : ∀ q ∈ p.predicates, Uniform (q.formals ++ q.body.mentions)) {e : Expr} {t : Ty}
    (hc : p.check e = .ok t) (hu : Uniform e.mentions) {env : Valuation}
    (henv : env.Covers e.freeVariables) (low high : Int64) :
    (∃ v, (⟨p.predicates, low, high⟩ : Evaluator).eval e env = .ok v ∧ v.HasTy t) ∨
    ∃ err, (⟨p.predicates, low, high⟩ : Evaluator).eval e env = .error err ∧
      (err.fault = .divisionByZero ∨ err.fault = .overflow ∨ err.fault = .uninterpreted) := by
  have hlands : Lands (Value.HasTy · t) ((⟨p.predicates, low, high⟩ : Evaluator).eval e env) := by
    rw [Evaluator.eval, Evaluator.evalTo_eq]
    exact (Expr.landsIn_of_check (Evaluator.sound hv hp low high _) hu hc
      (List.Subset.refl _)).value (henv.supplies hu)
  have hexpanded : Expanded ((⟨p.predicates, low, high⟩ : Evaluator).eval e env)
      ((⟨p.predicates, low, high⟩ : Evaluator).eval e env) :=
    Evaluator.expanded_evalTo hv hc (fun x _ => ha x)
      (fun x => Program.mem_names_of_reaches hv hc)
      (by rw [List.length_map]; exact Nat.le_max_right _ _) (Nat.le_refl _) env
  generalize (⟨p.predicates, low, high⟩ : Evaluator).eval e env = answer at hlands hexpanded ⊢
  cases hlands with
  | ok hty => exact Or.inl ⟨_, rfl, hty⟩
  | @error err hfault =>
      have hdepth := hexpanded.error rfl
      refine Or.inr ⟨err, rfl, ?_⟩
      -- the other faults are those of types, and that of too deep an expansion
      cases err with
      | divisionByZero _ => exact Or.inl rfl
      | overflow _ => exact Or.inr (Or.inl rfl)
      | uninterpreted _ => exact Or.inr (Or.inr rfl)
      | tooDeep _ => cases hdepth
      | _ => cases hfault

namespace Bounds

/-- All free variables of the question have a value. -/
def allValues : Valuation := values.insert "u" (.bool false)

theorem covers_allValues : allValues.Covers question.freeVariables := by
  intro x t hx
  have hu : question.freeVariables.find? "u" = some .bool := by decide +kernel
  have hothers : ∀ x ∈ question.freeVariables.keys, x ≠ "u" → (values.find? x).isSome := by
    decide +kernel
  rw [allValues, SortedMap.find?_insert]
  by_cases hxu : x = "u"
  · rw [if_pos hxu]
    rw [hxu, hu] at hx
    cases hx
    exact ⟨_, rfl, .bool false⟩
  · rw [if_neg hxu]
    have hkey : x ∈ question.freeVariables.keys :=
      List.mem_map.2 ⟨(x, t), SortedMap.mem_of_lookup hx, rfl⟩
    obtain ⟨v, hv⟩ := Option.isSome_iff_exists.1 (hothers x hkey hxu)
    exact ⟨v, hv, hasTypes_values x t hx v hv⟩

end Bounds

/-- An array with one element changed goes through two predicates, and a remainder is compared. -/
theorem evaluation_type_safe_near :
    Bounds.pair.validate = .ok () ∧ Bounds.pair.Acyclic ∧
      (∀ q ∈ Bounds.pair.predicates, Uniform (q.formals ++ q.body.mentions)) ∧
      Bounds.pair.check Bounds.question = .ok .bool ∧ Uniform Bounds.question.mentions ∧
      Bounds.allValues.Covers Bounds.question.freeVariables ∧
      ((∃ v, (⟨Bounds.pair.predicates, -1, 4⟩ : Evaluator).eval Bounds.question
          Bounds.allValues = .ok v ∧ v.HasTy .bool) ∨
        ∃ err, (⟨Bounds.pair.predicates, -1, 4⟩ : Evaluator).eval Bounds.question
            Bounds.allValues = .error err ∧
          (err.fault = .divisionByZero ∨ err.fault = .overflow ∨ err.fault = .uninterpreted)) := by
  have hv : Bounds.pair.validate = .ok () := rfl
  have ha : Bounds.pair.Acyclic :=
    Program.acyclic_of_rank (fun x => if x = "near" then 1 else 0) (by decide +kernel)
  have hp : ∀ q ∈ Bounds.pair.predicates, Uniform (q.formals ++ q.body.mentions) := by
    decide +kernel
  have hc : Bounds.pair.check Bounds.question = .ok .bool := rfl
  have hu : Uniform Bounds.question.mentions := by decide +kernel
  exact ⟨hv, ha, hp, hc, hu, Bounds.covers_allValues,
    evaluation_type_safe hv ha hp hc hu Bounds.covers_allValues (-1) 4⟩

end Pathwise
