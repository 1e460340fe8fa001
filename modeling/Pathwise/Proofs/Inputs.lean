import Pathwise.Proofs.Evaluation

/-!
# Pathwise.Proofs.Inputs

Which variables the evaluation of an expression looks at.

`Expr.inputs` lists the names that evaluation may look up: those of the variables that no
quantifier around them binds and, where a predicate is applied, those of the lengths that are
passed along with arrays. Valuations that agree on these names give the same answer
(`Expr.evalWith_congr`), and the names are among the free variables (`Expr.collects_of_inputs`).
The latter needs that arrays are told by their types: what is passed to a predicate goes by the
kind of a variable, what is collected by its type.

The free variables are what a checker declares and what a counter model is reduced to, while the
inputs are what evaluation really needs. They are fewer: a function has no value, so its arguments
are never looked at, and the length of an array that is only read does not matter.

The answer includes errors. Two valuations that agree on the inputs also agree on which variable
is missing.
-/

namespace Pathwise

/-- Two valuations say the same about the names of a list. -/
def Valuation.AgreeOn (env env' : Valuation) (names : List String) : Prop :=
  ∀ x ∈ names, env.find? x = env'.find? x

theorem Valuation.AgreeOn.mono {env env' : Valuation} {names names' : List String}
    (h : env.AgreeOn env' names') (hn : names ⊆ names') : env.AgreeOn env' names :=
  fun x hx => h x (hn hx)

namespace Expr

/-! ## Inputs

Lengths are not part of an expression, so they are listed where an expression becomes an argument.
An update has its length as an operand and brings nothing else along. -/

/-- The length that goes along with a variable as an argument. -/
def passedLength? : Expr → Option Variable
  | var v => v.length?
  | _ => none

mutual

/-- The names that the evaluation of an expression may look up. The length of an array is looked
up only where the array is an argument of a predicate. -/
def inputs : Expr → List String
  | var v => [v.name]
  | int _ | float _ | bool _ => []
  | unary _ e => inputs e
  | binary _ l r => inputs l ++ inputs r
  | quant _ v body => (inputs body).filter (· ≠ v.name)
  | read array index => inputs array ++ inputs index
  | update array index value length =>
    inputs array ++ inputs index ++ inputs value ++ inputs length
  | call _ _ _ => []
  | app _ args => inputsArgs args

/-- The names for the arguments of a predicate and for the lengths of the arrays among them. -/
def inputsArgs : List Expr → List String
  | [] => []
  | e :: es => inputs e ++ e.passedLength?.toList.map Variable.name ++ inputsArgs es

end

/-- The names for an argument of a predicate. -/
def argumentInputs (e : Expr) : List String :=
  e.inputs ++ e.passedLength?.toList.map Variable.name

/-- The names for a list of arguments are those for each of them. -/
theorem mem_inputsArgs {es : List Expr} {x : String} :
    x ∈ inputsArgs es ↔ ∃ e ∈ es, x ∈ e.argumentInputs := by
  induction es with
  | nil => simp [inputsArgs]
  | cons e es ih => simp [inputsArgs, argumentInputs, ih, or_assoc]

theorem argumentInputs_subset {p : String} {args : List Expr} {e : Expr} (he : e ∈ args) :
    e.argumentInputs ⊆ (app p args).inputs := by
  intro x hx
  rw [inputs]
  exact mem_inputsArgs.2 ⟨e, he, hx⟩

/-- A quantifier takes its own name away. -/
theorem mem_inputs_quant {q : Quantifier} {v : Variable} {body : Expr} {x : String} :
    x ∈ (quant q v body).inputs ↔ x ∈ body.inputs ∧ x ≠ v.name := by
  rw [inputs, List.mem_filter, decide_eq_true_iff]

/-! ## Valuations that agree on the inputs

By induction over the expression, for its value and for its length at once. Under a quantifier the
bound name is no input, and both valuations get the same integer for it. -/

variable {I : Interpretation} {env env' : Valuation}

/-- The arguments of a predicate, given that each of them and each length has one value. -/
theorem evalArgs_congr {es : List Expr}
    (h : ∀ e ∈ es, e.evalWith I env = e.evalWith I env' ∧
      e.evalLength I env = e.evalLength I env') (params : List Variable) (scope : Valuation) :
    evalArgs I env params scope es = evalArgs I env' params scope es := by
  induction es generalizing params scope with
  | nil => cases params <;> rfl
  | cons e es ih =>
      obtain ⟨⟨hvalue, hlength⟩, hes⟩ := List.forall_mem_cons.1 h
      cases params with
      | nil => rfl
      | cons v vs => simp only [evalArgs, hvalue, hlength, ih hes]

/-- The answer of evaluation depends on the inputs only, and so does the length that is passed
along with an argument. -/
theorem evalWith_congr (e : Expr) :
    (∀ {env env' : Valuation}, env.AgreeOn env' e.inputs →
      e.evalWith I env = e.evalWith I env') ∧
    ∀ {env env' : Valuation}, env.AgreeOn env' e.argumentInputs →
      e.evalLength I env = e.evalLength I env' := by
  induction e with
  | var v =>
      refine ⟨fun h => ?_, fun {env env'} h => ?_⟩
      · rw [evalWith, evalWith, Valuation.read, Valuation.read, h v.name (by simp [inputs])]
      · rw [evalLength, evalLength]
        cases hl : v.length? with
        | none => rfl
        | some l =>
            have hfind := h l.name (by simp [argumentInputs, passedLength?, hl])
            simp only [Option.map_some, Valuation.read, hfind]
  | int n => exact ⟨fun _ => rfl, fun _ => rfl⟩
  | float x => exact ⟨fun _ => rfl, fun _ => rfl⟩
  | bool b => exact ⟨fun _ => rfl, fun _ => rfl⟩
  | unary op e ih =>
      refine ⟨fun h => ?_, fun _ => rfl⟩
      rw [inputs] at h
      rw [evalWith, evalWith, ih.1 h]
  | binary op l r ihl ihr =>
      refine ⟨fun h => ?_, fun _ => rfl⟩
      rw [inputs] at h
      have hl := ihl.1 (h.mono (by simp))
      have hr := ihr.1 (h.mono (by simp))
      cases op <;> simp only [evalWith, hl, hr]
  | quant q v body ih =>
      refine ⟨fun {env env'} h => ?_, fun _ => rfl⟩
      -- inside the quantifier the valuations agree on the bound name as well
      have hbody : ∀ i, body.evalWith I (env.insert v.name (.int i)) =
          body.evalWith I (env'.insert v.name (.int i)) := by
        intro i
        refine ih.1 fun x hx => ?_
        rw [SortedMap.find?_insert, SortedMap.find?_insert]
        split
        · rfl
        · next hne => exact h x (mem_inputs_quant.2 ⟨hx, hne⟩)
      simp only [evalWith, hbody]
  | read a i iha ihi =>
      refine ⟨fun h => ?_, fun _ => rfl⟩
      rw [inputs] at h
      rw [evalWith, evalWith, iha.1 (h.mono (by simp)), ihi.1 (h.mono (by simp))]
  | update a i y n iha ihi ihy ihn =>
      refine ⟨fun h => ?_, fun h => ?_⟩
      · rw [inputs] at h
        rw [evalWith, evalWith, iha.1 (h.mono (by simp)), ihi.1 (h.mono (by simp)),
          ihy.1 (h.mono fun _ hx => by simp [hx])]
      · rw [evalLength, evalLength,
          ihn.1 (h.mono fun _ hx => by simp [argumentInputs, inputs, hx])]
  | call f args t ih => exact ⟨fun _ => rfl, fun _ => rfl⟩
  | app p args ih =>
      refine ⟨fun {env env'} h => ?_, fun _ => rfl⟩
      have hargs : ∀ e ∈ args, e.evalWith I env = e.evalWith I env' ∧
          e.evalLength I env = e.evalLength I env' := by
        intro e he
        have hagree := h.mono (argumentInputs_subset he)
        exact ⟨(ih e he).1 (hagree.mono (List.subset_append_left _ _)), (ih e he).2 hagree⟩
      simp only [evalWith, evalArgs_congr hargs]

/-! ## Inputs are free variables

The collection of free variables goes through the expression with the names that are bound so far,
and so does the induction. -/

/-- The variables of an expression that have lengths are those of array types. The table of free
variables goes by types, and evaluation by kinds. -/
def Kinded (e : Expr) : Prop := ∀ v ∈ e.mentions, v.isArray = v.ty.isArray

theorem Kinded.child {c e : Expr} (h : e.Kinded) (hc : c ∈ e.children) : c.Kinded :=
  fun v hv => h v (mentions_subset_of_child hc hv)

/-- An input that is not bound from outside is collected. The collector may find more, since it
looks for lengths without regard to quantifiers. -/
theorem collects_of_inputs {e : Expr} (hk : e.Kinded) {bound : List String} {x : String}
    (hx : x ∈ e.inputs) (hb : x ∉ bound) : e.Collects bound x := by
  induction e using plainInduct generalizing bound with
  | var v => exact Or.inl ⟨by simpa [inputs] using hx, hb⟩
  | quant q v body ih =>
      obtain ⟨hx, hne⟩ := mem_inputs_quant.1 hx
      exact collects_quant.2 (ih (hk.child (by simp [children])) hx (by simp [hne, hb]))
  | plain e he ih =>
      have hchild : (∃ c ∈ e.children, x ∈ c.inputs) → e.Collects bound x := by
        rintro ⟨c, hc, hxc⟩
        exact (collects_plain he).2 (Or.inr ⟨c, hc, ih c hc (hk.child hc) hxc hb⟩)
      cases e with
      | var v => cases he
      | quant q v body => cases he
      | int n => cases hx
      | float y => cases hx
      | bool b => cases hx
      | call f args t => cases hx
      | app p args =>
          rw [inputs] at hx
          obtain ⟨c, hc, hx⟩ := mem_inputsArgs.1 hx
          rcases List.mem_append.1 hx with hx | hx
          · exact hchild ⟨c, hc, hx⟩
          -- evaluation passes the length by kind, the table collects it by type
          · obtain ⟨l, hl, rfl⟩ := List.mem_map.1 hx
            rw [Option.mem_toList] at hl
            cases c with
            | var v =>
                have hlength := mem_lengthNames_var (hk.child hc v (by simp)) hl
                exact (collects_plain he).2 (Or.inl (List.mem_flatMap.2 ⟨var v, hc, hlength⟩))
            | _ => cases hl
      | _ => exact hchild (by simpa [inputs, children] using hx)

/-- An input is a free variable. -/
theorem mem_freeVariables_of_inputs {e : Expr} (hk : e.Kinded) {x : String}
    (hx : x ∈ e.inputs) : ∃ t, e.freeVariables.find? x = some t :=
  Option.isSome_iff_exists.1
    (((adds_collectFree e).1 [] .empty x).2 (Or.inr (collects_of_inputs hk hx List.not_mem_nil)))

/-- An input is a free variable at the type of its name. -/
theorem find?_freeVariables_of_inputs {e : Expr} (hu : Uniform e.mentions) {v : Variable}
    (hv : v ∈ e.mentions) (hx : v.name ∈ e.inputs) :
    e.freeVariables.find? v.name = some v.ty := by
  obtain ⟨t, ht⟩ := mem_freeVariables_of_inputs hu.kinds hx
  obtain ⟨u, hmem, hname, rfl⟩ := exists_of_freeVariables ht
  rw [hu.ty v hv u hmem hname.symm]
  exact ht

end Expr

end Pathwise
