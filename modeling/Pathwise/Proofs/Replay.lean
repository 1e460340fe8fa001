import Pathwise.Proofs.Inputs
import Pathwise.Proofs.FreeVariables
import Pathwise.Smt.Checker

/-!
# Pathwise.Proofs.Replay

The replay of a counter model, and what it depends on.

Evaluation reads nothing but free variables, and so the replay of a counter model depends on what
the model says about these only (`evaluation_reads_free_variables`).

What the evaluator looks up are the inputs of an expression, which are among its free variables. A
replay first makes a valuation of the free variables, each of which gets the value that the model
describes (`Evaluator.described?`), or is zero where the model leaves it out. Any other valuation
that has these values serves as well (`Evaluator.valuation_of_describes`).

The model that a solver sends has entries for all its constants, and for symbols that the solver
has made up. The checker keeps only the entries for free variables of the formula. That nothing is
lost by this is the last part of the theorem: the shorter model is replayed with the same result.
-/

namespace Pathwise

namespace Evaluator

variable {model model' : CounterModel} {free : List (String × Ty)}

/-- The value of a variable that a model describes. A variable that the model leaves out is zero,
and a text that cannot be read gives none. -/
def described? (model : CounterModel) (name : String) (ty : Ty) : Option Value :=
  ((model.find? name).map fun text => Value.parseScalar? text ty).getD (some (.zero ty))

/-- A valuation has the values that a model describes for the listed variables, and anything else
besides. -/
def Describes (model : CounterModel) (free : List (String × Ty)) (env : Valuation) : Prop :=
  ∀ a ∈ free, ∃ v, described? model a.1 a.2 = some v ∧ env.find? a.1 = some v

/-! ## Valuations of models

The valuation is made variable by variable. It fails if the text for some variable cannot be read,
so it is compared with a valuation that has all the values. -/

/-- The first variable of the list gets its value, and then come the others. -/
theorem valuation_cons {name : String} {ty : Ty} {v : Value}
    (hv : described? model name ty = some v) (env : Valuation) :
    valuation model ((name, ty) :: free) env = valuation model free (env.insert name v) := by
  unfold described? at hv
  rw [valuation]
  cases hm : model.find? name with
  | none =>
      rw [hm] at hv
      cases hv
      rfl
  | some text =>
      rw [hm] at hv
      simp only [Option.map_some, Option.getD_some] at hv
      simp only [hv]

/-- The valuation that is made of a model has the values that any described valuation has, for the
listed names. For all others it keeps what was there. -/
theorem valuation_of_describes {env' : Valuation} (h : Describes model free env')
    (env : Valuation) :
    ∃ env₁, valuation model free env = .ok env₁ ∧
      ∀ x, env₁.find? x = if x ∈ free.map Prod.fst then env'.find? x else env.find? x := by
  induction free generalizing env with
  | nil => exact ⟨env, rfl, fun x => by simp⟩
  | cons a free ih =>
      obtain ⟨⟨v, hv, hfind⟩, hfree⟩ := List.forall_mem_cons.1 h
      obtain ⟨env₁, hok, hvalues⟩ := ih hfree (env.insert a.1 v)
      refine ⟨env₁, (valuation_cons hv env).trans hok, fun x => ?_⟩
      rw [hvalues, SortedMap.find?_insert, List.map_cons]
      -- a later entry of the list may set the name again, to the same value
      by_cases hx : x = a.1
      · simp [hx, hfind]
      · simp only [List.mem_cons, hx, false_or, if_false]

/-- The valuation that is made of a model depends on the listed variables only. -/
theorem valuation_congr (h : ∀ x ∈ free.map Prod.fst, model.find? x = model'.find? x)
    (env : Valuation) : valuation model free env = valuation model' free env := by
  induction free generalizing env with
  | nil => rfl
  | cons a free ih =>
      obtain ⟨ha, hfree⟩ := List.forall_mem_cons.1 h
      rw [valuation, valuation, ha]
      simp only [ih hfree]

end Evaluator

/-- A map of the pairs whose keys pass a test says the same about these keys as the map of all
pairs. -/
theorem SortedMap.find?_insertMany_filter {α : Type} {keep : String → Bool} {x : String}
    (hx : keep x = true) (l : List (String × α)) {m m' : SortedMap String α}
    (h : m.find? x = m'.find? x) :
    (m.insertMany (l.filter fun a => keep a.1)).find? x = (m'.insertMany l).find? x := by
  induction l generalizing m m' with
  | nil => exact h
  | cons a l ih =>
      have hskip : x ≠ a.1 → m.find? x = (m'.insert a.1 a.2).find? x := by
        intro hne
        rw [find?_insert, if_neg hne, h]
      rw [List.filter_cons]
      split
      · refine ih ?_
        rw [find?_insert, find?_insert, h]
      · next ha => exact ih (hskip fun hxa => ha (hxa ▸ hx))

/-- The answer of evaluation depends on the free variables only. The hypothesis on kinds makes
lengths that are passed along free variables as well. -/
theorem Evaluator.eval_congr {e : Expr} (hk : e.Kinded) (ev : Evaluator) {env env' : Valuation}
    (h : env.AgreeOn env' e.freeVariables.keys) : ev.eval e env = ev.eval e env' := by
  rw [eval, eval, evalTo_eq, evalTo_eq]
  refine (Expr.evalWith_congr e).1 (h.mono fun x hx => ?_)
  obtain ⟨t, ht⟩ := Expr.mem_freeVariables_of_inputs hk hx
  exact List.mem_map.2 ⟨(x, t), SortedMap.mem_of_lookup ht, rfl⟩

/-- Evaluation reads nothing but free variables: valuations that agree on these, that is, have the
same values for the same ones, give the same value or the same error.

Hence a replay gives what evaluation gives on any valuation that the model describes, whatever
else the valuation says; it depends on the entries of the model for free variables only; and
a checker that leaves out all others gets the answer of the whole model. -/
theorem evaluation_reads_free_variables {e : Expr} (hk : e.Kinded) (ev : Evaluator) :
    (∀ env env' : Valuation, env.AgreeOn env' e.freeVariables.keys →
      ev.eval e env = ev.eval e env') ∧
    (∀ (model : CounterModel) (env : Valuation),
      Evaluator.Describes model e.freeVariables.entries env →
      ev.replay e model = ev.evalBool e env) ∧
    (∀ model model' : CounterModel,
      (∀ x ∈ e.freeVariables.keys, model.find? x = model'.find? x) →
      ev.replay e model = ev.replay e model') ∧
    ∀ model : Option Smt.Model,
      ev.replay e (Smt.counterModel e model) = ev.replay e (.ofList (model.getD [])) := by
  have hreplay : ∀ model model' : CounterModel,
      (∀ x ∈ e.freeVariables.keys, model.find? x = model'.find? x) →
      ev.replay e model = ev.replay e model' := by
    intro model model' h
    rw [Evaluator.replay, Evaluator.replay, Evaluator.valuation_congr h]
  refine ⟨fun env env' h => Evaluator.eval_congr hk ev h, ?_, hreplay, ?_⟩
  · intro model env h
    obtain ⟨env₁, hok, hvalues⟩ := Evaluator.valuation_of_describes h .empty
    have hagree : env₁.AgreeOn env e.freeVariables.keys := by
      intro x hx
      exact (hvalues x).trans (if_pos hx)
    rw [Evaluator.replay, hok]
    show ev.evalBool e env₁ = ev.evalBool e env
    rw [Evaluator.evalBool, Evaluator.evalBool, Evaluator.eval_congr hk ev hagree]
  · intro model
    -- the counterexample keeps what the model says about free variables
    refine hreplay _ _ fun x hx => ?_
    exact SortedMap.find?_insertMany_filter (Expr.hasFree_iff_mem_keys.2 hx) _ rfl

namespace Bounds

/-- What a solver says about `m`, about the lengths of `a` and `c`, and about a symbol of its
own. -/
def answer : Smt.Model := [("a$length", "2"), ("c$length", "2"), ("k!0", "(- 7)"), ("m", "1")]

/-- The arrays that the solver left out are zero, `u` is false, and `v` does not matter. -/
def refuting : Valuation := .ofList
  [("a", .array (.constant (.int 0))), ("a$length", .int 2), ("c", .array (.constant (.int 0))),
    ("c$length", .int 2), ("m", .int 1), ("u", .bool false), ("v", .int 3)]

/-- The valuation has what the answer says, and zero for the arrays. -/
theorem describes_refuting :
    Evaluator.Describes (.ofList answer) question.freeVariables.entries refuting := by
  have hentries : question.freeVariables.entries =
      [("a", .array .int), ("a$length", .int), ("c", .array .int), ("c$length", .int),
        ("m", .int), ("u", .bool)] := by decide +kernel
  simp only [Evaluator.Describes, hentries, List.forall_mem_cons]
  exact ⟨⟨_, rfl, rfl⟩, ⟨_, rfl, rfl⟩, ⟨_, rfl, rfl⟩, ⟨_, rfl, rfl⟩, ⟨_, rfl, rfl⟩, ⟨_, rfl, rfl⟩,
    List.forall_mem_nil _⟩

end Bounds

/-- The lengths are read inside of a predicate that is applied by another one. A value for `v`
changes nothing, and the part of the solver's answer that is about free variables refutes the
formula as the whole answer does. -/
theorem evaluation_reads_free_variables_near :
    Bounds.question.Kinded ∧
      Bounds.values.AgreeOn (Bounds.values.insert "v" (.int 3)) Bounds.question.freeVariables.keys ∧
      (⟨Bounds.pair.predicates, -1, 4⟩ : Evaluator).eval Bounds.question
        (Bounds.values.insert "v" (.int 3)) = .ok (.bool true) ∧
      Evaluator.Describes (.ofList Bounds.answer) Bounds.question.freeVariables.entries
        Bounds.refuting ∧
      (⟨Bounds.pair.predicates, -1, 4⟩ : Evaluator).evalBool Bounds.question Bounds.refuting =
        .ok false ∧
      (Smt.counterModel Bounds.question (some Bounds.answer)).keys =
        ["a$length", "c$length", "m"] ∧
      (⟨Bounds.pair.predicates, -1, 4⟩ : Evaluator).replay Bounds.question
        (Smt.counterModel Bounds.question (some Bounds.answer)) = .ok false := by
  have hk : Bounds.question.Kinded := by unfold Expr.Kinded; decide +kernel
  have hother : ∀ x ∈ Bounds.question.freeVariables.keys, x ≠ "v" := by decide +kernel
  have hagree : Bounds.values.AgreeOn (Bounds.values.insert "v" (.int 3))
      Bounds.question.freeVariables.keys := by
    intro x hx
    rw [SortedMap.find?_insert, if_neg (hother x hx)]
  obtain ⟨heval, hreplay, -, hfilter⟩ :=
    evaluation_reads_free_variables hk ⟨Bounds.pair.predicates, -1, 4⟩
  have htrue : (⟨Bounds.pair.predicates, -1, 4⟩ : Evaluator).eval Bounds.question Bounds.values =
      .ok (.bool true) := rfl
  have hfalse : (⟨Bounds.pair.predicates, -1, 4⟩ : Evaluator).evalBool Bounds.question
      Bounds.refuting = .ok false := rfl
  refine ⟨hk, hagree, (heval _ _ hagree).symm.trans htrue, Bounds.describes_refuting, hfalse,
    by decide +kernel, ?_⟩
  rw [hfilter]
  exact (hreplay _ _ Bounds.describes_refuting).trans hfalse

end Pathwise
