import Pathwise.Proofs.BasicPaths
import Pathwise.Proofs.EvalCongruence
import Pathwise.Proofs.TypeSafety

/-!
# Pathwise.Proofs.EvalSubst

Substitution and evaluation.

Weakest preconditions replace variables in a formula where a program would change their values.
`evaluation_after_substitution` says that for the evaluator the two come to the same: the formula
after the replacement, evaluated before the change, gives the value or the kind of error that the
formula itself gives after the change.

The expressions inside the errors are not the same, so outcomes are compared (`EvalM.outcome`).
`Simulates` relates the valuations before and after the change, also under quantifiers, and
`Expr.sameOutcome_substUnder` is the induction over the formula. An argument of a predicate brings
its length along, which is no part of the formula. So a replacement must bring the right one
(`Expr.KeepsLength`), and no quantifier may bind it.

The replacements are asked to have values. A formula may look at a variable under a connective
that is settled without it, and then a replacement that fails would go unnoticed on the one side
and end the change of the valuation on the other.

Substitution does not rename quantifiers, and this is the second thing that can go wrong: a
quantifier must not bind a variable that a replacement looks at. In evaluation these are the
inputs of the replacement, and for the rules it is asked of its free variables, which are more.
-/

namespace Pathwise

/-! ## Outcomes

Values with the kinds of errors. As a relation between answers this is a congruence under which
all errors of operators are related, whatever expression they blame. -/

/-- The value, or the kind of the error. Errors hold expressions of the text, which a substitution
changes. -/
def EvalM.outcome {α : Type} (x : EvalM α) : Except EvalFault α := x.mapError EvalError.fault

/-- Two evaluations give the same value or errors of the same kind. What the errors quote may
differ, since an error quotes the expression it is about. -/
def SameOutcome {α : Type} (x y : EvalM α) : Prop := EvalM.outcome x = EvalM.outcome y

namespace SameOutcome

variable {α β : Type}

@[refl] theorem rfl {x : EvalM α} : SameOutcome x x := Eq.refl _

theorem error {err err' : EvalError} (h : err.fault = err'.fault) :
    SameOutcome (.error err : EvalM α) (.error err') := congrArg Except.error h

/-- The first evaluation decides whether there is a second one, and what kind of error comes out.
-/
theorem bind {x y : EvalM α} {f g : α → EvalM β} (h : SameOutcome x y)
    (hf : ∀ a, SameOutcome (f a) (g a)) : SameOutcome (x >>= f) (y >>= g) := by
  cases x with
  | ok a =>
      cases y with
      | ok b =>
          cases Except.ok.inj h
          exact hf a
      | error err => cases h
  | error err =>
      cases y with
      | ok b => cases h
      | error err' => exact error (Except.error.inj h)

/-- Two evaluations that go through the same steps have the same outcome. -/
def congruence : Congruence EvalM EvalM where
  Rel := SameOutcome
  pure _ := rfl
  bind := bind

/-- The expressions inside the errors do not matter. -/
theorem blames (e e' : Expr) : congruence.Blames e e' :=
  ⟨fun _ _ => error (Eq.refl _), error (Eq.refl _), error (Eq.refl _)⟩

end SameOutcome

/-! ## Related valuations

The invariant of the induction. A quantifier gives its variable the same value on both sides and
puts it among the names that are bound. -/

/-- The valuation `env'` has the values of the replacements in `env` for the names that `σ`
replaces. The names in `bound` are bound by quantifiers and not replaced. -/
structure Simulates (I : Interpretation) (σ : String → Option Expr) (bound : List String)
    (env env' : Valuation) : Prop where
  /-- Bound names have one value. -/
  same : ∀ x ∈ bound, env.find? x = env'.find? x
  /-- A replaced name has the value of its replacement. -/
  replaced : ∀ x ∉ bound, ∀ r, σ x = some r →
    ∃ v, r.evalWith I env = .ok v ∧ env'.find? x = some v
  /-- All others are as they were. -/
  kept : ∀ x ∉ bound, σ x = none → env.find? x = env'.find? x

namespace Simulates

variable {I : Interpretation} {σ : String → Option Expr} {bound : List String}
  {env env' : Valuation}

/-- A quantifier keeps the valuations related if it captures no input of a replacement. The bound
name has the same value on both sides. -/
theorem insert (h : Simulates I σ bound env env') {k : String}
    (hk : ∀ x r, σ x = some r → k ∉ r.inputs) (y : Value) :
    Simulates I σ (k :: bound) (env.insert k y) (env'.insert k y) where
  same x hx := by
    rw [SortedMap.find?_insert, SortedMap.find?_insert]
    rcases List.mem_cons.1 hx with rfl | hx
    · rw [if_pos rfl, if_pos rfl]
    · rw [h.same x hx]
  replaced x hx r hr := by
    obtain ⟨hne, hx⟩ := not_or.1 (mt List.mem_cons.2 hx)
    obtain ⟨v, hv, hv'⟩ := h.replaced x hx r hr
    refine ⟨v, ?_, by rw [SortedMap.find?_insert, if_neg hne, hv']⟩
    rw [← hv]
    refine (r.evalWith_congr.1 fun z hz => ?_).symm
    rw [SortedMap.find?_insert, if_neg]
    rintro rfl
    exact hk x r hr hz
  kept x hx hr := by
    obtain ⟨hne, hx⟩ := not_or.1 (mt List.mem_cons.2 hx)
    rw [SortedMap.find?_insert, SortedMap.find?_insert, if_neg hne, if_neg hne, h.kept x hx hr]

/-- What a variable becomes has the value of the variable afterwards. -/
theorem sameOutcome_var (h : Simulates I σ bound env env') {v : Variable}
    (hv : v.name ∉ bound) :
    SameOutcome (((σ v.name).getD (.var v)).evalWith I env) (env'.read v.name) := by
  cases hr : σ v.name with
  | none => rw [Option.getD_none, Expr.evalWith, Valuation.read, Valuation.read, h.kept _ hv hr]
  | some r =>
      obtain ⟨x, hx, hx'⟩ := h.replaced _ hv r hr
      rw [Option.getD_some, hx, Valuation.read, hx']

end Simulates

namespace Expr

/-! ## The induction

Variables and quantifiers are the cases of interest. All operators are dealt with by the
congruence for evaluation. -/

/-- What takes the place of a variable brings along what takes the place of its length. Where
neither is replaced there is nothing to bring. -/
def KeepsLength (σ : String → Option Expr) (v : Variable) : Prop :=
  ((σ v.name).getD (var v)).arrayLength? = v.length?.map fun l => (σ l.name).getD (var l)

/-- A substitution may be carried out in an expression, where the names in `bound` are bound from
outside. -/
structure Allows (σ : String → Option Expr) (bound : List String) (e : Expr) : Prop where
  /-- Lengths go along with arrays. -/
  lengths : ∀ v ∈ e.mentions, KeepsLength σ v
  /-- No quantifier binds an array or its length. -/
  arrays : ∀ v ∈ e.mentions, ∀ l, v.length? = some l →
    v.name ∉ bound ++ e.binders ∧ l.name ∉ bound ++ e.binders
  /-- No quantifier captures an input of a replacement. -/
  capture : ∀ k ∈ e.binders, ∀ x r, σ x = some r → k ∉ r.inputs

variable {I : Interpretation} {σ : String → Option Expr} {bound : List String}
  {env env' : Valuation}

/-- The names bound around a part of an expression or in it are bound around the expression or in
it. -/
theorem scope_subset_of_child {c e : Expr} (hc : c ∈ e.children) :
    bound ++ c.binders ⊆ bound ++ e.binders := by
  intro k hk
  rcases List.mem_append.1 hk with hk | hk
  · exact List.mem_append_left _ hk
  · exact List.mem_append_right _ (binders_subset_of_child hc hk)

theorem scope_subset_of_body {q : Quantifier} {v : Variable} {body : Expr} :
    v.name :: bound ++ body.binders ⊆ bound ++ (quant q v body).binders := by
  intro k hk
  rw [binders_quant]
  simp only [List.cons_append, List.mem_cons, List.mem_append] at hk ⊢
  tauto

/-- A substitution that may be carried out in an expression may be so in its parts. -/
theorem Allows.child {c e : Expr} (h : e.Allows σ bound) (hc : c ∈ e.children) :
    c.Allows σ bound where
  lengths v hv := h.lengths v (mentions_subset_of_child hc hv)
  arrays v hv l hl := by
    obtain ⟨hname, hlength⟩ := h.arrays v (mentions_subset_of_child hc hv) l hl
    exact ⟨mt (scope_subset_of_child hc ·) hname, mt (scope_subset_of_child hc ·) hlength⟩
  capture k hk := h.capture k (binders_subset_of_child hc hk)

/-- So it may under a quantifier, whose variable is bound there. -/
theorem Allows.body {q : Quantifier} {v : Variable} {body : Expr}
    (h : (quant q v body).Allows σ bound) : body.Allows σ (v.name :: bound) where
  lengths w hw := h.lengths w (mentions_subset_of_child (by simp [children]) hw)
  arrays w hw l hl := by
    obtain ⟨hname, hlength⟩ := h.arrays w (mentions_subset_of_child (by simp [children]) hw) l hl
    exact ⟨mt (scope_subset_of_body ·) hname, mt (scope_subset_of_body ·) hlength⟩
  capture k hk := h.capture k (binders_subset_of_child (by simp [children]) hk)

/-- Evaluation of an expression after a substitution goes as that of the expression in the other
valuation, and so does that of its length. -/
theorem sameOutcome_substUnder {e : Expr} (he : e.Allows σ bound)
    (h : Simulates I σ bound env env') :
    SameOutcome ((substUnder σ bound e).evalWith I env) (e.evalWith I env') ∧
    Option.Rel SameOutcome ((substUnder σ bound e).evalLength I env) (e.evalLength I env') := by
  induction e generalizing bound env env' with
  | var v =>
      have harrays : ∀ l, v.length? = some l → v.name ∉ bound ∧ l.name ∉ bound := by
        intro l hl
        obtain ⟨hname, hlength⟩ := he.arrays v (by simp) l hl
        exact ⟨mt (List.mem_append_left _) hname, mt (List.mem_append_left _) hlength⟩
      rw [substUnder]
      split
      · next hv =>
          -- a bound variable is no array, so there is no length to compare
          have hnone : v.length? = none :=
            Option.eq_none_iff_forall_not_mem.2 fun l hl => (harrays l hl).1 hv
          refine ⟨?_, ?_⟩
          · rw [evalWith, evalWith, Valuation.read, Valuation.read, h.same _ hv]
          · rw [evalLength, evalLength, hnone]
            exact .none
      · next hv =>
          refine ⟨h.sameOutcome_var hv, ?_⟩
          -- the replacement of an array has the replacement of its length for a length
          rw [evalLength_eq, he.lengths v (by simp), evalLength, Option.map_map]
          cases hl : v.length? with
          | none => exact .none
          | some l => exact .some (h.sameOutcome_var (harrays l hl).2)
  | int n => exact ⟨rfl, .none⟩
  | float x => exact ⟨rfl, .none⟩
  | bool b => exact ⟨rfl, .none⟩
  | unary op e ih =>
      have hvalue := (ih (he.child (by simp [children])) h).1
      rw [substUnder]
      exact ⟨Congruence.unary (SameOutcome.blames _ _) hvalue, .none⟩
  | binary op l r ihl ihr =>
      have hl := (ihl (he.child (by simp [children])) h).1
      have hr := (ihr (he.child (by simp [children])) h).1
      rw [substUnder]
      exact ⟨Congruence.binary (SameOutcome.blames _ _) (SameOutcome.blames _ _)
        (SameOutcome.blames _ _) hl hr, .none⟩
  | quant q v body ih =>
      have hcapture := he.capture v.name (by simp [binders_quant])
      rw [substUnder]
      refine ⟨Congruence.quant (SameOutcome.blames _ _) rfl rfl fun i => ?_, .none⟩
      exact (ih he.body (h.insert hcapture (.int i))).1
  | read a i iha ihi =>
      have ha := (iha (he.child (by simp [children])) h).1
      have hi := (ihi (he.child (by simp [children])) h).1
      rw [substUnder]
      exact ⟨Congruence.read (SameOutcome.blames _ _) (SameOutcome.blames _ _) ha hi, .none⟩
  | update a i x n iha ihi ihx ihn =>
      have ha := (iha (he.child (by simp [children])) h).1
      have hi := (ihi (he.child (by simp [children])) h).1
      have hx := (ihx (he.child (by simp [children])) h).1
      have hn := (ihn (he.child (by simp [children])) h).1
      rw [substUnder]
      exact ⟨Congruence.update (SameOutcome.blames _ _) (SameOutcome.blames _ _) ha hi hx, .some hn⟩
  | call f args t ih =>
      rw [substUnder]
      exact ⟨rfl, .none⟩
  | app p args ih =>
      rw [substUnder, substListUnder_eq_map]
      refine ⟨?_, .none⟩
      cases hp : I.predicate? p with
      | none => rw [evalWith, evalWith, hp]
      | some q =>
          refine Congruence.app (R := SameOutcome.congruence) hp hp (fun _ => rfl) ?_
          exact List.forall₂_map_left_iff.2
            (List.forall₂_same.2 fun e he' => ih e he' (he.child he') h)

end Expr

/-! ## The substitutions of the rules

What is known of a substitution because it comes from an assignment, a call or a store. All three
replace an array and its length together, and none replaces a length alone unless it is a target
itself. -/

/-- The substitutions for assignments, calls and stores, each with the variables that change. -/
inductive RuleSubst : List Variable → Subst → Prop where
  | assign {v : Variable} {e : Expr} {σ : Subst} (h : v.assignment e = .ok σ) : RuleSubst [v] σ
  | bind {g : Function} {args : List Expr} {σ : Subst} (h : g.bind args = .ok σ) :
      RuleSubst g.parameters σ
  | store {a l : Variable} (i e : Expr) (h : a.length? = some l) :
      RuleSubst [a] (SortedMap.empty.insert a.name (.update (.var a) i e (.var l)))

/-- A name stands for one variable, arrays are told by their types, and each has a length of its
own. -/
structure Naming (vs : List Variable) : Prop where
  /-- A name stands for one variable. -/
  unique : ∀ v ∈ vs, ∀ w ∈ vs, v.name = w.name → v = w
  /-- The variables with a length are those of array types. -/
  kinds : ∀ v ∈ vs, v.isArray = v.ty.isArray
  /-- No two arrays share a length. -/
  own : ∀ v ∈ vs, ∀ w ∈ vs, v.isArray → v.length? = w.length? → v = w

instance (vs : List Variable) : Decidable (Naming vs) :=
  decidable_of_iff
    ((∀ v ∈ vs, ∀ w ∈ vs, v.name = w.name → v = w) ∧ (∀ v ∈ vs, v.isArray = v.ty.isArray) ∧
      ∀ v ∈ vs, ∀ w ∈ vs, v.isArray → v.length? = w.length? → v = w)
    ⟨fun h => ⟨h.1, h.2.1, h.2.2⟩, fun h => ⟨h.unique, h.kinds, h.own⟩⟩

/-- The variables of a formula, and those that a substitution replaces. What is asked of names is
asked of all these together. -/
def Expr.involved (q : Expr) (targets : List Variable) : List Variable :=
  q.mentions ++ targets.flatMap Variable.withLength

/-- What is asked of a formula and of a substitution that changes some variables in it. -/
structure Suits (targets : List Variable) (σ : Subst) (q : Expr) : Prop where
  /-- The substitution is one of those that the rules make. -/
  rule : RuleSubst targets σ
  /-- Names are used in one way. -/
  naming : Naming (q.involved targets)
  /-- The arrays in the replacements are told by their types. -/
  kinded : ∀ entry ∈ σ.entries, ∀ v ∈ entry.2.mentions, v.isArray = v.ty.isArray
  /-- No length is the target of an assignment. -/
  noLength : ∀ v ∈ targets, v.isArray = false → ∀ w ∈ q.involved targets, ∀ l,
    w.length? = some l → v.name ≠ l.name
  /-- No quantifier binds a free variable of a replacement. -/
  noCapture : ∀ k ∈ q.binders, ∀ entry ∈ σ.entries, entry.2.hasFree k = false

section Rules

variable {targets : List Variable} {σ : Subst} {q : Expr}

/-- An expression that mentions an array mentions its length. -/
theorem Expr.mem_mentions_of_length? {e : Expr} {v l : Variable} (hv : v ∈ e.mentions)
    (hl : v.length? = some l) : l ∈ e.mentions := by
  obtain ⟨d, hd, hv⟩ := List.mem_flatMap.1 hv
  refine List.mem_flatMap.2 ⟨d, hd, ?_⟩
  cases d with
  | var w => exact (Variable.eq_of_mem_withLength hv hl).2
  | quant _ w _ => exact (Variable.eq_of_mem_withLength hv hl).2
  | _ => cases hv

/-- Variables that are named in this way form a vocabulary. -/
theorem Naming.vocabulary (h : Naming (q.involved targets)) :
    Vocabulary (· ∈ q.involved targets) where
  unique hv hw := h.unique _ hv _ hw
  closed {v l} hv hl := by
    rcases List.mem_append.1 hv with hv | hv
    · exact List.mem_append_left _ (Expr.mem_mentions_of_length? hv hl)
    · obtain ⟨t, ht, hv⟩ := List.mem_flatMap.1 hv
      exact List.mem_append_right _
        (List.mem_flatMap.2 ⟨t, ht, (Variable.eq_of_mem_withLength hv hl).2⟩)
  kinds {v} hv ha := by rwa [← Variable.isArray_iff_length?, h.kinds v hv]
  own {v w l} hv hw hl hl' :=
    h.own v hv w hw (by rw [Variable.isArray_iff_length?, hl]; rfl) (hl.trans hl'.symm)

/-- What is assigned to a target takes its place, unless the target is a length. -/
theorem Naming.takesPlace (h : Naming (q.involved targets)) {v : Variable} (hv : v ∈ targets)
    (hn : v.isArray = false → ∀ w ∈ q.involved targets, ∀ l, w.length? = some l →
      v.name ≠ l.name) {e : Expr} {ρ : Subst} (hρ : v.assignment e = .ok ρ) :
    TakesPlace (· ∈ q.involved targets) v e := by
  have hmem : v ∈ q.involved targets :=
    List.mem_append_right _ (List.mem_flatMap.2 ⟨v, hv, v.self_mem_withLength⟩)
  refine ⟨hmem, Variable.exists_length_of_assignment hρ, fun {w l} hw hl hname => ?_⟩
  cases ha : v.isArray with
  | false => exact hn ha w hw l hl hname
  | true =>
      -- an array is no length, since lengths are no arrays
      rw [h.vocabulary.unique hmem (h.vocabulary.closed hw hl) hname,
        Variable.isArray_iff_length?, Variable.length?_of_length? hl] at ha
      cases ha

/-- The substitutions of the rules replace an array by one that has the right length. An
assignment and a call replace the length as well, and a store leaves it as it is. -/
theorem RuleSubst.arrayLength? (h : RuleSubst targets σ) (hn : Naming (q.involved targets))
    (ht : ∀ v ∈ targets, v.isArray = false → ∀ w ∈ q.involved targets, ∀ l,
      w.length? = some l → v.name ≠ l.name)
    {v l : Variable} (hv : v ∈ q.mentions) (hl : v.length? = some l) :
    ((σ.find? v.name).getD (.var v)).arrayLength? = some ((σ.find? l.name).getD (.var l)) := by
  have hmem : v ∈ q.involved targets := List.mem_append_left _ hv
  have hV := hn.vocabulary
  have htakes : ∀ t ∈ targets, ∀ {e ρ}, t.assignment e = .ok ρ →
      TakesPlace (· ∈ q.involved targets) t e := fun t hmem _ _ hρ =>
    hn.takesPlace hmem (ht t hmem) hρ
  cases h with
  | @assign t e σ ha =>
      have hfind : σ.find? = replacement [(t, e)] := by
        funext x
        rw [(Variable.assignment_ok ha).2, replacement, replacement, Option.none_or]
      rw [hfind]
      refine hV.arrayLength?_replacement (fun q hq => ?_) hmem hl
      cases List.mem_singleton.1 hq
      exact htakes t (by simp) ha
  | @bind g args σ hg =>
      rw [Function.find?_of_bind hg]
      refine hV.arrayLength?_replacement (fun q hq => ?_) hmem hl
      obtain ⟨ρ, hρ⟩ := Subst.assignment_of_assignMany (seq_eq_ok_iff.1 hg).2 hq
      exact htakes _ (List.of_mem_zip hq).1 hρ
  | @store a n i e ha =>
      have hamem : a ∈ q.involved [a] :=
        List.mem_append_right _ (List.mem_flatMap.2 ⟨a, by simp, a.self_mem_withLength⟩)
      -- the length that an array has is no array, so it is not replaced
      have hlength : l.name ≠ a.name := by
        intro hname
        rw [← hV.unique (hV.closed hmem hl) hamem hname, Variable.length?_of_length? hl] at ha
        cases ha
      rw [SortedMap.find?_insert, SortedMap.find?_insert, if_neg hlength]
      by_cases hname : v.name = a.name
      · cases hV.unique hmem hamem hname
        cases hl.symm.trans ha
        rw [if_pos rfl]
        rfl
      · rw [if_neg hname]
        simp [Expr.arrayLength?, hl]

/-- The substitution may be carried out in the formula, provided that quantifiers bind no array and
no length, and that what replaces anything else has no length. -/
theorem Suits.allows (h : Suits targets σ q)
    (hb : ∀ v ∈ q.mentions, ∀ l, v.length? = some l → v.name ∉ q.binders ∧ l.name ∉ q.binders)
    (hs : ∀ v ∈ q.mentions, v.isArray = false → ∀ r, σ.find? v.name = some r →
      r.arrayLength? = none) : q.Allows σ.find? [] where
  lengths v hv := by
    unfold Expr.KeepsLength
    cases hl : v.length? with
    | some l => exact h.rule.arrayLength? h.naming h.noLength hv hl
    | none =>
        cases hr : σ.find? v.name with
        | none => simp [Expr.arrayLength?, hl]
        | some r => exact hs v hv (by rw [Variable.isArray_iff_length?, hl]; rfl) r hr
  arrays := hb
  capture k hk x r hr hinput := by
    have hentry := SortedMap.mem_of_lookup hr
    obtain ⟨t, ht⟩ := Expr.mem_freeVariables_of_inputs (h.kinded _ hentry) hinput
    have hfree := h.noCapture k hk _ hentry
    rw [Expr.hasFree, SortedMap.contains, ht] at hfree
    cases hfree

end Rules

/-! ## The evaluator

The change of a valuation that corresponds to a substitution: all replacements are evaluated
first, and then their values go in at once. -/

namespace Evaluator

variable {ev : Evaluator} {env env' : Valuation}

/-- The valuation after the values of expressions went into names. All of them are evaluated
before. -/
def assignAll (ev : Evaluator) (env : Valuation) : List (String × Expr) → EvalM Valuation
  | [] => .ok env
  | entry :: rest => do
    let v ← ev.eval entry.2 env
    let env' ← ev.assignAll env rest
    return env'.insert entry.1 v

/-- The change can be carried out if all replacements have values. They are all evaluated before,
so none depends on another. -/
theorem exists_assignAll {entries : List (String × Expr)}
    (h : ∀ entry ∈ entries, ∃ v, ev.eval entry.2 env = .ok v) :
    ∃ env', ev.assignAll env entries = .ok env' := by
  induction entries with
  | nil => exact ⟨env, rfl⟩
  | cons entry rest ih =>
      obtain ⟨⟨v, hv⟩, hrest⟩ := List.forall_mem_cons.1 h
      obtain ⟨env', henv'⟩ := ih hrest
      exact ⟨env'.insert entry.1 v, by rw [assignAll, hv, henv']; rfl⟩

/-- Looking up a name after the values went in. -/
theorem find?_assignAll {entries : List (String × Expr)}
    (h : ev.assignAll env entries = .ok env') (x : String) :
    (∀ r, SortedMap.lookup x entries = some r →
      ∃ v, ev.eval r env = .ok v ∧ env'.find? x = some v) ∧
    (SortedMap.lookup x entries = none → env.find? x = env'.find? x) := by
  induction entries generalizing env' with
  | nil =>
      cases h
      exact ⟨fun r hr => (by cases hr), fun _ => rfl⟩
  | cons entry rest ih =>
      rw [assignAll] at h
      obtain ⟨v, hv, h⟩ := bind_eq_ok_iff.1 h
      obtain ⟨env₁, henv₁, h⟩ := bind_eq_ok_iff.1 h
      cases h
      rw [SortedMap.lookup, SortedMap.find?_insert]
      by_cases hx : x = entry.1
      · rw [if_pos hx, if_pos hx]
        refine ⟨fun r hr => ?_, fun hr => by cases hr⟩
        cases hr
        exact ⟨v, hv, rfl⟩
      · rw [if_neg hx, if_neg hx]
        exact ih henv₁

end Evaluator

/-- Evaluation after a substitution of the rules for assignments, calls and stores. The replacements
have values in a valuation. Then the formula after the substitution has there the outcome that the
formula itself has where the replaced names have these values: the same value, or an error of the
same kind.

No quantifier may bind an array or a length, and what replaces a scalar or a length must have no
length of its own. -/
theorem evaluation_after_substitution {targets : List Variable} {σ : Subst} {q : Expr}
    (h : Suits targets σ q)
    (hb : ∀ v ∈ q.mentions, ∀ l, v.length? = some l → v.name ∉ q.binders ∧ l.name ∉ q.binders)
    (hs : ∀ v ∈ q.mentions, v.isArray = false → ∀ r, σ.find? v.name = some r →
      r.arrayLength? = none)
    (ev : Evaluator) {env : Valuation}
    (henv : ∀ entry ∈ σ.entries, ∃ v, ev.eval entry.2 env = .ok v) :
    ∃ env', ev.assignAll env σ.entries = .ok env' ∧
      SameOutcome (ev.eval (q.substAll σ) env) (ev.eval q env') := by
  obtain ⟨env', henv'⟩ := Evaluator.exists_assignAll henv
  have hfind := Evaluator.find?_assignAll henv'
  have hsim : Simulates (ev.interpretation ev.expansionLimit) σ.find? [] env env' := {
    same := fun x hx => by cases hx
    replaced := fun x _ r hr => by
      obtain ⟨v, hv, hv'⟩ := (hfind x).1 r hr
      exact ⟨v, by rw [← Evaluator.evalTo_eq]; exact hv, hv'⟩
    kept := fun x _ hr => (hfind x).2 hr }
  refine ⟨env', henv', ?_⟩
  rw [Evaluator.eval, Evaluator.eval, Evaluator.evalTo_eq, Evaluator.evalTo_eq]
  exact (Expr.sameOutcome_substUnder (h.allows hb hs) hsim).1

namespace Stretched

open Sample (a c k x length long)

def evaluator : Evaluator := ⟨[long], -8, 8⟩

/-- The array `a` has three elements and `c` twenty; `x` is seven. -/
def values : Valuation := .ofList
  [("a", .array (.constant (.int 0))), ("a$length", .int 3), ("c", .array (.constant (.int 5))),
    ("c$length", .int 20), ("x", .int 7)]

/-- The formula `long(a) && forall k. a[k] <= x`. -/
def bounded : Expr :=
  .and (.app "long" [.var a]) (.quant .all k (.binary .le (.read (.var a) (.var k)) (.var x)))

/-- The assignment `a := c{x <- 6}`, which changes the length of `a` as well. -/
def widen : Subst := .ofList
  [("a", .update (.var c) (.var x) (.int 6) (.var (length c))), ("a$length", .var (length c))]

theorem suits_widen : Suits [a] widen bounded where
  rule := .assign (e := .update (.var c) (.var x) (.int 6) (.var (length c))) rfl
  naming := by decide +kernel
  kinded := by decide +kernel
  noLength := by decide +kernel
  noCapture := by decide +kernel

end Stretched

/-- The array gets another length, and the elements are compared under a quantifier. -/
theorem evaluation_after_substitution_bounded :
    Suits [Sample.a] Stretched.widen Stretched.bounded ∧
      (∀ v ∈ Stretched.bounded.mentions, ∀ l, v.length? = some l →
        v.name ∉ Stretched.bounded.binders ∧ l.name ∉ Stretched.bounded.binders) ∧
      (∀ v ∈ Stretched.bounded.mentions, v.isArray = false → ∀ r,
        Stretched.widen.find? v.name = some r → r.arrayLength? = none) ∧
      (∀ entry ∈ Stretched.widen.entries, ∃ v,
        Stretched.evaluator.eval entry.2 Stretched.values = .ok v) ∧
      Stretched.evaluator.eval (Stretched.bounded.substAll Stretched.widen) Stretched.values =
        .ok (.bool true) ∧
      ∃ env', Stretched.evaluator.assignAll Stretched.values Stretched.widen.entries = .ok env' ∧
        SameOutcome (Stretched.evaluator.eval (Stretched.bounded.substAll Stretched.widen)
          Stretched.values) (Stretched.evaluator.eval Stretched.bounded env') := by
  have hb : ∀ v ∈ Stretched.bounded.mentions, ∀ l, v.length? = some l →
      v.name ∉ Stretched.bounded.binders ∧ l.name ∉ Stretched.bounded.binders := by decide +kernel
  have hs : ∀ v ∈ Stretched.bounded.mentions, v.isArray = false → ∀ r,
      Stretched.widen.find? v.name = some r → r.arrayLength? = none := by decide +kernel
  have henv : ∀ entry ∈ Stretched.widen.entries, ∃ v,
      Stretched.evaluator.eval entry.2 Stretched.values = .ok v :=
    List.forall_mem_cons.2 ⟨⟨_, rfl⟩, List.forall_mem_cons.2 ⟨⟨_, rfl⟩, List.forall_mem_nil _⟩⟩
  exact ⟨Stretched.suits_widen, hb, hs, henv, rfl,
    evaluation_after_substitution Stretched.suits_widen hb hs Stretched.evaluator henv⟩

namespace Stretched

open Sample (a c x length)

/-- The formula `exists a$length. long(a)`, where the quantifier binds the length of the array. -/
def shadowing : Expr := .quant .any (length a) (.app "long" [.var a])

/-- The assignment `a := c`. -/
def copy : Subst := .ofList [("a", .var c), ("a$length", .var (length c))]

/-- The formula `long(x)`, although `x` is no array. -/
def misplaced : Expr := .app "long" [.var x]

/-- The assignment `x := x{0 <- 1}`, where the update is said to have twenty elements. -/
def inflate : Subst := .ofList [("x", .update (.var x) (.int 0) (.int 1) (.int 20))]

/-- The value of `x` is an array. -/
def untyped : Valuation := .ofList [("x", .array (.constant (.int 0)))]

end Stretched

/-- Both conditions on lengths are needed. A quantifier over the length of an array hides the
length that an assignment to the array changes. And a scalar without a length may be replaced by an
expression that has one. -/
theorem substitution_differs_at_lengths :
    (Suits [Sample.a] Stretched.copy Stretched.shadowing ∧
      ∃ env', Stretched.evaluator.assignAll Stretched.values Stretched.copy.entries = .ok env' ∧
        Stretched.evaluator.eval (Stretched.shadowing.substAll Stretched.copy) Stretched.values =
          .ok (.bool true) ∧
        Stretched.evaluator.eval Stretched.shadowing env' = .ok (.bool false)) ∧
    Suits [Sample.x] Stretched.inflate Stretched.misplaced ∧
      ∃ env', Stretched.evaluator.assignAll Stretched.untyped Stretched.inflate.entries =
          .ok env' ∧
        Stretched.evaluator.eval (Stretched.misplaced.substAll Stretched.inflate)
          Stretched.untyped = .ok (.bool true) ∧
        Stretched.evaluator.eval Stretched.misplaced env' = .error (.unbound "b$length") := by
  have hcopy : Suits [Sample.a] Stretched.copy Stretched.shadowing := {
    rule := .assign (e := .var Sample.c) rfl
    naming := by decide +kernel
    kinded := by decide +kernel
    noLength := by decide +kernel
    noCapture := by decide +kernel }
  have hinflate : Suits [Sample.x] Stretched.inflate Stretched.misplaced := {
    rule := .assign (e := .update (.var Sample.x) (.int 0) (.int 1) (.int 20)) rfl
    naming := by decide +kernel
    kinded := by decide +kernel
    noLength := by decide +kernel
    noCapture := by decide +kernel }
  exact ⟨⟨hcopy, _, rfl, rfl, rfl⟩, hinflate, _, rfl, rfl, rfl⟩

end Pathwise
