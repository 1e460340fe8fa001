import Pathwise.Proofs.EvalCongruence

/-!
# Pathwise.Proofs.Expansion

How deep the evaluation of an expression expands predicates.

Evaluation expands an applied predicate by evaluating its body, and the bodies may apply further
predicates. Along one chain of nested expansions each predicate refers to the next, so as long as
no predicate on the way refers to itself, directly or through others, no predicate occurs twice on
the chain, and the number of predicates bounds its length (`Evaluator.expanded_evalTo`). Any limit
from there on gives the same answer.

The validation of a program refuses a predicate that applies itself, but it looks at one body at a
time: two predicates may apply one another (`PingPong.evalTo_eq_tooDeep`).

Two evaluations with different limits are compared by a relation that says more than equality: the
answers are the same, and they are not the error of a failed expansion (`Expanded`). The second
half is what the induction is about. Equality alone would be satisfied by two evaluations that
both give up.
-/

namespace Pathwise

/-! ## Evaluations without failed expansions

The relation respects results and sequencing, and operators blame nothing on an expansion, so all
that is known of congruences for evaluation applies. -/

/-- The error says that an expansion failed. -/
def EvalError.ofExpansion : EvalError → Bool
  | tooDeep _ | unknownPredicate _ => true
  | _ => false

/-- Two evaluations give the same answer, and no expansion failed on the way. If both limits are
large enough, an answer does not depend on the limit. -/
structure Expanded {α : Type} (x y : EvalM α) : Prop where
  eq : x = y
  /-- An error is of another kind. -/
  error : ∀ {err}, x = .error err → err.ofExpansion = false

namespace Expanded

variable {α β : Type}

theorem ok (a : α) : Expanded (.ok a) (.ok a) := ⟨rfl, nofun⟩

theorem fail {err : EvalError} (h : err.ofExpansion = false) :
    Expanded (.error err : EvalM α) (.error err) :=
  ⟨rfl, fun herr => Except.error.inj herr ▸ h⟩

theorem bind {x y : EvalM α} {f g : α → EvalM β} (h : Expanded x y)
    (hf : ∀ a, Expanded (f a) (g a)) : Expanded (x >>= f) (y >>= g) := by
  cases h.eq
  cases x with
  | ok a => exact hf a
  | error err => exact .fail (h.error rfl)

/-- Two evaluations that go through the same steps expand the same predicates. -/
def congruence : Congruence EvalM EvalM where
  Rel := Expanded
  pure := ok
  bind := bind

theorem blames (e : Expr) : congruence.Blames e e :=
  ⟨fun _ _ => .fail rfl, .fail rfl, .fail rfl⟩

end Expanded

theorem Valuation.expanded_read (env : Valuation) (x : String) :
    Expanded (env.read x) (env.read x) := by
  unfold read
  split
  · exact .ok _
  · exact .fail rfl

/-! ## One layer of evaluation

Within one layer, only expansions can differ. The induction over the expression goes through all
operators by the congruence, and applications of predicates are where the hypothesis is used. -/

/-- Two interpretations expand the predicates that an expression applies in the same way, and
none of these expansions fails. -/
structure Interpretation.ExpandsAs (I J : Interpretation) (e : Expr) : Prop where
  predicate? : I.predicate? = J.predicate?
  low : I.low = J.low
  high : I.high = J.high
  /-- The predicates that the expression applies can be expanded. -/
  expand : ∀ x ∈ e.predicateNames, ∃ q, I.predicate? x = some q ∧
    ∀ scope, Expanded (I.expand q scope) (J.expand q scope)

/-- What is true of an expression is true of its parts. -/
theorem Interpretation.ExpandsAs.child {I J : Interpretation} {e c : Expr} (h : I.ExpandsAs J e)
    (hc : c ∈ e.children) : I.ExpandsAs J c :=
  ⟨h.predicate?, h.low, h.high, fun x hx => h.expand x (Expr.predicateNames_subset_of_child hc hx)⟩

namespace Expr

variable {I J : Interpretation} {env : Valuation}

/-- The lengths of an array expression that two interpretations give, if it has a length. -/
def LengthExpanded (I J : Interpretation) (env : Valuation) (e : Expr) : Prop :=
  Option.Rel Expanded (evalLength I env e) (evalLength J env e)

/-- The length of an array is a variable or a part, and expands no more than that. -/
theorem lengthExpanded {e : Expr}
    (h : ∀ c ∈ e.children, Expanded (c.evalWith I env) (c.evalWith J env)) :
    LengthExpanded I J env e := by
  unfold LengthExpanded
  cases e with
  | var v =>
      rw [evalLength, evalLength]
      cases v.length? with
      | none => exact .none
      | some l => exact .some (env.expanded_read l.name)
  | update a i x n => exact .some (h n (by simp [children]))
  | _ => exact .none

/-- Evaluation depends on the expansions of the predicates that the expression applies, and on no
others. -/
theorem expanded_evalWith {e : Expr} (h : I.ExpandsAs J e) (env : Valuation) :
    Expanded (e.evalWith I env) (e.evalWith J env) ∧ LengthExpanded I J env e := by
  induction e using childInduct generalizing env with
  | step e ih =>
      have hchild : ∀ {c}, c ∈ e.children → ∀ env, Expanded (c.evalWith I env) (c.evalWith J env) :=
        fun hc env => (ih _ hc (h.child hc) env).1
      refine ⟨?_, lengthExpanded fun c hc => hchild hc env⟩
      cases e with
      | var v => exact env.expanded_read v.name
      | int n => exact .ok _
      | float x => exact .ok _
      | bool b => exact .ok _
      | unary op d => exact Congruence.unary (Expanded.blames _) (hchild (by simp [children]) env)
      | binary op l r =>
          exact Congruence.binary (Expanded.blames l) (Expanded.blames r) (Expanded.blames _)
            (hchild (by simp [children]) env) (hchild (by simp [children]) env)
      | quant q v body =>
          exact Congruence.quant (Expanded.blames body) h.low h.high
            fun i => hchild (by simp [children]) _
      | read a i =>
          exact Congruence.read (Expanded.blames a) (Expanded.blames i)
            (hchild (by simp [children]) env) (hchild (by simp [children]) env)
      | update a i x n =>
          exact Congruence.update (Expanded.blames a) (Expanded.blames i)
            (hchild (by simp [children]) env) (hchild (by simp [children]) env)
            (hchild (by simp [children]) env)
      | call f args t => exact .fail rfl
      | app x args =>
          obtain ⟨q, hq, hexpand⟩ := h.expand x (mem_predicateNames.2 ⟨args, self_mem_visit _⟩)
          exact Congruence.app (R := Expanded.congruence) hq (h.predicate? ▸ hq) hexpand
            (List.forall₂_same.2 fun c hc => ih c hc (h.child hc) env)

end Expr

/-! ## Nested expansions

The induction over layers. In the body of a predicate that does not refer to itself the predicate
is out of reach, so one predicate fewer is left for one expansion fewer. -/

namespace Program

open Relation

variable {p : Program} {e : Expr} {t : Ty} {x y : String}

/-- The evaluation of an expression may get to the predicate `x`: it is applied in the
expression, or in the body of a predicate that the evaluation may get to. -/
def Reaches (p : Program) (e : Expr) (x : String) : Prop :=
  ∃ y ∈ e.predicateNames, ReflTransGen p.Refers y x

/-- No predicate that the evaluation of an expression may get to refers to itself, not even
through others. -/
def Expandable (p : Program) (e : Expr) : Prop := ∀ x, p.Reaches e x → ¬ TransGen p.Refers x x

/-- References that go down some numbering of the names, as far as an expression gets to them, have
no cycle there. -/
theorem expandable_of_rank {names : List String} (rank : String → Nat)
    (he : ∀ x ∈ e.predicateNames, x ∈ names)
    (hp : ∀ q ∈ p.predicates, q.name ∈ names →
      ∀ y ∈ q.body.predicateNames, y ∈ names ∧ rank y < rank q.name) : p.Expandable e := by
  have hstep : ∀ x y, x ∈ names → p.Refers x y → y ∈ names ∧ rank y < rank x := by
    rintro x y hx ⟨q, hq, rfl, hy⟩
    exact hp q hq hx y hy
  have hreach : ∀ x, p.Reaches e x → x ∈ names := by
    rintro x ⟨y, hy, hyx⟩
    induction hyx with
    | refl => exact he y hy
    | tail _ hxz ih => exact (hstep _ _ ih hxz).1
  intro x hx hcycle
  have hlt : ∀ y, TransGen p.Refers x y → y ∈ names ∧ rank y < rank x := by
    intro y hy
    induction hy with
    | single hxy => exact hstep _ _ (hreach x hx) hxy
    | tail _ hyz ih =>
        obtain ⟨hz, hlt⟩ := hstep _ _ ih.1 hyz
        exact ⟨hz, hlt.trans ih.2⟩
  exact Nat.lt_irrefl _ (hlt x hcycle).2

/-- Evaluation of checked expressions gets to predicates of the program only. -/
theorem mem_names_of_reaches (hv : p.validate = .ok ()) (hc : p.check e = .ok t)
    (hx : p.Reaches e x) : x ∈ p.predicates.map Predicate.name := by
  obtain ⟨y, hy, hyx⟩ := hx
  cases hyx with
  | refl => exact mem_names_of_check hc hy
  | tail _ hzx =>
      obtain ⟨q, hq, -, hx⟩ := hzx
      exact mem_names_of_check (check_body hv hq) hx

/-- From the body of a predicate evaluation gets to what the predicate refers to. -/
theorem transGen_of_reaches_body {q : Predicate} (hq : q ∈ p.predicates)
    (hy : p.Reaches q.body y) : TransGen p.Refers q.name y := by
  obtain ⟨z, hz, hzy⟩ := hy
  exact TransGen.head' ⟨q, hq, rfl, hz⟩ hzy

/-- What the body of an applied predicate gets to, the expression gets to. -/
theorem Reaches.of_body {q : Predicate} (hx : q.name ∈ e.predicateNames) (hq : q ∈ p.predicates)
    (hy : p.Reaches q.body y) : p.Reaches e y :=
  ⟨q.name, hx, (transGen_of_reaches_body hq hy).to_reflTransGen⟩

end Program

namespace Evaluator

open Program

variable {p : Program} {low high : Int64}

/-- One layer of evaluation, where the expansions of the layers below do not fail. -/
theorem expanded_evalTo_of {ev : Evaluator} {e : Expr} {n m : Nat}
    (h : ∀ x ∈ e.predicateNames, ∃ q, ev.predicate? x = some q ∧ ∀ scope,
      Expanded ((ev.interpretation n).expand q scope) ((ev.interpretation m).expand q scope))
    (env : Valuation) : Expanded (ev.evalTo n e env) (ev.evalTo m e env) := by
  have hparts : ∀ depth, (ev.interpretation depth).predicate? = ev.predicate? ∧
      (ev.interpretation depth).low = ev.low ∧ (ev.interpretation depth).high = ev.high := by
    intro depth
    cases depth <;> exact ⟨rfl, rfl, rfl⟩
  obtain ⟨hp, hlow, hhigh⟩ := hparts n
  obtain ⟨hp', hlow', hhigh'⟩ := hparts m
  rw [evalTo_eq, evalTo_eq]
  refine (Expr.expanded_evalWith ⟨?_, ?_, ?_, ?_⟩ env).1
  · rw [hp, hp']
  · rw [hlow, hlow']
  · rw [hhigh, hhigh']
  · rwa [hp]

/-- As many nested expansions are enough as there are predicates to get to. Without cycles no
predicate is expanded inside of its own expansion. -/
theorem expanded_evalTo (hv : p.validate = .ok ()) {e : Expr} {t : Ty} (hc : p.check e = .ok t)
    (he : p.Expandable e) {l : List String} (hl : ∀ x, p.Reaches e x → x ∈ l) {n m : Nat}
    (hn : l.length ≤ n) (hm : n ≤ m) (env : Valuation) :
    Expanded (evalTo ⟨p.predicates, low, high⟩ n e env)
      (evalTo ⟨p.predicates, low, high⟩ m e env) := by
  induction n generalizing m e t l env with
  | zero =>
      refine expanded_evalTo_of (fun x hx => ?_) env
      have hmem := hl x ⟨x, hx, .refl⟩
      rw [List.length_eq_zero_iff.1 (Nat.le_zero.1 hn)] at hmem
      cases hmem
  | succ n ih =>
      refine expanded_evalTo_of (fun x hx => ?_) env
      have hreach : p.Reaches e x := ⟨x, hx, .refl⟩
      obtain ⟨q, hq⟩ := exists_predicate? hc hx
      obtain ⟨hmem, rfl⟩ := mem_of_predicate? hq
      refine ⟨q, by rw [predicate?_eq (nodup_predicates hv), hq], fun scope => ?_⟩
      cases m with
      | zero => omega
      | succ m =>
          -- inside the body the predicate itself is out of reach
          have hbody := ih (check_body hv hmem) (fun y hy => he y (hy.of_body hx hmem))
            (l := l.erase q.name) (m := m) ?_ ?_ (by omega) scope
          · exact hbody.bind fun v => (Expanded.blames q.body).asBool v
          · intro y hy
            refine (List.mem_erase_of_ne fun hyx => ?_).2 (hl y (hy.of_body hx hmem))
            exact he q.name hreach (hyx ▸ transGen_of_reaches_body hmem hy)
          · rw [List.length_erase_of_mem (hl _ hreach)]
            omega

end Evaluator

/-- The body of a predicate of a validated program does not apply the predicate itself. -/
theorem Program.not_refers_self {p : Program} (hv : p.validate = .ok ()) (x : String) :
    ¬ p.Refers x x := by
  rintro ⟨q, hq, rfl, hx⟩
  have hvalid := validatePredicate_of_validate hv hq
  unfold validatePredicate at hvalid
  obtain ⟨sig, -, hvalid⟩ := bind_eq_ok_iff.1 hvalid
  have hvalid := (seq_eq_ok_iff.1 hvalid).2
  dsimp only at hvalid
  rw [check_body hv hq] at hvalid
  have hnot := (seq_eq_ok_iff.1 (seq_eq_ok_iff.1 hvalid).2).1
  rw [require_eq_ok_iff] at hnot
  exact of_decide_eq_true hnot hx

/-- No predicate of a validated program applies itself. And if no predicate that the evaluation of
an expression may get to refers to itself through others, then evaluation reaches a result after
finitely many expansions: as many of them inside one another are enough as there are predicates, a
larger limit changes nothing, and no expansion fails. -/
theorem expansion_ends {p : Program} (hv : p.validate = .ok ()) :
    (∀ x, ¬ p.Refers x x) ∧
    ∀ {e : Expr} {t : Ty}, p.check e = .ok t → p.Expandable e →
      ∀ (env : Valuation) (low high : Int64) (depth : Nat), p.predicates.length ≤ depth →
        (⟨p.predicates, low, high⟩ : Evaluator).evalTo depth e env =
          (⟨p.predicates, low, high⟩ : Evaluator).eval e env ∧
        ∀ x, (⟨p.predicates, low, high⟩ : Evaluator).eval e env ≠ .error (.tooDeep x) ∧
          (⟨p.predicates, low, high⟩ : Evaluator).eval e env ≠ .error (.unknownPredicate x) := by
  refine ⟨Program.not_refers_self hv, fun {e t} hc he env low high depth hdepth => ?_⟩
  have hall : ∀ m, p.predicates.length ≤ m →
      Expanded (Evaluator.evalTo ⟨p.predicates, low, high⟩ p.predicates.length e env)
        (Evaluator.evalTo ⟨p.predicates, low, high⟩ m e env) := fun m hm =>
    Evaluator.expanded_evalTo hv hc he (fun x => Program.mem_names_of_reaches hv hc)
      (by rw [List.length_map]) hm env
  have hlimit := hall _ (Nat.le_max_right 1000000 _)
  refine ⟨(hall depth hdepth).eq.symm.trans hlimit.eq, fun x => ⟨fun h => ?_, fun h => ?_⟩⟩
  · cases hlimit.error (hlimit.eq.trans h)
  · cases hlimit.error (hlimit.eq.trans h)

namespace PingPong

open Sample (n)

/-- The predicate `ping(n) := pong(n)`. -/
def ping : Predicate := ⟨"ping", 2, [n], .app "pong" [.var n]⟩

/-- The predicate `pong(n) := ping(n)`, so that neither has an end. -/
def pong : Predicate := ⟨"pong", 2, [n], .app "ping" [.var n]⟩

/-- Two predicates that apply one another, beside two that do not. -/
def program : Program where
  types := .ofList
    [.predicate [.array .int, .int, .array .int], .predicate [.array .int, .array .int],
      .predicate [.int]]
  functions := []
  predicates := [Bounds.near, Bounds.close, ping, pong]

end PingPong

/-- The expansion of `near` expands `close`, and neither gets to the predicates that apply one
another. -/
theorem expansion_ends_near :
    PingPong.program.validate = .ok () ∧
      PingPong.program.check Bounds.question = .ok .bool ∧
      PingPong.program.Expandable Bounds.question ∧
      (⟨PingPong.program.predicates, -1, 4⟩ : Evaluator).evalTo 4 Bounds.question Bounds.values =
        (⟨PingPong.program.predicates, -1, 4⟩ : Evaluator).eval Bounds.question Bounds.values ∧
      (⟨PingPong.program.predicates, -1, 4⟩ : Evaluator).eval Bounds.question Bounds.values =
        .ok (.bool true) := by
  have hv : PingPong.program.validate = .ok () := rfl
  have hc : PingPong.program.check Bounds.question = .ok .bool := rfl
  have he : PingPong.program.Expandable Bounds.question :=
    Program.expandable_of_rank (fun x => if x = "near" then 1 else 0)
      (by decide +kernel : ∀ x ∈ Bounds.question.predicateNames, x ∈ ["near", "close"])
      (by decide +kernel)
  exact ⟨hv, hc, he, ((expansion_ends hv).2 hc he Bounds.values (-1) 4 4 (by decide)).1, rfl⟩

namespace PingPong

open Sample (n)

variable {q : Predicate} {arg : Expr} {env : Valuation} {v : Value} {I : Interpretation}

/-- An application of either predicate asks for the expansion of the predicate. -/
theorem evalWith_app (hI : I.predicate? = Evaluator.predicate? ⟨program.predicates, I.low, I.high⟩)
    (hq : q = ping ∨ q = pong) (harg : arg.evalWith I env = .ok v) :
    (Expr.app q.name [arg]).evalWith I env =
      I.expand q (SortedMap.empty.insert "n" v) >>= fun b => .ok (.bool b) := by
  have hfound : I.predicate? q.name = some q := by
    rw [hI]
    rcases hq with rfl | rfl <;> rfl
  have hparams : q.parameters = [n] := by rcases hq with rfl | rfl <;> rfl
  simp only [Expr.evalWith, hfound, hparams, Expr.evalArgs, harg]
  rfl

/-- Each expansion of one predicate asks for one of the other, up to any limit. The arguments have
values, so that nothing else fails before. -/
theorem evalTo_eq_tooDeep (low high : Int64) (depth : Nat) (hq : q = ping ∨ q = pong)
    (harg : ∀ I, arg.evalWith I env = .ok v) :
    ∃ x, (⟨program.predicates, low, high⟩ : Evaluator).evalTo depth (.app q.name [arg]) env =
      .error (.tooDeep x) := by
  induction depth generalizing q arg env with
  | zero =>
      refine ⟨q.name, ?_⟩
      rw [Evaluator.evalTo, evalWith_app rfl hq (harg _)]
      rfl
  | succ depth ih =>
      have hn : ∀ I, (Expr.var n).evalWith I (SortedMap.empty.insert "n" v) = .ok v := fun _ => rfl
      have hbody : ∃ x, (⟨program.predicates, low, high⟩ : Evaluator).evalTo depth q.body
          (SortedMap.empty.insert "n" v) = .error (.tooDeep x) := by
        rcases hq with rfl | rfl
        · exact ih (Or.inr rfl) hn
        · exact ih (Or.inl rfl) hn
      obtain ⟨x, hx⟩ := hbody
      refine ⟨x, ?_⟩
      rw [Evaluator.evalTo, evalWith_app rfl hq (harg _)]
      dsimp only
      rw [hx]
      rfl

end PingPong

/-- Validation accepts two predicates that apply one another. Then evaluation reaches no result,
whatever the limit. -/
theorem expansion_pingPong :
    PingPong.program.validate = .ok () ∧
      PingPong.program.check (.app "ping" [.int 0]) = .ok .bool ∧
      PingPong.program.Refers "ping" "pong" ∧ PingPong.program.Refers "pong" "ping" ∧
      ∀ (env : Valuation) (low high : Int64) (depth : Nat), ∃ x,
        (⟨PingPong.program.predicates, low, high⟩ : Evaluator).evalTo depth
          (.app "ping" [.int 0]) env = .error (.tooDeep x) := by
  refine ⟨rfl, rfl, by decide +kernel, by decide +kernel, fun env low high depth => ?_⟩
  exact PingPong.evalTo_eq_tooDeep low high depth (Or.inl rfl) fun _ => rfl

end Pathwise
