import Mathlib.Data.List.Forall2
import Pathwise.Proofs.Visitors
import Pathwise.Verifier

/-!
# Pathwise.Proofs.Walk

Stopping a search and cutting off its list of paths come to the same.

The paths of a function are shown to a visitor while they are searched for, and the visitor
may stop the search after any of them. What the walk does is known from
`Pathwise.Proofs.Visitors`: it visits the list of all paths, up to the first one at which the
visitor stops or fails. Here the visitor is the one that verifies. It asks a checker for the
condition of each path and keeps the report on the function, so it is a machine whose state is
the report together with the state of the checker.

`Checker.Dialogue` says which questions take a checker from one state to another, and with
which answers. `Checker.Concludes` says, without a walk or a visitor, what verification of a
function comes to if the list of its paths is given: the first path that the checker does not
approve of decides, and all of its report is made of that path. `search_stops_at_first` puts the
two together.
-/

namespace Pathwise

open Stateful

/-! ## Dialogues

The verifier knows a checker only by its answers. So all that can be said about what the two
have done is the list of questions, with the answers and the states in between. -/

/-- A question to a checker, with the answer. -/
inductive Exchange (ε : Type) where
  | define (q : Predicate) (answer : Except ε Unit)
  | check (e : Expr) (answer : Except ε Validity)

namespace Checker

variable {ε W : Type} {m : Type → Type} [Monad m] [Stateful m W] {c : Checker ε m} {p : Program}
  {f : Function}

/-- The questions take the checker from one state to another, with these answers. A dialogue is
about the checker only, and knows nothing of paths. -/
inductive Dialogue (c : Checker ε m) : W → List (Exchange ε) → W → Prop where
  | nil (w : W) : Dialogue c w [] w
  | define {w w₁ w' : W} {q : Predicate} {answer : Except ε Unit} {rest : List (Exchange ε)}
      (ha : run (c.define q) w = (answer, w₁)) (hr : Dialogue c w₁ rest w') :
      Dialogue c w (.define q answer :: rest) w'
  | check {w w₁ w' : W} {e : Expr} {answer : Except ε Validity} {rest : List (Exchange ε)}
      (ha : run (c.check e) w = (answer, w₁)) (hr : Dialogue c w₁ rest w') :
      Dialogue c w (.check e answer :: rest) w'

theorem Dialogue.append {w w₁ w' : W} {l l' : List (Exchange ε)} (h : c.Dialogue w l w₁)
    (h' : c.Dialogue w₁ l' w') : c.Dialogue w (l ++ l') w' := by
  induction h with
  | nil => exact h'
  | define ha _ ih => exact .define ha (ih h')
  | check ha _ ih => exact .check ha (ih h')

/-- The checker is asked for the formulas of a list, in this order, and finds all of them valid.
-/
def Confirms (c : Checker ε m) (w : W) (vcs : List Expr) (w' : W) : Prop :=
  c.Dialogue w (vcs.map fun vc => .check vc (.ok .valid)) w'

theorem Confirms.append {w w₁ w' : W} {vcs vcs' : List Expr} (h : c.Confirms w vcs w₁)
    (h' : c.Confirms w₁ vcs' w') : c.Confirms w (vcs ++ vcs') w' := by
  unfold Confirms
  rw [List.map_append]
  exact Dialogue.append h h'

end Checker

/-! ## Checkers

The visitor of a function changes two things at a path, the report and the checker's state. The
lemmas about `Checker.checkPath` give both, one for each of the three answers that it has. -/

namespace Checker

variable {ε W : Type} {m : Type → Type} {c : Checker ε m}

/-- There is no objection to a valid condition, and to nothing else. -/
theorem objection_eq_none {r : Except ε Validity} (h : c.objection r = none) :
    r = .ok .valid := by
  rcases r with e | _ | m | reason
  · cases h
  · rfl
  · cases h
  · cases h

/-- An objection decides on a verdict other than success. -/
theorem verdict_of_objection {r : Except ε Validity} {o : Objection}
    (h : c.objection r = some o) : o.verdict ≠ .verified := by
  rcases r with e | _ | m | reason <;> cases h <;> nofun

variable [Monad m] [Stateful m W] {p : Program} {f : Function} {last : Except VerifyError Unit}
  {n : Nat} {qs : List BasicPath} {q : BasicPath} {vc : Expr} {vcs : List Expr} {w w₁ w' : W}
  {report : FunctionReport}

/-- The conditions of the paths of a list, all of which the checker is asked for and finds
valid. -/
def Approves (c : Checker ε m) (p : Program) (f : Function) (w : W) (qs : List BasicPath)
    (w' : W) : Prop :=
  ∃ vcs, List.Forall₂ (fun q vc => p.condition f q = .ok vc) qs vcs ∧ c.Confirms w vcs w'

/-- The report on a function whose path `q`, with the condition `vc`, is the first one that
there is an objection to; `before` is the number of paths before it. -/
def failedReport (f : Function) (before : Nat) (q : BasicPath) (vc : Expr) (o : Objection) :
    FunctionReport where
  name := f.name
  verdict := o.verdict
  checked := before + 1
  failure := some ⟨q.kind, q.describe f, vc.text, o.counterexample, o.reason⟩

/-- What verification of a function comes to, if `qs` are its paths and `last` is met after
them. -/
inductive Concludes (c : Checker ε m) (p : Program) (f : Function)
    (last : Except VerifyError Unit) (qs : List BasicPath) (w : W) :
    Except VerifyError FunctionReport → W → Prop where
  /-- The condition of a path is not found valid, after those of all paths before it. -/
  | objection {front back : List BasicPath} {q : BasicPath} {vc : Expr}
      {answer : Except ε Validity} {o : Objection} {w₁ w' : W} (hqs : qs = front ++ q :: back)
      (hf : c.Approves p f w front w₁) (hvc : p.condition f q = .ok vc)
      (ha : run (c.check vc) w₁ = (answer, w')) (hn : answer ≠ .ok .valid)
      (ho : c.objection answer = some o) :
      Concludes c p f last qs w (.ok (failedReport f front.length q vc o)) w'
  /-- A path has no condition, and those of all paths before it are valid. -/
  | defect {front back : List BasicPath} {q : BasicPath} {e : VerifyError} {w' : W}
      (hqs : qs = front ++ q :: back) (hf : c.Approves p f w front w')
      (hq : p.condition f q = .error e) : Concludes c p f last qs w (.error e) w'
  /-- The conditions of all paths are valid. -/
  | finished {w' : W} (hf : c.Approves p f w qs w') :
      Concludes c p f last qs w (last.map fun _ => ⟨f.name, .verified, qs.length, none⟩) w'

theorem Approves.nil (c : Checker ε m) (p : Program) (f : Function) (w : W) :
    c.Approves p f w [] w := ⟨[], .nil, .nil w⟩

theorem Approves.cons (hvc : p.condition f q = .ok vc)
    (ha : run (c.check vc) w = (.ok .valid, w₁)) (h : c.Approves p f w₁ qs w') :
    c.Approves p f w (q :: qs) w' := by
  obtain ⟨vcs, hvcs, hconfirms⟩ := h
  exact ⟨vc :: vcs, .cons hvc hvcs, .check ha hconfirms⟩

/-- A path without a condition is not counted, and the checker is not asked. -/
theorem run_checkPath_error {e : VerifyError} (hq : p.condition f q = .error e) :
    run (c.checkPath p f q) (report, w) = (.error e, report, w) := by
  unfold checkPath
  simp only [hq, run_pure]

/-- A path whose condition is valid is counted, and the walk goes on. -/
theorem run_checkPath_valid (hvc : p.condition f q = .ok vc)
    (ha : run (c.check vc) w = (.ok .valid, w')) :
    run (c.checkPath p f q) (report, w) =
      (.ok .goOn, { report with checked := report.checked + 1 }, w') := by
  unfold checkPath
  simp only [hvc, run_bind, run_modify, run_lift, ha, Checker.objection, run_pure]

/-- A path whose condition is not found valid is counted as well. It makes the rest of the report
and ends the walk. -/
theorem run_checkPath_objection {answer : Except ε Validity} {o : Objection}
    (hvc : p.condition f q = .ok vc) (ha : run (c.check vc) w = (answer, w'))
    (ho : c.objection answer = some o) :
    run (c.checkPath p f q) (⟨f.name, .verified, n, none⟩, w) =
      (.ok .stop, failedReport f n q vc o, w') := by
  unfold checkPath
  simp only [hvc, run_bind, run_modify, run_lift, ha, ho, run_pure]
  rfl

/-- Paths that are approved are counted, and change nothing else in the report. -/
theorem Approves.goesOn (h : c.Approves p f w qs w') (n : Nat) :
    Trace.GoesOn (c.checkPath p f) (⟨f.name, .verified, n, none⟩, w) qs
      (⟨f.name, .verified, n + qs.length, none⟩, w') := by
  obtain ⟨vcs, hvcs, hconfirms⟩ := h
  induction hvcs generalizing n w with
  | nil =>
      cases hconfirms
      exact .nil _
  | cons hvc _ ih =>
      cases hconfirms with
      | check ha hr =>
          have hrest := ih (n + 1) hr
          rw [Nat.add_assoc, Nat.add_comm 1] at hrest
          exact .cons (run_checkPath_valid hvc ha) hrest

omit [Monad m] in
theorem exists_objection {answer : Except ε Validity} (h : answer ≠ .ok .valid) :
    ∃ o, c.objection answer = some o :=
  Option.ne_none_iff_exists'.1 fun hnone => h (objection_eq_none hnone)

theorem Concludes.cons {r : Except VerifyError FunctionReport} {last : Except VerifyError Unit}
    (hvc : p.condition f q = .ok vc) (ha : run (c.check vc) w = (.ok .valid, w₁))
    (h : c.Concludes p f last qs w₁ r w') : ∃ r, c.Concludes p f last (q :: qs) w r w' := by
  cases h with
  | objection hqs hf hvc' ha' hn ho =>
      exact ⟨_, .objection (by rw [hqs, List.cons_append]) (hf.cons hvc ha) hvc' ha' hn ho⟩
  | defect hqs hf hq =>
      exact ⟨_, .defect (by rw [hqs, List.cons_append]) (hf.cons hvc ha) hq⟩
  | finished hf => exact ⟨_, .finished (hf.cons hvc ha)⟩

/-- Verification always comes to something. The cases are those of the first path: it has no
condition, it is approved, or there is an objection. -/
theorem exists_concludes (c : Checker ε m) (p : Program) (f : Function)
    (last : Except VerifyError Unit) (qs : List BasicPath) (w : W) :
    ∃ r w', c.Concludes p f last qs w r w' := by
  induction qs generalizing w with
  | nil => exact ⟨_, w, .finished (.nil c p f w)⟩
  | cons q qs ih =>
      cases hq : p.condition f q with
      | error e => exact ⟨_, w, .defect (List.nil_append _).symm (.nil c p f w) hq⟩
      | ok vc =>
          cases ha : run (c.check vc) w with
          | mk answer w₁ =>
              by_cases hn : answer = .ok .valid
              · obtain ⟨r, w', h⟩ := ih w₁
                obtain ⟨r', h'⟩ := h.cons hq (hn ▸ ha)
                exact ⟨r', w', h'⟩
              · obtain ⟨o, ho⟩ := exists_objection (c := c) hn
                exact ⟨_, w₁, .objection (List.nil_append _).symm (.nil c p f w) hq ha hn ho⟩

/-- Verification looks at the paths in the order of the search up to the first one that is
not approved. -/
theorem Concludes.run_verifyFunction {r : Except VerifyError FunctionReport}
    (h : c.Concludes p f (f.paths p).outcome (f.paths p).toList w r w') :
    run (c.verifyFunction p f) w = (r, w') := by
  rw [verifyFunction, run_bind]
  cases h with
  | objection hqs hf hvc ha _ ho =>
      have hends := Function.run_walk_iff.2 (.stopped hqs (hf.goesOn 0)
        (run_checkPath_objection hvc ha ho))
      rw [run_stateT hends, Nat.zero_add]
      exact run_pure _ _
  | defect hqs hf hq =>
      have hends := Function.run_walk_iff.2 (.failed hqs (hf.goesOn 0) (run_checkPath_error hq))
      rw [run_stateT hends]
      exact run_pure _ _
  | finished hf =>
      have hends := Function.run_walk_iff.2 (.finished (hf.goesOn 0))
      rw [run_stateT hends, Nat.zero_add]
      cases (f.paths p).outcome <;> exact run_pure _ _

/-- What verification of a function comes to is exactly what `Concludes` says. The relation is
about the list of paths, and has no computations in it but those of the checker. -/
theorem run_verifyFunction_iff {r : Except VerifyError FunctionReport} :
    run (c.verifyFunction p f) w = (r, w') ↔
      c.Concludes p f (f.paths p).outcome (f.paths p).toList w r w' := by
  refine ⟨fun h => ?_, Concludes.run_verifyFunction⟩
  obtain ⟨r₀, w₀, h₀⟩ := exists_concludes c p f (f.paths p).outcome (f.paths p).toList w
  obtain ⟨rfl, rfl⟩ := Prod.mk.inj (h.symm.trans h₀.run_verifyFunction)
  exact h₀

end Checker

/-! ## Stopping early

The two descriptions together, with the list of paths as the recorder gets it. It is the same list
for all visitors and all checkers, and neither the state nor the answers of one have an influence
on it. -/

/-- Let `L` be the paths that a visitor which always goes on is shown by the walk through a
function, and `E` what the walk ends with then. Every visitor is shown `L` in order up to the
first path at which it stops or fails, and that is what the walk ends with; if it goes on at all
of `L`, the walk ends with `E`. So the report of every checker on a function is made of the first
path of `L` whose condition is not found valid, and verification fails exactly if a path without
a condition or a defect of the search comes before any such path. -/
theorem search_stops_at_first (p : Program) (f : Function) :
    ∃ L E, run (f.walk p recorder) [] = (E.map fun _ => .goOn, L) ∧
      L = (f.paths p).toList ∧ E = (f.paths p).outcome ∧
      (∀ {W : Type} {m : Type → Type} [Monad m] [Stateful m W] (see : Visitor m) (w w' : W)
        (r : Except VerifyError Flow),
        run (f.walk p see) w = (r, w') ↔ Trace.Ends see E L w r w') ∧
      ∀ {ε W : Type} {m : Type → Type} [Monad m] [Stateful m W] (c : Checker ε m) (w w' : W)
        (r : Except VerifyError FunctionReport),
        run (c.verifyFunction p f) w = (r, w') ↔ c.Concludes p f E L w r w' := by
  refine ⟨(f.paths p).toList, (f.paths p).outcome, f.run_walk_recorder p, rfl, rfl, ?_, ?_⟩
  · intro W m _ _ see w w' r
    exact Function.run_walk_iff
  · intro ε W m _ _ c w w' r
    exact Checker.run_verifyFunction_iff

end Pathwise
