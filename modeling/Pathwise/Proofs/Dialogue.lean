import Pathwise.Proofs.Typing
import Pathwise.Proofs.Walk

/-!
# Pathwise.Proofs.Dialogue

What the verifier and a checker have said to each other when a program is verified.

A checker is a machine with a state of its own, and `Checker.Dialogue` is a list of questions that
takes it from one state to another. When the verifier ends with the verdict `verified`, it has
taken the checker through one particular dialogue: all predicates come first and are accepted,
then come the conditions of all functions, path by path in the order of the search, and each of
them is found valid (`Checker.dialogue_of_verify`). Nothing is assumed about the checker for this.
What its answers are worth is a question of its own.

The dialogue is the interface between the verifier and everything that is proved about positive
verdicts. Later modules read off it that a sound checker has found all conditions valid, and which
scripts a solver has been sent; neither of them looks into the verifier again.

A program without functions is verified too, even if its predicates are refused. This is why there
has to be a function where predicates are said to have been accepted.
-/

namespace Pathwise

open Stateful

/-- The conditions of the paths of some functions, in the order of the search. -/
def Program.Conditions (p : Program) (fs : List Function) (vcs : List Expr) : Prop :=
  List.Forall₂ (fun t vc => p.condition t.1 t.2 = .ok vc)
    (fs.flatMap fun f => (f.paths p).toList.map (f, ·)) vcs

/-- Each path of each function has its condition in the list. -/
theorem Program.Conditions.exists_of_mem {p : Program} {fs : List Function} {vcs : List Expr}
    (h : p.Conditions fs vcs) {f : Function} (hf : f ∈ fs) {q : BasicPath}
    (hq : q ∈ (f.paths p).toList) : ∃ vc ∈ vcs, p.condition f q = .ok vc := by
  have key : ∀ {ts : List (Function × BasicPath)} {vcs : List Expr},
      List.Forall₂ (fun t vc => p.condition t.1 t.2 = .ok vc) ts vcs → (f, q) ∈ ts →
        ∃ vc ∈ vcs, p.condition f q = .ok vc := by
    intro ts vcs h hmem
    induction h with
    | nil => cases hmem
    | @cons t vc ts vcs ht _ ih =>
        rcases List.mem_cons.1 hmem with rfl | hmem
        · exact ⟨vc, List.mem_cons_self, ht⟩
        · obtain ⟨vc', hvc', hcond⟩ := ih hmem
          exact ⟨vc', List.mem_cons_of_mem _ hvc', hcond⟩
  exact key h (List.mem_flatMap.2 ⟨f, hf, List.mem_map_of_mem hq⟩)

/-- The report on a function that is verified. -/
def Function.verifiedReport (f : Function) (p : Program) : FunctionReport :=
  ⟨f.name, .verified, (f.paths p).toList.length, none⟩

/-! ## Reports

The verdict on a program is the worst of those on its functions, and `verified` is the best one.
-/

/-- The worse of two verdicts is positive only if both are. -/
theorem Verdict.worst_eq_verified {a b : Verdict} :
    a.worst b = .verified ↔ a = .verified ∧ b = .verified := by
  cases a <;> cases b <;> decide

/-- A program is verified if and only if all its reports say so. In particular it is if it has no
functions. -/
theorem ProgramReport.verdict_eq_verified {r : ProgramReport} :
    r.verdict = .verified ↔ ∀ f ∈ r.functions, f.verdict = .verified := by
  have key : ∀ (fs : List FunctionReport) (v : Verdict),
      fs.foldl (fun v f => v.worst f.verdict) v = .verified ↔
        v = .verified ∧ ∀ f ∈ fs, f.verdict = .verified := by
    intro fs
    induction fs with
    | nil => simp
    | cons f fs ih =>
        intro v
        rw [List.foldl_cons, ih, Verdict.worst_eq_verified, List.forall_mem_cons, and_assoc]
  exact (key r.functions .verified).trans (and_iff_right rfl)

/-! ## From the verdict to the dialogue

One lemma for each function of the verifier, from the inside out. Each of them starts from the
positive verdicts in its result and says which questions have been asked and answered. -/

namespace Checker

variable {ε W : Type} {m : Type → Type} [Monad m] [Stateful m W] {c : Checker ε m} {p : Program}
  {f : Function} {w w' : W}

/-- A function is verified only if the search met no defect and all its conditions were found
valid. -/
theorem run_verifyFunction {report : FunctionReport}
    (h : run (c.verifyFunction p f) w = (.ok report, w')) (hv : report.verdict = .verified) :
    report = f.verifiedReport p ∧ (f.paths p).outcome = .ok () ∧
      c.Approves p f w (f.paths p).toList w' := by
  generalize hr : Except.ok report = r at h
  cases run_verifyFunction_iff.1 h with
  | objection _ _ _ _ _ ho =>
      cases hr
      exact absurd hv (verdict_of_objection ho)
  | defect => cases hr
  | finished hf =>
      cases hlast : (f.paths p).outcome with
      | error e =>
          rw [hlast] at hr
          cases hr
      | ok u =>
          rw [hlast] at hr
          cases hr
          exact ⟨rfl, rfl, hf⟩

/-- If all reports on a list of functions are positive, there is one for each function, and
all conditions of the functions were found valid. -/
theorem run_verifyAll {keepGoing : Bool} {fs : List Function} {reports : List FunctionReport}
    (h : run (c.verifyAll p keepGoing fs) w = (.ok reports, w'))
    (hv : ∀ r ∈ reports, r.verdict = .verified) :
    reports = fs.map (·.verifiedReport p) ∧ (∀ f ∈ fs, (f.paths p).outcome = .ok ()) ∧
      ∃ vcs, p.Conditions fs vcs ∧ c.Confirms w vcs w' := by
  induction fs generalizing w reports with
  | nil =>
      obtain ⟨hr, rfl⟩ := run_pure_eq h
      cases hr
      exact ⟨rfl, List.forall_mem_nil _, [], .nil, .nil w⟩
  | cons f fs ih =>
      obtain ⟨report, w₁, hreport, h⟩ := run_bind_eq h
      cases report with
      | error e => cases (run_pure_eq h).1
      | ok report =>
          dsimp only at h
          split at h
          · next hstop =>
              -- the list ends early only at an unverified function
              obtain ⟨hr, -⟩ := run_pure_eq h
              cases hr
              simp [hv report List.mem_cons_self] at hstop
          · obtain ⟨rest, w₂, hrest, h⟩ := run_bind_eq h
            cases rest with
            | error e => cases (run_pure_eq h).1
            | ok rest =>
                obtain ⟨hr, rfl⟩ := run_pure_eq h
                cases hr
                obtain ⟨hhead, htail⟩ := List.forall_mem_cons.1 hv
                obtain ⟨rfl, hok, vcs, hvcs, hconfirms⟩ := run_verifyFunction hreport hhead
                obtain ⟨rfl, hoks, vcs', hvcs', hconfirms'⟩ := ih hrest htail
                refine ⟨rfl, List.forall_mem_cons.2 ⟨hok, hoks⟩, vcs ++ vcs', ?_,
                  hconfirms.append hconfirms'⟩
                exact List.rel_append (List.forall₂_map_left_iff.2 hvcs) hvcs'

/-- Predicates are accepted one by one, in the order of the program. All of them have been, if the
answer is positive. -/
theorem run_defineAll {qs : List Predicate} (h : run (c.defineAll qs) w = (true, w')) :
    c.Dialogue w (qs.map fun q => .define q (.ok ())) w' := by
  induction qs generalizing w with
  | nil =>
      obtain ⟨-, rfl⟩ := run_pure_eq h
      exact .nil w
  | cons q qs ih =>
      obtain ⟨answer, w₁, ha, h⟩ := run_bind_eq h
      cases answer with
      | error e => cases (run_pure_eq h).1
      | ok u => exact .define ha (ih h)

/-- There is a report only on programs that pass validation. -/
theorem validate_of_verify {keepGoing : Bool} {report : ProgramReport}
    (h : run (c.verify p keepGoing) w = (.ok report, w')) : p.validate = .ok () := by
  unfold verify at h
  cases hp : p.validate with
  | error e =>
      simp only [hp] at h
      cases (run_pure_eq h).1
  | ok u => rfl

/-- The dialogue behind the verdict `verified` on a program with functions. The checker has been
asked for every predicate and for every condition, in order, and for nothing else. -/
theorem dialogue_of_verify (hf : p.functions ≠ []) {keepGoing : Bool} {report : ProgramReport}
    (h : run (c.verify p keepGoing) w = (.ok report, w')) (hv : report.verdict = .verified) :
    report.functions = p.functions.map (·.verifiedReport p) ∧
      (∀ f ∈ p.functions, (f.paths p).outcome = .ok ()) ∧
      ∃ vcs, p.Conditions p.functions vcs ∧
        c.Dialogue w (p.predicates.map (fun q => .define q (.ok ())) ++
          vcs.map fun vc => .check vc (.ok .valid)) w' := by
  have hall := ProgramReport.verdict_eq_verified.1 hv
  have hp := validate_of_verify h
  unfold verify at h
  simp only [hp] at h
  obtain ⟨accepted, w₁, hdefine, h⟩ := run_bind_eq h
  cases accepted with
  | false =>
      -- predicates that are refused leave every function undecided
      obtain ⟨hr, -⟩ := run_pure_eq h
      cases hr
      obtain ⟨f, fs, hfs⟩ := List.exists_cons_of_ne_nil hf
      rw [hfs] at hall
      cases hall _ List.mem_cons_self
  | true =>
      obtain ⟨reports, w₂, hreports, h⟩ := run_bind_eq h
      obtain ⟨hr, rfl⟩ := run_pure_eq h
      cases reports with
      | error e => cases hr
      | ok reports =>
          cases hr
          obtain ⟨hrs, hoks, vcs, hvcs, hconfirms⟩ := run_verifyAll hreports hall
          exact ⟨hrs, hoks, vcs, hvcs, (run_defineAll hdefine).append hconfirms⟩

end Checker

end Pathwise
