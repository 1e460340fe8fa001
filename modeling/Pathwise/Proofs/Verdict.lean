import Pathwise.Proofs.Dialogue
import Pathwise.Proofs.Soundness

/-!
# Pathwise.Proofs.Verdict

What a positive verdict rests on.

The checker works on a state of its own, which may be anything from a cache to the world with a
solver in it. If it calls formulas valid only when they are (`Checker.Sound`), then the verdict
`verified` on a program means that all conditions of all its functions are valid
(`Checker.proved_of_verify`). A checker that knows all valid formulas gives this verdict whenever
it can (`Checker.verify_ideal`).

Soundness of a checker is asked for in every state, because nothing is known about the states that
the verifier takes it through. Completeness is not asked for anywhere: a checker may answer that
it does not know, and the ideal checker is there only to show that positive verdicts are not ruled
out. It decides validity classically and cannot be run.
-/

namespace Pathwise

variable {W : Type}

/-! ## Sound checkers

From the verdict to the validity of conditions, by way of the dialogue: the conditions are among
the questions, and a sound checker has said that they are valid. -/

namespace Checker

variable {ε : Type} {c : Checker ε (StateM W)} {M : Meaning} {p : Program} {f : Function}

/-- The checker calls only valid formulas valid. It may miss others, give up on them or fail, and
it may answer differently each time. -/
def Sound (c : Checker ε (StateM W)) (M : Meaning) : Prop :=
  ∀ e w, ((c.check e).run w).1 = .ok .valid → e.Valid M

/-- What a sound checker finds valid in a dialogue is valid, in whatever state it was asked. -/
theorem Dialogue.valid (hc : c.Sound M) {w w' : W} {l : List (Exchange ε)}
    (h : c.Dialogue w l w') {vc : Expr} (hvc : .check vc (.ok .valid) ∈ l) : vc.Valid M := by
  induction h with
  | nil => cases hvc
  | define _ _ ih =>
      rcases List.mem_cons.1 hvc with he | hvc
      · cases he
      · exact ih hvc
  | check ha _ ih =>
      rcases List.mem_cons.1 hvc with he | hvc
      · cases he
        exact hc vc _ (congrArg Prod.fst ha)
      · exact ih hvc

/-- All conditions of all functions of a verified program are valid, and the search for them has
met no defect. A sound checker is all that is needed. -/
theorem proved_of_verify (hc : c.Sound M) {keepGoing : Bool} {w : W} {report : ProgramReport}
    (h : ((c.verify p keepGoing).run w).1 = .ok report) (hv : report.verdict = .verified) :
    p.validate = .ok () ∧ ∀ f ∈ p.functions, (f.paths p).outcome = .ok () ∧ f.Proved M p := by
  have hrun : Stateful.run (c.verify p keepGoing) w =
      (.ok report, ((c.verify p keepGoing).run w).2) := Prod.ext h rfl
  refine ⟨validate_of_verify hrun, fun f hf => ?_⟩
  obtain ⟨-, hoks, vcs, hvcs, hdialogue⟩ :=
    dialogue_of_verify (List.ne_nil_of_mem hf) hrun hv
  refine ⟨hoks f hf, fun q hq vc hvc => ?_⟩
  obtain ⟨vc', hmem, hvc'⟩ := hvcs.exists_of_mem hf hq
  cases hvc.symm.trans hvc'
  exact hdialogue.valid hc (List.mem_append_right _ (List.mem_map_of_mem hmem))

end Checker

/-! ## Computations on the state of a checker

The laws by which runs of the ideal checker are computed. -/

theorem runState_bind {α β : Type} (x : StateM W α) (f : α → StateM W β) (w : W) :
    (x >>= f).run w = (f (x.run w).1).run (x.run w).2 := rfl

theorem runState_pure {α : Type} (a : α) (w : W) : (pure a : StateM W α).run w = (a, w) := rfl

/-! ## The ideal checker

It finds all predicates acceptable and knows which formulas are valid. A program whose functions
are certified is verified with it, whatever the options. -/

namespace Checker

variable {M : Meaning} {p : Program} {f : Function}

/-- The checker that knows all valid formulas. It has no state, accepts every predicate and never
fails, since its type of errors is empty. -/
noncomputable def ideal (M : Meaning) : Checker Empty (StateM Unit) where
  define _ := pure (.ok ())
  check e := open Classical in pure (.ok (if e.Valid M then .valid else .unknown "not valid"))
  message := nofun

theorem check_ideal (e : Expr) (w : Unit) :
    (((ideal M).check e).run w).1 = .ok .valid ↔ e.Valid M := by
  simp only [ideal, runState_pure, Except.ok.injEq]
  split <;> simp_all

theorem sound_ideal (M : Meaning) : (ideal M).Sound M := fun e w => (check_ideal e w).1

theorem defineAll_ideal (qs : List Predicate) (w : Unit) :
    (((ideal M).defineAll qs).run w).1 = true := by
  induction qs with
  | nil => rfl
  | cons q qs ih => exact ih

/-- The ideal checker approves of all paths with valid conditions, provided that they have
conditions. -/
theorem approves_ideal {qs : List BasicPath}
    (h : ∀ q ∈ qs, ∃ vc, p.condition f q = .ok vc ∧ vc.Valid M) (w : Unit) :
    (ideal M).Approves p f w qs w := by
  induction qs with
  | nil => exact .nil _ _ _ w
  | cons q qs ih =>
      obtain ⟨⟨vc, hvc, hvalid⟩, hqs⟩ := List.forall_mem_cons.1 h
      exact .cons hvc (Prod.ext ((check_ideal vc w).2 hvalid) rfl) (ih hqs)

theorem verifyFunction_ideal (hf : f.Certified M p) (w : Unit) :
    ∃ report, (((ideal M).verifyFunction p f).run w).1 = .ok report ∧
      report.verdict = .verified := by
  obtain ⟨paths, hp, hall⟩ := hf
  obtain ⟨hok, rfl⟩ := Trace.collect_eq_ok hp
  have hrun := (Concludes.finished (approves_ideal hall w)).run_verifyFunction
  rw [hok] at hrun
  exact ⟨_, congrArg Prod.fst hrun, rfl⟩

theorem verifyAll_ideal {keepGoing : Bool} {fs : List Function}
    (hfs : ∀ f ∈ fs, f.Certified M p) (w : Unit) :
    ∃ reports, (((ideal M).verifyAll p keepGoing fs).run w).1 = .ok reports ∧
      ∀ r ∈ reports, r.verdict = .verified := by
  induction fs generalizing w with
  | nil => exact ⟨[], rfl, List.forall_mem_nil _⟩
  | cons f fs ih =>
      obtain ⟨hf, hrest⟩ := List.forall_mem_cons.1 hfs
      obtain ⟨report, hreport, hverified⟩ := verifyFunction_ideal hf w
      obtain ⟨reports, hreports, hall⟩ :=
        ih hrest (((ideal M).verifyFunction p f).run w).2
      rw [verifyAll, runState_bind, hreport]
      simp only [hverified, reduceCtorEq, decide_false, Bool.false_and, Bool.false_eq_true,
        if_false]
      rw [runState_bind, hreports]
      exact ⟨_, rfl, List.forall_mem_cons.2 ⟨hverified, hall⟩⟩

/-- The ideal checker verifies every program with valid conditions. It is sound, so no weaker
hypothesis would do. -/
theorem verify_ideal (hv : p.validate = .ok ()) (hall : ∀ f ∈ p.functions, f.Certified M p)
    (keepGoing : Bool) (w : Unit) :
    ∃ report, (((ideal M).verify p keepGoing).run w).1 = .ok report ∧
      report.verdict = .verified := by
  obtain ⟨reports, hreports, hverified⟩ :=
    verifyAll_ideal hall (((ideal M).defineAll p.predicates).run w).2
  unfold verify
  simp only [hv]
  rw [runState_bind, defineAll_ideal, if_pos rfl, runState_bind, hreports]
  exact ⟨⟨reports⟩, rfl, ProgramReport.verdict_eq_verified.2 hverified⟩

end Checker

end Pathwise
