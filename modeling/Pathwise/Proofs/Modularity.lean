import Pathwise.Proofs.BasicPaths
import Pathwise.Path.Wlp

/-!
# Pathwise.Proofs.Modularity

Callers see only contracts.

The search for paths and the conditions of paths consult the program in two places only: before a
call, for the precondition of the callee, and behind it, for the postcondition. Both look up the
callee by its position and take its name, its parameters and results, and the condition
(`Function.SameContract`). So two programs with the same contracts give the same obligations
(`Program.SameContracts.obligation?_eq`), and what the search does with them depends on the graph
of the function at hand alone (`Function.fanOut_eq_of_sameGraph`).

Names are part of the contract because obligations and error messages mention them. Positions are
too, since calls refer to callees by position; so functions may not be reordered, and both
programs have the same number of them.

It follows that a function need not be verified again when the body of another one changes. Errors
are covered as well: a call that cannot be folded in one program cannot be folded in the other,
with the same message.
-/

namespace Pathwise

/-! ## Contracts

Two relations between functions, one for those that are called and one for the function at hand,
and the first of them for all functions of two programs. -/

/-- Two functions look the same to their callers. Bodies may differ, and so may the positions of
the blocks with the contract. -/
structure Function.SameContract (f g : Function) : Prop where
  name : f.name = g.name
  parameters : f.parameters = g.parameters
  results : f.results = g.results
  /-- They require the same, wherever in their graphs this is written. -/
  precondition? : f.precondition? = g.precondition?
  postcondition? : f.postcondition? = g.postcondition?

/-- Two functions have the same graph. -/
structure Function.SameGraph (f g : Function) : Prop where
  entry : f.entry = g.entry
  exit : f.exit = g.exit
  blocks : f.blocks = g.blocks

/-- Two programs have functions with the same contracts. Signatures, predicates and graphs may
differ. -/
def Program.SameContracts (p q : Program) : Prop :=
  List.Forall₂ Function.SameContract p.functions q.functions

/-- Binding of arguments needs only the parameters, and the name for its messages. -/
theorem Function.SameContract.bind_eq {f g : Function} (h : f.SameContract g) (args : List Expr) :
    f.bind args = g.bind args := by
  rw [Function.bind, Function.bind, h.name, h.parameters]

namespace Program.SameContracts

variable {p q : Program} (h : p.SameContracts q)

include h

/-- At a position there are two functions with the same contract, or none at all. A call to a
missing function fails in both programs. -/
theorem function?_cases (id : FunctionId) :
    (p.function? id = none ∧ q.function? id = none) ∨
      ∃ f g, p.function? id = some f ∧ q.function? id = some g ∧ f.SameContract g := by
  have hlen : p.functions.length = q.functions.length := h.length_eq
  by_cases hid : id < p.functions.length
  · have hid' : id < q.functions.length := hlen ▸ hid
    exact Or.inr ⟨_, _, List.getElem?_eq_getElem hid, List.getElem?_eq_getElem hid',
      h.get hid hid'⟩
  · have hp : p.functions.length ≤ id := Nat.le_of_not_lt hid
    exact Or.inl ⟨List.getElem?_eq_none hp, List.getElem?_eq_none (hlen ▸ hp)⟩

/-- Two functions at the same position have the same contract. -/
theorem of_function? {id : FunctionId} {f g : Function} (hf : p.function? id = some f)
    (hg : q.function? id = some g) : f.SameContract g := by
  rcases h.function?_cases id with ⟨hnone, -⟩ | ⟨f', g', hf', hg', hfg⟩
  · rw [hf] at hnone
    cases hnone
  · cases hf.symm.trans hf'
    cases hg.symm.trans hg'
    exact hfg

/-! ## Obligations

An obligation inside a block is an assertion or the precondition of a callee. Only the latter
looks into the program. -/

/-- A statement has the same obligation in both programs. Only a call looks at another function,
and takes nothing but its contract. -/
theorem obligation?_eq (s : Statement) : p.obligation? s = q.obligation? s := by
  unfold Program.obligation?
  cases s.action with
  | call targets id args =>
      dsimp only
      rcases h.function?_cases id with ⟨hp, hq⟩ | ⟨f, g, hp, hq, hfg⟩
      · rw [hp, hq]
      · -- the two callees differ at most in what is not looked at
        rw [hp, hq]
        show (getOr f.precondition? _ >>= _) = (getOr g.precondition? _ >>= _)
        rw [hfg.precondition?, hfg.name, hfg.bind_eq]
  | _ => rfl

theorem inside_eq (r : Run) (b : Block) (before rest : List Statement) :
    p.inside r b before rest = q.inside r b before rest := by
  induction rest generalizing before with
  | nil => rfl
  | cons s rest ih => rw [Program.inside, Program.inside, h.obligation?_eq, ih]

end Program.SameContracts

/-! ## The search

By induction on what is left for it. The two searches are at the same run and the same block all
the time. -/

namespace Function

variable {p q : Program} {f g : Function} (hpq : p.SameContracts q) (hn : f.name = g.name)
  (hfg : f.SameGraph g)

include hfg in
theorem SameGraph.block?_eq (id : BlockId) : f.block? id = g.block? id := by
  rw [block?, block?, hfg.blocks]

include hn hfg in
/-- An edge leads to the same path in both functions. -/
theorem SameGraph.arrival_eq (r : Run) (b : Block) (id : BlockId) :
    f.arrival r b id = g.arrival r b id := by
  rw [arrival, arrival, hfg.block?_eq, hn]

include hpq hn hfg in
/-- The search goes the same way from every position. The proof follows the recursion of the
search, on what is left for it. -/
theorem fanOut_eq_of_sameGraph (r : Run) (b : Block) : f.fanOut p r b = g.fanOut q r b := by
  have harrival : f.arrival r b = g.arrival r b := funext (hfg.arrival_eq hn r b)
  have hbeyond : ∀ id, f.beyond p r id = g.beyond q r id := by
    intro id
    have hblock := hfg.block?_eq id
    cases hc : f.block? id with
    | none =>
        rw [hc] at hblock
        simp [beyond, hc, ← hblock, hn]
    | some c =>
        rw [hc] at hblock
        cases hk : c.kind with
        -- the search is continued in both, with the same run
        | basic =>
            rw [beyond_basic hc hk, beyond_basic hblock.symm hk, hn]
            by_cases hv : c.id ∈ r.visited
            · rw [if_pos hv, if_pos hv]
            · rw [if_neg hv, if_neg hv, hpq.inside_eq, fanOut_eq_of_sameGraph (r.extend c) c]
        | loopHead invariant ranking =>
            rw [beyond_head hc hk, beyond_head hblock.symm hk]
            by_cases ho : id ∈ r.opened
            · rw [if_pos ho, if_pos ho]
            · rw [if_neg ho, if_neg ho, hpq.inside_eq,
                fanOut_eq_of_sameGraph ((r.atHead id invariant).through c c.statements) c]
        | _ => simp [beyond, hc, ← hblock, hk]
  rw [fanOut_eq, fanOut_eq, harrival, funext hbeyond, hn]
termination_by f.left (r, b)
decreasing_by
  · exact left_extend hc hv
  · exact left_atHead hc ho

include hpq hn hfg in
/-- The search as a whole is the same, with the same paths in the same order. -/
theorem paths_eq_of_sameGraph : f.paths p = g.paths q := by
  unfold paths
  rw [hfg.block?_eq, hfg.entry, hn]
  simp only [fanOut_eq_of_sameGraph hpq hn hfg]

end Function

/-! ## Conditions

The fold over a path looks into the program at calls only; the name of the function is used in
messages. -/

namespace Program.SameContracts

variable {p q : Program} (h : p.SameContracts q)

include h

/-- Behind a call, too, only the contract of the callee counts. The body of the callee is never
looked at. -/
theorem foldCall_eq (targets : List Variable) (id : FunctionId) (args : List Expr) (r : Running) :
    p.foldCall targets id args r = q.foldCall targets id args r := by
  unfold Program.foldCall
  rcases h.function?_cases id with ⟨hp, hq⟩ | ⟨f, g, hp, hq, hfg⟩
  · rw [hp, hq]
  · rw [hp, hq]
    show (require _ _ >>= _) = (require _ _ >>= _)
    rw [hfg.results, hfg.name, hfg.bind_eq, hfg.postcondition?]

variable {f g : Function} (hn : f.name = g.name)

include hn

theorem foldStatement_eq (s : Statement) (r : Running) :
    p.foldStatement f s r = q.foldStatement g s r := by
  unfold Program.foldStatement
  cases s.action with
  | call targets id args => exact h.foldCall_eq targets id args r
  | store array index value =>
      dsimp only
      rw [hn]
  | _ => rfl

theorem foldStatements_eq (statements : List Statement) (r : Running) :
    p.foldStatements f statements r = q.foldStatements g statements r := by
  induction statements with
  | nil => rfl
  | cons s rest ih =>
      rw [Program.foldStatements, Program.foldStatements, ih]
      congr 1
      funext r'
      exact h.foldStatement_eq hn s r'

/-- So each path has the same condition, or none in both programs. -/
theorem condition_eq (path : BasicPath) : p.condition f path = q.condition g path := by
  rw [Program.condition, Program.condition, h.foldStatements_eq hn]

end Program.SameContracts

/-- Two programs with the same contracts, in which some function has the same graph, give this
function the same paths in the same order with the same outcome, and every path the same condition
or the same error. The graphs of all other functions, those that are called included, may differ
in every way, and so may signatures and predicates. -/
theorem callers_see_contracts {p q : Program} (h : p.SameContracts q) {id : FunctionId}
    {f g : Function} (hf : p.function? id = some f) (hg : q.function? id = some g)
    (hfg : f.SameGraph g) :
    f.paths p = g.paths q ∧ (f.paths p).toList = (g.paths q).toList ∧
      (f.paths p).outcome = (g.paths q).outcome ∧
      ∀ path, p.condition f path = q.condition g path := by
  have hn := (h.of_function? hf hg).name
  have hpaths := Function.paths_eq_of_sameGraph h hn hfg
  exact ⟨hpaths, by rw [hpaths], by rw [hpaths], h.condition_eq hn⟩

namespace Stepping

open Sample (m n r x)

/-- What both versions of the callee require. -/
def before : Expr := .binary .ge (.var x) (.int 0)

/-- What both versions of the callee ensure. -/
def after : Expr := .binary .gt (.var r) (.var x)

/-- The body `r := x + 1`. -/
def direct : Function := ⟨"step", 0, [x], [r], 0, 1, [
  ⟨0, .precondition before [], [], [2], []⟩,
  ⟨1, .postcondition after, [2], [], []⟩,
  ⟨2, .basic, [0], [1], [⟨0, .assign r (.binary .add (.var x) (.int 1))⟩]⟩]⟩

/-- The body `r := x`, and then up in a loop until it is larger. The exit is written first. -/
def looping : Function := ⟨"step", 0, [x], [r], 4, 0, [
  ⟨0, .postcondition after, [3], [], []⟩,
  ⟨1, .basic, [2], [2], [⟨1, .assume (.binary .le (.var r) (.var x))⟩,
    ⟨2, .assign r (.binary .add (.var r) (.int 1))⟩]⟩,
  ⟨2, .loopHead (.binary .ge (.var r) (.var x)) [], [1, 5], [1, 3], []⟩,
  ⟨3, .basic, [2], [0], [⟨3, .assume (.binary .gt (.var r) (.var x))⟩]⟩,
  ⟨4, .precondition before [], [], [5], []⟩,
  ⟨5, .basic, [4], [2], [⟨0, .assign r (.var x)⟩]⟩]⟩

/-- A step, an assertion about it, and a recursive call. -/
def climb : Function := ⟨"climb", 0, [n], [m], 0, 1, [
  ⟨0, .precondition (.binary .ge (.var n) (.int 0)) [], [], [2], []⟩,
  ⟨1, .postcondition (.binary .gt (.var m) (.int 0)), [2], [], []⟩,
  ⟨2, .basic, [0], [1], [⟨0, .call [m] 0 [.var n]⟩,
    ⟨1, .assert (.binary .gt (.var m) (.var n))⟩, ⟨2, .call [m] 1 [.var m]⟩]⟩]⟩

/-- The program with the given callee. -/
def calling (step : Function) : Program :=
  { types := .ofList [⟨[.int], [.int]⟩], functions := [step, climb] }

end Stepping

/-- The function `climb` has four paths, with the contract of `step` on each of them, whether `step`
has three blocks or six. -/
theorem callers_see_contracts_climb :
    (Stepping.calling Stepping.direct).validate = .ok () ∧
      (Stepping.calling Stepping.looping).validate = .ok () ∧
      ¬ Stepping.direct.SameGraph Stepping.looping ∧
      (Stepping.climb.paths (Stepping.calling Stepping.direct)).toList.map BasicPath.kind =
        [.callPrecondition 0 "step", .assertion 1, .callPrecondition 2 "climb", .postcondition] ∧
      Stepping.climb.paths (Stepping.calling Stepping.direct) =
        Stepping.climb.paths (Stepping.calling Stepping.looping) ∧
      ∀ path, (Stepping.calling Stepping.direct).condition Stepping.climb path =
        (Stepping.calling Stepping.looping).condition Stepping.climb path := by
  have h : (Stepping.calling Stepping.direct).SameContracts (Stepping.calling Stepping.looping) :=
    .cons ⟨rfl, rfl, rfl, rfl, rfl⟩ (.cons ⟨rfl, rfl, rfl, rfl, rfl⟩ .nil)
  have hf : ∀ step, (Stepping.calling step).function? 1 = some Stepping.climb := fun _ => rfl
  have hgraph : ¬ Stepping.direct.SameGraph Stepping.looping := by
    intro hg
    cases hg.entry
  obtain ⟨hpaths, -, -, hconditions⟩ :=
    callers_see_contracts h (hf Stepping.direct) (hf Stepping.looping) ⟨rfl, rfl, rfl⟩
  exact ⟨by cbv, by cbv, hgraph, by cbv, hpaths, hconditions⟩

end Pathwise
