import Pathwise.Proofs.WellTyped

/-!
# Pathwise.Proofs.Havoc

The variables that stand for the results of calls on a path.

Folding a path puts a new variable in the place of each target of a call. `Program.introduced`
lists them for a whole path. They are told apart by the numbers in their names: the fold counts
them, and what it has introduced so far has the numbers up to the count
(`Program.exists_lt_of_introduced`). So no name is introduced twice (`Program.nodup_introduced`).
From the variables of the program they are told apart only by the mark in their names, which
programs are not kept from using (`Picking.program`).

The list follows the fold, from the last statement of a path to the first, and it says what has
been introduced even where the fold fails further up. Whether a formula still has one of these
variables is another question: a later substitution may remove it, and a formula that does not
mention the target never had it.

The variables that must not be met are those that occur anywhere around the path
(`Program.occurring`): in what is known and what is to be shown, in its statements, and in the
contracts that calls bring in.
-/

namespace Pathwise

/-! ## Introduced variables

The names of all introduced variables and of their lengths are different. The argument is the one
for a single call, with the count of the fold in the place of the position in the list. -/

/-- The variables that folding introduces for an action, where `k` have been introduced before. -/
def Action.introduces (k : Nat) : Action → List Variable
  | call targets _ _ => Variable.freshAll k targets
  | _ => []

/-- What an action introduces has the next numbers. -/
theorem Action.exists_of_introduces {a : Action} {k : Nat} {v : Variable}
    (hv : v ∈ a.introduces k) :
    ∃ t : Variable, ∃ j, k ≤ j ∧ j < k + (a.introduces k).length ∧ v = t.fresh (j + 1) := by
  cases a with
  | call targets id args =>
      obtain ⟨t, -, j, hkj, hj, rfl⟩ := Variable.mem_freshAll hv
      refine ⟨t, j, hkj, ?_, rfl⟩
      rwa [introduces, Variable.length_freshAll]
  | _ => cases hv

/-- An action introduces variables that do not overlap. -/
theorem Action.pairwise_introduces (a : Action) (k : Nat) :
    (a.introduces k).Pairwise Variable.Apart := by
  cases a with
  | call targets id args => exact Variable.pairwise_freshAll k targets
  | _ => exact .nil

namespace Program

/-- The variables that folding a list of statements introduces. The last statement is folded
first, and folding may fail before it gets to the first. -/
def introduced (p : Program) (f : Function) (r : Running) : List Statement → List Variable
  | [] => []
  | s :: ss =>
    match p.foldStatements f ss r with
    | .ok r' => s.action.introduces r'.fresh ++ p.introduced f r ss
    | .error _ => p.introduced f r ss

variable {p : Program} {f : Function} {r r' : Running} {statements : List Statement} {v : Variable}

theorem introduced_cons_ok (h : p.foldStatements f statements r = .ok r') (s : Statement) :
    p.introduced f r (s :: statements) =
      s.action.introduces r'.fresh ++ p.introduced f r statements := by
  rw [introduced, h]

/-- What has been introduced stays introduced, as statements are added in front. -/
theorem introduced_subset_append (before : List Statement) :
    p.introduced f r statements ⊆ p.introduced f r (before ++ statements) := by
  induction before with
  | nil => exact List.Subset.refl _
  | cons s before ih =>
      intro v hv
      rw [List.cons_append, introduced]
      split
      · exact List.mem_append_right _ (ih hv)
      · exact ih hv

/-- The fold counts the variables that it introduces. -/
theorem fresh_foldStatement {s : Statement} (h : p.foldStatement f s r = .ok r') :
    r'.fresh = r.fresh + (s.action.introduces r.fresh).length := by
  unfold foldStatement at h
  cases hs : s.action with
  | assign v e =>
      rw [hs] at h
      obtain ⟨σ, -, h⟩ := bind_eq_ok_iff.1 h
      cases h
      rfl
  | store v i e =>
      rw [hs] at h
      dsimp only at h
      split at h
      · split at h
        · cases h
        · cases h
          rfl
      · cases h
  | call targets id args =>
      rw [hs] at h
      obtain ⟨g, post, -, -, rfl⟩ := eq_of_foldCall h
      rw [Action.introduces, Variable.length_freshAll]
  | assert c =>
      rw [hs] at h
      cases h
      rfl
  | assume c =>
      rw [hs] at h
      cases h
      rfl

/-- Every introduced variable is a fresh one. -/
theorem exists_of_introduced (hv : v ∈ p.introduced f r statements) :
    ∃ t : Variable, ∃ k, v = t.fresh k := by
  induction statements with
  | nil => cases hv
  | cons s rest ih =>
      rw [introduced] at hv
      split at hv
      · rcases List.mem_append.1 hv with hv | hv
        · obtain ⟨t, j, -, -, rfl⟩ := Action.exists_of_introduces hv
          exact ⟨t, j + 1, rfl⟩
        · exact ih hv
      · exact ih hv

/-- What has been introduced so far has the numbers up to the count. Statements are folded from
the last to the first, and so numbers go up towards the start of the path. -/
theorem exists_lt_of_introduced (h : p.foldStatements f statements r = .ok r')
    (hv : v ∈ p.introduced f r statements) :
    ∃ t : Variable, ∃ j, j < r'.fresh ∧ v = t.fresh (j + 1) := by
  induction statements generalizing r' with
  | nil => cases hv
  | cons s rest ih =>
      obtain ⟨r₁, hr₁, h⟩ := bind_eq_ok_iff.1 h
      have hcount := fresh_foldStatement h
      rw [introduced_cons_ok hr₁] at hv
      rcases List.mem_append.1 hv with hv | hv
      · obtain ⟨t, j, -, hj, rfl⟩ := Action.exists_of_introduces hv
        exact ⟨t, j, by omega, rfl⟩
      · obtain ⟨t, j, hj, rfl⟩ := ih hr₁ hv
        exact ⟨t, j, by omega, rfl⟩

/-- No two of the variables or their lengths share a name. -/
theorem pairwise_introduced (p : Program) (f : Function) (r : Running)
    (statements : List Statement) :
    (p.introduced f r statements).Pairwise Variable.Apart := by
  induction statements with
  | nil => exact .nil
  | cons s rest ih =>
      rw [introduced]
      split
      · next r₁ hr₁ =>
          refine List.pairwise_append.2 ⟨s.action.pairwise_introduces _, ih, ?_⟩
          intro v hv u hu w hw w' hw' hname
          -- the numbers for this statement start where those for the rest end
          obtain ⟨t, j, hj, -, rfl⟩ := Action.exists_of_introduces hv
          obtain ⟨t', j', hj', rfl⟩ := exists_lt_of_introduced hr₁ hu
          obtain ⟨-, hnumber, -⟩ := Variable.eq_of_mem_withLength_fresh hw hw' hname
          omega
      · exact ih

/-- No name is introduced twice, neither for a variable nor for a length. Nothing has to be
assumed about the names of the program. -/
theorem nodup_introduced (p : Program) (f : Function) (r : Running) (statements : List Statement) :
    (((p.introduced f r statements).flatMap Variable.withLength).map Variable.name).Nodup := by
  rw [List.map_flatMap, List.nodup_flatMap]
  refine ⟨fun v hv => ?_, (pairwise_introduced p f r statements).imp fun {v u} happart => ?_⟩
  · obtain ⟨t, k, rfl⟩ := exists_of_introduced hv
    cases hl : (t.fresh k).length? with
    | none => simp [Variable.withLength, hl]
    | some l => simpa [Variable.withLength, hl] using Variable.name_ne_length_fresh hl
  · intro x hx hx'
    obtain ⟨w, hw, rfl⟩ := List.mem_map.1 hx
    obtain ⟨w', hw', hname⟩ := List.mem_map.1 hx'
    exact happart w hw w' hw' hname.symm

end Program

/-! ## Variables of the program

Whatever occurs around a path occurs in some function of the program, and in a program without
reserved names none of this can be a fresh variable. -/

/-- The variables of an action, bound ones and lengths included. -/
def Action.mentions (a : Action) : List Variable :=
  a.targets.flatMap Variable.withLength ++ a.exprs.flatMap Expr.mentions

/-- The variables of the contract of a function. -/
def Function.contractMentions (g : Function) : List Variable :=
  (g.parameters ++ g.results).flatMap Variable.withLength ++
    (g.precondition?.toList ++ g.postcondition?.toList).flatMap Expr.mentions

/-- The variables that occur in what is known at the start of a path, in its obligation, in its
statements, and in the contracts of the functions that it calls. -/
def Program.occurring (p : Program) (q : BasicPath) : List Variable :=
  q.known.mentions ++ q.obligation.mentions ++ q.statements.flatMap fun s =>
    s.action.mentions ++
      ((s.action.callee?.bind p.function?).toList).flatMap Function.contractMentions

theorem Function.mem_mentions_of_exprs {f : Function} {e : Expr} (he : e ∈ f.exprs) {v : Variable}
    (hv : v ∈ e.mentions) : v ∈ f.mentions :=
  List.mem_append_right _ (List.mem_flatMap.2 ⟨e, he, hv⟩)

theorem Expr.mentions_subset_of_arrayLength? {e n : Expr} (h : e.arrayLength? = some n) :
    n.mentions ⊆ e.mentions := by
  cases e with
  | var v =>
      obtain ⟨l, hl, rfl⟩ := Option.map_eq_some_iff.1 h
      rw [mentions_var, mentions_var]
      exact Variable.withLength_subset (by simp [hl])
  | update a i x m =>
      cases h
      exact mentions_subset_of_child (by simp [children])
  | _ => cases h

theorem Function.contractMentions_subset (g : Function) : g.contractMentions ⊆ g.mentions := by
  intro v hv
  rcases List.mem_append.1 hv with hv | hv
  · obtain ⟨u, hu, hv⟩ := List.mem_flatMap.1 hv
    exact List.mem_append_left _ (List.mem_flatMap.2 ⟨u, List.mem_append_left _ hu, hv⟩)
  · obtain ⟨c, hc, hv⟩ := List.mem_flatMap.1 hv
    rw [List.mem_append, Option.mem_toList, Option.mem_toList] at hc
    rcases hc with hc | hc
    · exact mem_mentions_of_exprs (mem_exprs_of_precondition? hc) hv
    · exact mem_mentions_of_exprs (mem_exprs_of_postcondition? hc) hv

namespace Program

variable {p : Program} {f : Function} {q : BasicPath}

theorem mem_mentions_of_action {s : Statement} (hs : f.Contains s) {v : Variable}
    (hv : v ∈ s.action.mentions) : v ∈ f.mentions := by
  obtain ⟨i, b, hb, hmem⟩ := hs
  rcases List.mem_append.1 hv with hv | hv
  · obtain ⟨t, ht, hv⟩ := List.mem_flatMap.1 hv
    exact List.mem_append_left _ (List.mem_flatMap.2
      ⟨t, List.mem_append_right _ (Function.mem_targets_of_action hb hmem ht), hv⟩)
  · obtain ⟨e, he, hv⟩ := List.mem_flatMap.1 hv
    exact Function.mem_mentions_of_exprs (Function.mem_exprs_of_action hb hmem he) hv

/-- An obligation mentions variables of the function, and those of a callee whose precondition it
is. -/
theorem IsBasicPath.mentions_obligation (hq : p.IsBasicPath f q) (hf : f ∈ p.functions)
    {v : Variable} (hv : v ∈ q.obligation.mentions) : ∃ g ∈ p.functions, v ∈ g.mentions := by
  cases hq with
  | exit _ _ hb hk =>
      exact ⟨f, hf, Function.mem_mentions_of_exprs
        (Function.mem_exprs_of_annotation hb (by rw [hk]; rfl)) hv⟩
  | head _ _ hb hk =>
      exact ⟨f, hf, Function.mem_mentions_of_exprs
        (Function.mem_exprs_of_annotation hb (by rw [hk]; rfl)) hv⟩
  | @inside _ _ _ b front back a obligation kind hw hs hd =>
      obtain ⟨i, hb⟩ := hw.exists_block
      have hexprs : ∀ e ∈ a.action.exprs, e ∈ f.exprs := fun e he =>
        Function.mem_exprs_of_action hb (by simp [hs]) he
      cases hd with
      | assertion ha =>
          exact ⟨f, hf, Function.mem_mentions_of_exprs (hexprs _ (by simp [ha, Action.exprs])) hv⟩
      | @precondition _ _ args g condition ha hg hc _ =>
          rcases Expr.mem_mentions_substUnder hv with hv | ⟨_, _, r, hr, hv⟩
          · exact ⟨g, List.mem_of_getElem? hg,
              Function.mem_mentions_of_exprs (Function.mem_exprs_of_precondition? hc) hv⟩
          · -- a replacement is an argument or the length of one
            obtain ⟨pair, hpair, hr⟩ := exists_of_replacement hr
            have harg : pair.2 ∈ f.exprs := hexprs _ (by
              rw [ha]
              exact (List.of_mem_zip hpair).2)
            refine ⟨f, hf, Function.mem_mentions_of_exprs harg ?_⟩
            rcases Variable.replaces_eq_some hr with ⟨-, rfl⟩ | ⟨l, -, -, hlength⟩
            · exact hv
            · exact Expr.mentions_subset_of_arrayLength? hlength hv

/-- The variables around a path are variables of the program's functions. -/
theorem exists_mentions_of_occurring (hq : p.IsBasicPath f q) (hf : f ∈ p.functions) {v : Variable}
    (hv : v ∈ p.occurring q) : ∃ g ∈ p.functions, v ∈ g.mentions := by
  rcases List.mem_append.1 hv with hv | hv
  · rcases List.mem_append.1 hv with hv | hv
    · exact ⟨f, hf, Function.mem_mentions_of_exprs hq.known_mem hv⟩
    · exact hq.mentions_obligation hf hv
  · obtain ⟨s, hs, hv⟩ := List.mem_flatMap.1 hv
    rcases List.mem_append.1 hv with hv | hv
    · exact ⟨f, hf, mem_mentions_of_action (hq.contains s hs) hv⟩
    · obtain ⟨g, hg, hv⟩ := List.mem_flatMap.1 hv
      rw [Option.mem_toList] at hg
      obtain ⟨id, -, hg⟩ := Option.bind_eq_some_iff.1 hg
      exact ⟨g, List.mem_of_getElem? hg, g.contractMentions_subset hv⟩

end Program

/-- Fresh variables on a path that a validated program gives. First, these are the variables that
folding puts into the formula at each call that it gets to, for the results and for the targets.
Second, no two of them or of their lengths share a name. Third, none shares a name with a variable
of what the path starts from, of its obligation, of its statements or of the contracts of its
callees, provided that the functions of the program have no variables with reserved names. -/
theorem havoc_variables_fresh {p : Program} (hval : p.validate = .ok ()) {f : Function}
    (hf : f ∈ p.functions) {q : BasicPath} (hq : q ∈ (f.paths p).toList) :
    (∀ before s after, q.statements = before ++ s :: after →
      ∀ targets id args, s.action = .call targets id args →
      ∀ r r', p.foldStatements f after ⟨q.obligation, 0⟩ = .ok r → p.foldStatement f s r = .ok r' →
        Variable.freshAll r.fresh targets ⊆ p.introduced f ⟨q.obligation, 0⟩ q.statements ∧
        ∃ g post, p.function? id = some g ∧ g.postcondition? = some post ∧
          r'.formula = .implies
            (Expr.substUnder (replacement (g.parameters.zip args ++
              g.results.zip ((Variable.freshAll r.fresh targets).map Expr.var))) [] post)
            (Expr.substUnder (replacement
              (targets.zip ((Variable.freshAll r.fresh targets).map Expr.var))) [] r.formula)) ∧
    (((p.introduced f ⟨q.obligation, 0⟩ q.statements).flatMap Variable.withLength).map
      Variable.name).Nodup ∧
    ((∀ g ∈ p.functions, ∀ v ∈ g.mentions, ¬ Reserved v.name) →
      ∀ v ∈ (p.introduced f ⟨q.obligation, 0⟩ q.statements).flatMap Variable.withLength,
        ∀ w ∈ p.occurring q, v.name ≠ w.name) := by
  refine ⟨?_, Program.nodup_introduced p f _ _, ?_⟩
  · intro before s after hstatements targets id args hs r r' hr hr'
    constructor
    · rw [hstatements]
      refine List.Subset.trans ?_ (Program.introduced_subset_append before)
      -- the fold starts from the end, so what comes before the call adds to what is introduced
      rw [Program.introduced_cons_ok hr, hs]
      exact List.subset_append_left _ _
    · rw [Program.foldStatement, hs] at hr'
      obtain ⟨g, post, hg, hpost, rfl⟩ := Program.eq_of_foldCall hr'
      exact ⟨g, post, hg, hpost, rfl⟩
  · intro hreserved v hv w hw hname
    obtain ⟨m, hm, hfinds⟩ := Function.exists_finds hq
    have hbasic := Function.isBasicPath_of_finds (Function.checked_of_validate hval hf) hm hfinds
    obtain ⟨g, hg, hwg⟩ := Program.exists_mentions_of_occurring hbasic hf hw
    obtain ⟨u, hu, hvu⟩ := List.mem_flatMap.1 hv
    obtain ⟨t, k, rfl⟩ := Program.exists_of_introduced hu
    -- a fresh name is reserved, and nothing that occurs in the condition is
    exact hreserved g hg w hwg (hname ▸ Variable.reserved_of_mem_withLength_fresh hvu)

namespace Picking

open Sample (a b r y)

def post : Variable := .scalar "y$post1" .int

/-- The function `pick() -> r` says nothing about its result. -/
def pick : Function := ⟨"pick", 0, [], [r], 0, 1, [
  ⟨0, .precondition (.bool true) [], [], [2], []⟩,
  ⟨1, .postcondition (.bool true), [2], [], []⟩,
  ⟨2, .basic, [0], [1], [⟨0, .assign r (.int 0)⟩]⟩]⟩

/-- The function `fetch() -> a, r`, with an array among the results. -/
def fetch : Function := ⟨"fetch", 1, [], [a, r], 0, 1, [
  ⟨0, .precondition (.bool true) [], [], [2], []⟩,
  ⟨1, .postcondition (.binary .le (.int 0) (.var r)), [2], [], []⟩,
  ⟨2, .basic, [0], [1], [⟨1, .assign r (.int 0)⟩]⟩]⟩

/-- Two calls, `b, y := fetch(); y := pick()`. -/
def collect : Function := ⟨"collect", 0, [], [y], 0, 1, [
  ⟨0, .precondition (.bool true) [], [], [2], []⟩,
  ⟨1, .postcondition (.binary .eq (.var y) (.read (.var b) (.int 0))), [2], [], []⟩,
  ⟨2, .basic, [0], [1], [⟨2, .call [b, y] 1 []⟩, ⟨3, .call [y] 0 []⟩]⟩]⟩

/-- A caller of two functions, with two calls on its path. -/
def collecting : Program where
  types := ⟨[⟨[], [.int]⟩, ⟨[], [.array .int, .int]⟩], by decide⟩
  functions := [pick, fetch, collect]
  predicates := []

end Picking

/-- The second call is folded first. -/
theorem havoc_variables_fresh_collect :
    Picking.collecting.validate = .ok () ∧ Picking.collect ∈ Picking.collecting.functions ∧
      ∃ q ∈ (Picking.collect.paths Picking.collecting).toList,
        ((Picking.collecting.introduced Picking.collect ⟨q.obligation, 0⟩ q.statements).flatMap
          Variable.withLength).map Variable.name =
            ["b$post2", "b$post2$length", "y$post3", "y$post1"] ∧
        (((Picking.collecting.introduced Picking.collect ⟨q.obligation, 0⟩ q.statements).flatMap
          Variable.withLength).map Variable.name).Nodup ∧
        ∀ v ∈ (Picking.collecting.introduced Picking.collect ⟨q.obligation, 0⟩ q.statements).flatMap
          Variable.withLength, ∀ w ∈ Picking.collecting.occurring q, v.name ≠ w.name := by
  have hval : Picking.collecting.validate = .ok () := by cbv
  have hf : Picking.collect ∈ Picking.collecting.functions := by simp [Picking.collecting]
  have hpath : ∃ q ∈ (Picking.collect.paths Picking.collecting).toList,
      ((Picking.collecting.introduced Picking.collect ⟨q.obligation, 0⟩ q.statements).flatMap
        Variable.withLength).map Variable.name =
          ["b$post2", "b$post2$length", "y$post3", "y$post1"] :=
    ⟨_, by cbv; exact .head _, by rfl⟩
  obtain ⟨q, hq, hnames⟩ := hpath
  have hreserved : ∀ g ∈ Picking.collecting.functions, ∀ v ∈ g.mentions, ¬ Reserved v.name := by
    decide +kernel
  obtain ⟨-, hnodup, happart⟩ := havoc_variables_fresh hval hf hq
  exact ⟨hval, hf, q, hq, hnames, hnodup, happart hreserved⟩

namespace Picking

open Sample (y)

/-- The function `echo(y$post1) -> y` calls `pick` for its result, and promises that it is the
argument. -/
def echo : Function := ⟨"echo", 1, [post], [y], 0, 1, [
  ⟨0, .precondition (.bool true) [], [], [2], []⟩,
  ⟨1, .postcondition (.binary .eq (.var y) (.var post)), [2], [], []⟩,
  ⟨2, .basic, [0], [1], [⟨1, .call [y] 0 []⟩]⟩]⟩

/-- A caller with a parameter that has the name of a fresh variable. -/
def program : Program where
  types := ⟨[⟨[], [.int]⟩, ⟨[.int], [.int]⟩], by decide⟩
  functions := [pick, echo]
  predicates := []

end Picking

/-- A parameter may have the name of the variable that folding introduces for the result of a call.
The condition then compares the parameter with itself, and holds whatever the call returns. -/
theorem havoc_variable_not_fresh :
    Picking.program.validate = .ok () ∧ Picking.echo ∈ Picking.program.functions ∧
      ∃ q ∈ (Picking.echo.paths Picking.program).toList,
        Picking.post ∈ Picking.program.introduced Picking.echo ⟨q.obligation, 0⟩ q.statements ∧
        Picking.post ∈ Picking.echo.parameters ∧ Picking.post ∈ q.obligation.mentions ∧
        Picking.program.condition Picking.echo q = .ok (.implies (.bool true)
          (.implies (.bool true) (.binary .eq (.var Picking.post) (.var Picking.post)))) := by
  refine ⟨by cbv, by simp [Picking.program], _, by cbv; exact .head _, ?_, ?_, ?_, ?_⟩
  · decide +kernel
  · decide +kernel
  · decide +kernel
  · rfl

end Pathwise
