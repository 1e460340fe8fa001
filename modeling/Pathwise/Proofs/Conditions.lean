import Pathwise.Proofs.BasicPaths
import Pathwise.Proofs.Wlp

/-!
# Pathwise.Proofs.Conditions

The verification condition of a path says exactly that the path is right.

In a state, the condition is true for all values of its fresh variables if and only if every run
of the path from there passes the assertions on it and ends in a state where the obligation is
true (`Program.condition_ok`). This needs arrays that do not share their lengths: a length that a
predicate is given along with an array is not part of the formula, so the substitution for another
array of the same length misses it (`Lengths.copy`).

Both directions are of use. From right to left nothing is demanded beyond what the path needs, so
a condition that is refuted comes with a state from which a run goes wrong. From left to right a
valid condition excludes such states, which is what the soundness of the verifier rests on.

The result is put together from two sides. `IsBasicPath` says where a path comes from, and so that
its statements, its start and its obligation are in the text of the function. The fold over
statements of the text gives weakest preconditions.
-/

namespace Pathwise

variable {M : Meaning}

/-! ## The parts of a basic path

What the fold needs to know of a path: its statements stand in blocks of the function, and what is
known and what is to be shown are formulas of the function. -/

def BasicPath.statements (q : BasicPath) : List Statement := q.segments.flatMap Segment.statements

/-- The statement is in the text of the function. -/
def Function.Contains (f : Function) (a : Statement) : Prop :=
  ∃ i b, f.block? i = some b ∧ a ∈ b.statements

namespace Function

variable {p : Program} {f : Function} {start : PathStart} {known : Expr}
  {segments : List Segment} {b : Block}

theorem Walk.exists_block (hw : f.Walk start known segments b) : ∃ i, f.block? i = some b := by
  cases hw with
  | entry hb _ => exact ⟨_, hb⟩
  | head _ hb _ => exact ⟨_, hb⟩
  | step _ _ hb _ => exact ⟨_, hb⟩

theorem Walk.exists_annotated (hw : f.Walk start known segments b) :
    ∃ i c, f.block? i = some c ∧ c.kind.annotation? = some known := by
  induction hw with
  | entry hb hk => exact ⟨_, _, hb, by rw [hk]; rfl⟩
  | head _ hb hk => exact ⟨_, _, hb, by rw [hk]; rfl⟩
  | step _ _ _ _ ih => exact ih

theorem contains_of_segments (hb : ∃ i, f.block? i = some b) {a : Statement}
    (ha : a ∈ b.segments.flatMap Segment.statements) : f.Contains a := by
  obtain ⟨i, hb⟩ := hb
  refine ⟨i, b, hb, ?_⟩
  unfold Block.segments at ha
  split at ha
  · cases ha
  · simpa using ha

theorem Walk.contains (hw : f.Walk start known segments b) {a : Statement}
    (ha : a ∈ segments.flatMap Segment.statements) : f.Contains a := by
  induction hw with
  | entry => cases ha
  | head => cases ha
  | step hw _ _ _ ih =>
      rw [List.flatMap_append, List.mem_append] at ha
      exact ha.elim ih (contains_of_segments hw.exists_block)

end Function

namespace Program.IsBasicPath

variable {p : Program} {f : Function} {q : BasicPath} (hq : p.IsBasicPath f q)

include hq

theorem exists_annotated : ∃ i b, f.block? i = some b ∧ b.kind.annotation? = some q.known := by
  cases hq with
  | exit hw => exact hw.exists_annotated
  | head hw => exact hw.exists_annotated
  | inside hw => exact hw.exists_annotated

theorem known_mem : q.known ∈ f.exprs := by
  obtain ⟨i, b, hb, hk⟩ := hq.exists_annotated
  exact Function.mem_exprs_of_annotation hb hk

theorem contains : ∀ a ∈ q.statements, f.Contains a := by
  intro a ha
  unfold BasicPath.statements at ha
  cases hq with
  | exit hw =>
      rw [List.flatMap_append, List.mem_append] at ha
      exact ha.elim hw.contains (Function.contains_of_segments hw.exists_block)
  | head hw =>
      rw [List.flatMap_append, List.mem_append] at ha
      exact ha.elim hw.contains (Function.contains_of_segments hw.exists_block)
  | inside hw hs =>
      rw [List.flatMap_append, List.mem_append] at ha
      refine ha.elim hw.contains fun ha => ?_
      obtain ⟨i, hb⟩ := hw.exists_block
      refine ⟨i, _, hb, ?_⟩
      rw [hs]
      exact List.mem_append_left _ (by simpa using ha)

/-- The obligation of a path is a formula of the function without fresh variables. That of a call
is a contract with arguments in it, which are expressions of the text. -/
theorem says_obligation (hv : p.validate = .ok ()) (hh : p.Hygienic) (ho : p.OwnLengths)
    (hf : f ∈ p.functions) : f.Says p 0 q.obligation := by
  cases hq with
  | exit _ _ hc hk =>
      exact Function.says_of_mem hf (Function.mem_exprs_of_annotation hc (by rw [hk]; rfl)) 0
  | head _ _ hc hk =>
      exact Function.says_of_mem hf (Function.mem_exprs_of_annotation hc (by rw [hk]; rfl)) 0
  | @inside _ _ _ b front back a obligation kind hw hs hd =>
      obtain ⟨i, hb⟩ := hw.exists_block
      have ha : a ∈ b.statements := by simp [hs]
      cases hd with
      | assertion ha' =>
          refine Function.says_of_mem hf (Function.mem_exprs_of_action hb ha ?_) 0
          simp [ha', Action.exprs]
      | precondition ha' hg hc _ =>
          obtain ⟨g, hg', hs⟩ := Function.callSite_of_action hh.kinds hf
            (Function.checked_of_validate hv hf) hb ha ha'
          cases hg.symm.trans hg'
          exact hs.says_precondition hh ho hf hc 0

end Program.IsBasicPath

/-! ## Conditions

The condition is the implication from what is known at the start to the formula of the path.
Neither end has fresh variables, so there being assured and being true are the same. -/

/-- The condition of a basic path can be computed, and in every state it says that the path is
right from there. -/
theorem Program.condition_ok {p : Program} {f : Function} {q : BasicPath}
    (hv : p.validate = .ok ()) (hh : p.Hygienic) (ho : p.OwnLengths) (hf : f ∈ p.functions)
    (hq : p.IsBasicPath f q.merged) :
    ∃ vc, p.condition f q = .ok vc ∧ ∀ s : State M,
      vc.Assured M s ↔
        (q.known.Holds M s → Ensures M p q.statements s fun s' => q.obligation.Holds M s') := by
  obtain ⟨r, hr, -, hmeaning⟩ := foldStatements_ok (M := M) hv hh ho hf hq.contains
    (hq.says_obligation hv hh ho hf)
  have hknown : f.Says p 0 q.known := Function.says_of_mem hf hq.known_mem 0
  refine ⟨.implies q.known r.formula, bind_eq_ok_iff.2 ⟨r, hr, rfl⟩, fun s => ?_⟩
  -- what is known has no fresh variables, so it may be taken out of the quantifier over their
  -- values
  rw [hknown.assured_implies hh hf]
  refine imp_congr_right fun _ => (hmeaning s).trans ?_
  refine forall₂_congr fun o _ => exists_congr fun s' => and_congr_right fun _ => ?_
  exact (hq.says_obligation hv hh ho hf).assured_iff hh hf s'

/-- The condition of a path is true in a state for all values of the fresh variables exactly
if, when the state is as known at the start of the path, every run of the path passes all
assertions and ends in a state where the obligation is true. -/
theorem condition_exact {p : Program} {f : Function} {paths : List BasicPath} {q : BasicPath}
    (hv : p.validate = .ok ()) (hh : p.Hygienic) (ho : p.OwnLengths) (hf : f ∈ p.functions)
    (hp : (f.paths p).collect = .ok paths) (hq : q ∈ paths) (M : Meaning) (s : State M) :
    ∃ vc, p.condition f q = .ok vc ∧
      (vc.Assured M s ↔
        (q.known.Holds M s → Ensures M p q.statements s fun s' => q.obligation.Holds M s')) := by
  obtain ⟨hok, rfl⟩ := Trace.collect_eq_ok hp
  have hbasic := Function.isBasicPath_of_mem (Function.checked_of_validate hv hf) hok hq
  obtain ⟨vc, hvc, hmeaning⟩ := Program.condition_ok (M := M) hv hh ho hf hbasic
  exact ⟨vc, hvc, hmeaning s⟩

/-- On the path around the loop of `count` the variable is both argument and target of the
call. -/
theorem condition_exact_count :
    ∃ paths q, Counting.program.validate = .ok () ∧ Counting.program.Hygienic ∧
      Counting.program.OwnLengths ∧ Counting.count ∈ Counting.program.functions ∧
      (Counting.count.paths Counting.program).collect = .ok paths ∧ q ∈ paths ∧
      q.kind = .maintained 2 ∧
      ∀ (M : Meaning) (s : State M), ∃ vc, Counting.program.condition Counting.count q = .ok vc ∧
        (vc.Assured M s ↔ (q.known.Holds M s →
          Ensures M Counting.program q.statements s fun s' => q.obligation.Holds M s')) := by
  have hv : Counting.program.validate = .ok () := by cbv
  have hh : Counting.program.Hygienic := by decide +kernel
  have ho : Counting.program.OwnLengths := by decide +kernel
  have hf : Counting.count ∈ Counting.program.functions := by simp [Counting.program]
  obtain ⟨paths, hp, q, hq, hk⟩ : ∃ paths,
      (Counting.count.paths Counting.program).collect = .ok paths ∧
        ∃ q ∈ paths, q.kind = .maintained 2 :=
    ⟨_, by cbv, _, .tail _ (.tail _ (.head _)), rfl⟩
  exact ⟨paths, q, hv, hh, ho, hf, hp, hq, hk, fun M s => condition_exact hv hh ho hf hp hq M s⟩

/-! ## Lengths that do not belong to one array

Two programs that validation accepts and for which conditions are wrong. In the first one two
arrays have the same length variable; in the second one the length of a parameter is itself a
parameter. Either way a predicate is given a length that no substitution changes. -/

namespace Lengths

def a : Variable := ⟨"a", .array .int, .array "n"⟩
def b : Variable := ⟨"b", .array .int, .array "n"⟩
def c : Variable := ⟨"c", .array .int, .array "m"⟩
def d : Variable := ⟨"d", .array .int, .array "k"⟩

open Sample (n)

/-- The length of the array is not negative. -/
def regular : Predicate := ⟨"regular", 3, [⟨"xs", .array .int, .array "l"⟩],
  .binary .ge (.var (.scalar "l" .int)) (.int 0)⟩

/-- The body `b := d; a := c`, where `a` shares its length with `b`. -/
def copy : Function := ⟨"copy", 0, [c, d], [b], 0, 1, [
  ⟨0, .precondition (.app "regular" [.var d]) [], [], [2], []⟩,
  ⟨1, .postcondition (.app "regular" [.var b]), [2], [], []⟩,
  ⟨2, .basic, [0], [1], [⟨0, .assign b (.var d)⟩, ⟨1, .assign a (.var c)⟩]⟩]⟩

/-- Two arrays share their length. -/
def sharing : Program where
  types := .ofList [⟨[.array .int, .array .int], [.array .int]⟩, ⟨[.array .int, .int], []⟩,
    ⟨[.array .int], []⟩, .predicate [.array .int]]
  functions := [copy]
  predicates := [regular]

/-- The length of the array is a parameter of its own. -/
def resize : Function := ⟨"resize", 1, [a, n], [], 0, 1, [
  ⟨0, .precondition (.bool true) [], [], [2], []⟩,
  ⟨1, .postcondition (.app "regular" [.var a]), [2], [], []⟩,
  ⟨2, .basic, [0], [1], []⟩]⟩

/-- The body `resize(c, 5)`. -/
def caller : Function := ⟨"caller", 2, [c], [], 0, 1, [
  ⟨0, .precondition (.bool true) [], [], [2], []⟩,
  ⟨1, .postcondition (.app "regular" [.var c]), [2], [], []⟩,
  ⟨2, .basic, [0], [1], [⟨0, .call [] 0 [.var c, .int 5]⟩]⟩]⟩

/-- A parameter is the length of another one. -/
def passing : Program where
  types := sharing.types
  functions := [resize, caller]
  predicates := [regular]

/-- A predicate is true if no integer that it is given is negative. -/
def meaning : Meaning where
  Num := Unit
  zero := ()
  literal _ := ()
  negate _ := ()
  arith _ _ _ := ()
  compare _ _ _ := true
  byZero _ _ := 0
  function _ _ t := match t with
    | .int => .int 0
    | .float => .float ()
    | .bool => .bool true
    | .array elem => .array elem fun _ => match elem with
      | .int => (0 : Int)
      | .float => ()
      | .bool => true
  function_ty _ _ t := by cases t <;> rfl
  predicate _ ds := ds.all fun d => 0 ≤ d.asInt

/-- The state in which the length of `c` is negative and that of `d` zero. -/
def state : State meaning where
  read x t := if x = "m" ∧ t = .int then .int (-1) else meaning.function "" [] t
  typed x t := by
    split
    · next h => rw [h.2]; rfl
    · exact meaning.function_ty "" [] t

end Lengths

/-- The condition of some path is valid, and yet a run of the path from `s` goes wrong. -/
def Program.Misjudges (p : Program) (f : Function) (s : State M) : Prop :=
  ∃ paths q vc, (f.paths p).collect = .ok paths ∧ q ∈ paths ∧ p.condition f q = .ok vc ∧
    vc.Valid M ∧ q.known.Holds M s ∧
    ¬ Ensures M p q.statements s fun s' => q.obligation.Holds M s'

/-- Conditions are wrong where two arrays share a length, or where a length is a parameter
of its own. -/
theorem condition_misses_lengths :
    (Lengths.sharing.validate = .ok () ∧ Lengths.sharing.Hygienic ∧
      Lengths.sharing.Misjudges Lengths.copy Lengths.state) ∧
    Lengths.passing.validate = .ok () ∧ Lengths.passing.Hygienic ∧
      Lengths.passing.Misjudges Lengths.caller Lengths.state := by
  refine ⟨⟨by cbv, by decide +kernel, ?_⟩, by cbv, by decide +kernel, ?_⟩
  · -- the second assignment makes the length of `b` negative
    refine ⟨_, _, _, by cbv, .head _, by cbv, ?_, ?_, fun h => ?_⟩
    · exact fun s => Expr.holds_implies.2 id
    · rfl
    obtain ⟨s', hs, hh⟩ := h _ (.cons (.assign Lengths.b (.var Lengths.d) _)
      (.cons (.assign Lengths.a (.var Lengths.c) _) (.nil _)))
    cases hs
    cases hh
  · -- the callee speaks of the length five, and the caller takes it for the length of `c`
    refine ⟨_, _, _, by cbv, .head _, by cbv, ?_, ?_, fun h => ?_⟩
    · exact fun s => Expr.holds_implies.2 fun _ => Expr.holds_implies.2 id
    · rfl
    have hcall : Lengths.resize.Allows Lengths.meaning
        ([.var Lengths.c, .int 5].map (Expr.item Lengths.meaning Lengths.state)) [] :=
      ⟨.nil, _, Lengths.state, rfl, rfl⟩
    obtain ⟨s', hs, hh⟩ := h _ (.cons (.call [] rfl hcall) (.nil _))
    cases hs
    cases hh

end Pathwise
