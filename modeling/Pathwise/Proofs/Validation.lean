import Pathwise.Proofs.Typing

/-!
# Pathwise.Proofs.Validation

What validation guarantees.

`Function.Checked` holds the facts about the graph of a function that later proofs use: blocks are
where their labels say, edges lead to blocks, and entry and exit have the shape they should. The
lemmas on statements say which types their parts have.

There is an equivalence for each part of the validation of a function
(`Function.validateEdges_eq_ok_iff` and so on). They are needed in both directions: most proofs
start from a program that passes, and the ones about defects and about building programs have to
show that one does. The lemmas about whole programs go one way only, from `Program.validate` to
its parts.

Only what is used is kept. `Function.Checked` leaves out the signature of the function and the
reachability of its blocks, which the search for paths does not depend on.
-/

namespace Pathwise

/-- What validation makes sure of in a function, as far as the search and the fold rely on it.
Reachability of blocks is stated apart. -/
structure Function.Checked (p : Program) (f : Function) : Prop where
  label : ∀ {i b}, f.block? i = some b → b.id = i
  /-- An edge leads to a block, which records it. -/
  target : ∀ {i b j}, f.block? i = some b → j ∈ b.successors →
    ∃ c, f.block? j = some c ∧ i ∈ c.predecessors
  kind : ∀ {i b}, f.block? i = some b → p.validateKind f b = .ok ()
  statement : ∀ {i b s}, f.block? i = some b → s ∈ b.statements →
    p.validateStatement f s = .ok ()
  /-- The entry is a precondition block without statements and with one way out. -/
  entry : ∃ b c ranking j, f.block? f.entry = some b ∧ b.kind = .precondition c ranking ∧
    b.predecessors = [] ∧ b.successors = [j] ∧ b.statements = []
  /-- The exit is a postcondition block that ends the function. -/
  exit : ∃ b c, f.block? f.exit = some b ∧ b.kind = .postcondition c ∧ b.successors = [] ∧
    b.statements = []

/-! ## Blocks and graphs

From single blocks to whole functions, in the order of the checks. The facts that are read off a
validated function follow, in the namespace of `Function.Checked`. -/

/-- An expression is accepted at a place if it is checked with the type of the place. -/
theorem Program.expectType_eq_ok_iff {p : Program} {f : Function} {e : Expr} {t : Ty}
    {context : TypeContext} :
    p.expectType f e t context = .ok () ↔ p.check e = .ok t := by
  unfold Program.expectType
  cases p.check e with
  | error fault => simp
  | ok found => simp [require_eq_ok_iff]

/-- The expressions in the annotations of a block, each with the type that its place asks for. -/
def BlockKind.annotations : BlockKind → List (Expr × Ty)
  | .precondition condition ranking => (condition, .bool) :: ranking.map fun e => (e, .int)
  | .postcondition condition => [(condition, .bool)]
  | .basic => []
  | .loopHead invariant ranking => (invariant, .bool) :: ranking.map fun e => (e, .int)

namespace Function

variable {p : Program} {f : Function}

/-- Each edge is recorded at both of its ends. A block lists its successors and its predecessors,
and both lists are checked. -/
theorem validateEdges_eq_ok_iff {b : Block} :
    f.validateEdges b = .ok () ↔
      (∀ j ∈ b.successors, ∃ c, f.block? j = some c ∧ b.id ∈ c.predecessors) ∧
      ∀ j ∈ b.predecessors, ∃ c, f.block? j = some c ∧ b.id ∈ c.successors := by
  unfold validateEdges
  rw [seq_eq_ok_iff, forM_eq_ok_iff, forM_eq_ok_iff]
  simp only [bind_eq_ok_iff, getOr_eq_ok_iff, require_eq_ok_iff, decide_eq_true_eq]

/-- The entry and the exit are checked for their kinds and shapes. -/
theorem validateEnds_eq_ok_iff :
    f.validateEnds = .ok () ↔
      (∃ b c ranking j, f.block? f.entry = some b ∧ b.kind = .precondition c ranking ∧
        b.predecessors = [] ∧ b.successors = [j] ∧ b.statements = []) ∧
      ∃ b c, f.block? f.exit = some b ∧ b.kind = .postcondition c ∧ b.predecessors ≠ [] ∧
        b.successors = [] ∧ b.statements = [] := by
  unfold validateEnds
  constructor
  · intro h
    obtain ⟨b, hb, h⟩ := bind_eq_ok_iff.1 h
    dsimp only at h
    split at h
    · next c ranking hk =>
        obtain ⟨hshape, h⟩ := seq_eq_ok_iff.1 (seq_eq_ok_iff.1 h).2
        obtain ⟨d, hd, h⟩ := bind_eq_ok_iff.1 h
        split at h
        · next c' hk' =>
            obtain ⟨hshape', hpred⟩ := seq_eq_ok_iff.1 (seq_eq_ok_iff.1 h).2
            -- both ends have the kinds they should; what is left are the shapes
            rw [getOr_eq_ok_iff] at hb hd
            rw [require_eq_ok_iff] at hshape hshape' hpred
            simp only [Bool.and_eq_true, List.isEmpty_iff, decide_eq_true_eq,
              List.length_eq_one_iff] at hshape hshape'
            obtain ⟨⟨hnone, j, hone⟩, hstat⟩ := hshape
            exact ⟨⟨b, c, ranking, j, hb, hk, hnone, hone, hstat⟩, d, c', hd, hk',
              by simpa using hpred, hshape'.1, hshape'.2⟩
        · cases (seq_eq_ok_iff.1 h).1
    · cases (seq_eq_ok_iff.1 h).1
  · rintro ⟨⟨b, c, ranking, j, hb, hk, hnone, hone, hstat⟩, d, c', hd, hk', hpred, hsucc, hstat'⟩
    refine bind_eq_ok_iff.2 ⟨b, getOr_eq_ok_iff.2 hb, ?_⟩
    simp only [hk]
    refine seq_eq_ok_iff.2 ⟨rfl, seq_eq_ok_iff.2 ⟨?_, ?_⟩⟩
    · simp [require_eq_ok_iff, hnone, hone, hstat]
    · refine bind_eq_ok_iff.2 ⟨d, getOr_eq_ok_iff.2 hd, ?_⟩
      simp only [hk']
      refine seq_eq_ok_iff.2 ⟨rfl, seq_eq_ok_iff.2 ⟨?_, ?_⟩⟩
      · simp [require_eq_ok_iff, hsucc, hstat']
      · simpa [require_eq_ok_iff] using hpred

/-- The search from the entry meets every block. Blocks are told by their positions here, not by
their labels. -/
theorem validateReachability_eq_ok_iff :
    f.validateReachability = .ok () ↔ ∀ i b, f.block? i = some b → i ∈ f.reachable := by
  unfold validateReachability
  dsimp only
  constructor
  · intro h i b hb
    split at h
    · cases h
    · next hnone =>
        have hmem : (b, i) ∈ f.blocks.zipIdx := List.mk_mem_zipIdx_iff_getElem?.2 hb
        simpa using List.find?_eq_none.1 hnone (b, i) hmem
  · intro h
    split
    · next b i hfound =>
        have hb : f.block? i = some b :=
          List.mk_mem_zipIdx_iff_getElem?.1 (List.mem_of_find?_eq_some hfound)
        simpa [h i b hb] using List.find?_some hfound
    · rfl

/-- Annotations have the types of their places, and contracts stand at the ends only. That the
ends have contracts is checked elsewhere. -/
theorem validateKind_eq_ok_iff {b : Block} :
    p.validateKind f b = .ok () ↔
      (∀ c ranking, b.kind = .precondition c ranking → b.id = f.entry) ∧
      (∀ c, b.kind = .postcondition c → b.id = f.exit) ∧
      ∀ a ∈ b.kind.annotations, p.check a.1 = .ok a.2 := by
  unfold Program.validateKind
  cases hk : b.kind with
  | precondition c ranking =>
      dsimp only
      rw [seq_eq_ok_iff, seq_eq_ok_iff, forM_eq_ok_iff, require_eq_ok_iff, decide_eq_true_eq]
      simp [BlockKind.annotations, Program.expectType_eq_ok_iff]
  | postcondition c =>
      dsimp only
      rw [seq_eq_ok_iff, require_eq_ok_iff, decide_eq_true_eq]
      simp [BlockKind.annotations, Program.expectType_eq_ok_iff]
  | basic => simp [BlockKind.annotations]
  | loopHead invariant ranking =>
      dsimp only
      rw [seq_eq_ok_iff, forM_eq_ok_iff]
      simp [BlockKind.annotations, Program.expectType_eq_ok_iff]

/-- A block is accepted if its label, its edges, its annotations and its statements are. -/
theorem validateBlock_eq_ok_iff {b : Block} {i : Nat} :
    p.validateBlock f b i = .ok () ↔
      b.id = i ∧ f.validateEdges b = .ok () ∧ p.validateKind f b = .ok () ∧
        ∀ s ∈ b.statements, p.validateStatement f s = .ok () := by
  unfold Program.validateBlock
  rw [seq_eq_ok_iff, seq_eq_ok_iff, seq_eq_ok_iff, forM_eq_ok_iff, require_eq_ok_iff,
    decide_eq_true_eq]

/-- A function is accepted if its signature, its blocks one by one, its ends and its reachability
are. -/
theorem validateFunction_eq_ok_iff :
    p.validateFunction f = .ok () ↔
      (∃ sig, p.types.get? f.sig = some sig ∧ sig.params = f.parameters.map Variable.ty ∧
        sig.returns = f.results.map Variable.ty) ∧
      (∀ i b, f.block? i = some b → p.validateBlock f b i = .ok ()) ∧
      f.validateEnds = .ok () ∧ f.validateReachability = .ok () := by
  have hblocks : (∀ q ∈ f.blocks.zipIdx, p.validateBlock f q.1 q.2 = .ok ()) ↔
      ∀ i b, f.block? i = some b → p.validateBlock f b i = .ok () := by
    constructor
    · intro h i b hb
      exact h (b, i) (List.mk_mem_zipIdx_iff_getElem?.2 hb)
    · intro h q hq
      exact h q.2 q.1 (List.mk_mem_zipIdx_iff_getElem?.1 hq)
  unfold Program.validateFunction
  rw [← hblocks, bind_eq_ok_iff]
  simp only [seq_eq_ok_iff, forM_eq_ok_iff, getOr_eq_ok_iff, require_eq_ok_iff, Bool.and_eq_true,
    decide_eq_true_eq]
  constructor
  · rintro ⟨sig, hsig, htypes, hrest⟩
    exact ⟨⟨sig, hsig, htypes⟩, hrest⟩
  · rintro ⟨⟨sig, hsig, htypes⟩, hrest⟩
    exact ⟨sig, hsig, htypes, hrest⟩

/-- A function that is accepted is well formed. -/
theorem checked_of_validateFunction (h : p.validateFunction f = .ok ()) : f.Checked p := by
  obtain ⟨-, hblocks, hends, -⟩ := validateFunction_eq_ok_iff.1 h
  obtain ⟨hentry, d, c, hd, hk, -, hsucc, hstat⟩ := validateEnds_eq_ok_iff.1 hends
  have hblock : ∀ {i b}, f.block? i = some b → b.id = i ∧ f.validateEdges b = .ok () ∧
      p.validateKind f b = .ok () ∧ ∀ s ∈ b.statements, p.validateStatement f s = .ok () :=
    fun hb => validateBlock_eq_ok_iff.1 (hblocks _ _ hb)
  exact {
    label := fun hb => (hblock hb).1
    target := fun hb hj => by
      rw [← (hblock hb).1]
      exact (validateEdges_eq_ok_iff.1 (hblock hb).2.1).1 _ hj
    kind := fun hb => (hblock hb).2.2.1
    statement := fun hb hs => (hblock hb).2.2.2 _ hs
    entry := hentry
    exit := ⟨d, c, hd, hk, hsucc, hstat⟩ }

/-- The functions of a validated program are accepted one by one. -/
theorem validateFunction_of_validate (h : p.validate = .ok ()) (hf : f ∈ p.functions) :
    p.validateFunction f = .ok () := by
  unfold Program.validate at h
  dsimp only at h
  split at h
  · cases (seq_eq_ok_iff.1 h).1
  · have hall := (seq_eq_ok_iff.1 (seq_eq_ok_iff.1 h).2).2
    exact forM_eq_ok_iff.1 hall f hf

/-- The graphs of a validated program are well formed. -/
theorem checked_of_validate (h : p.validate = .ok ()) (hf : f ∈ p.functions) : f.Checked p :=
  checked_of_validateFunction (validateFunction_of_validate h hf)

theorem precondition?_eq_some {b : Block} (hb : f.block? f.entry = some b) {c : Expr}
    {ranking : List Expr} (hk : b.kind = .precondition c ranking) : f.precondition? = some c := by
  obtain ⟨id, kind, pred, succ, stats⟩ := b
  cases hk
  rw [precondition?, hb]

theorem postcondition?_eq_some {b : Block} (hb : f.block? f.exit = some b) {c : Expr}
    (hk : b.kind = .postcondition c) : f.postcondition? = some c := by
  obtain ⟨id, kind, pred, succ, stats⟩ := b
  cases hk
  rw [postcondition?, hb]

namespace Checked

variable (hc : f.Checked p)

include hc

theorem exists_precondition? : ∃ c, f.precondition? = some c := by
  obtain ⟨b, c, ranking, -, hb, hk, -⟩ := hc.entry
  exact ⟨c, precondition?_eq_some hb hk⟩

theorem exists_postcondition? : ∃ c, f.postcondition? = some c := by
  obtain ⟨b, c, hb, hk, -⟩ := hc.exit
  exact ⟨c, postcondition?_eq_some hb hk⟩

/-- The entry is the only block with a precondition. -/
theorem eq_entry {i : BlockId} {b : Block} (hb : f.block? i = some b) {c : Expr}
    {ranking : List Expr} (hk : b.kind = .precondition c ranking) : i = f.entry := by
  rw [← hc.label hb]
  exact (validateKind_eq_ok_iff.1 (hc.kind hb)).1 c ranking hk

/-- The exit is the only block with a postcondition. -/
theorem eq_exit {i : BlockId} {b : Block} (hb : f.block? i = some b) {c : Expr}
    (hk : b.kind = .postcondition c) : i = f.exit := by
  rw [← hc.label hb]
  exact (validateKind_eq_ok_iff.1 (hc.kind hb)).2.1 c hk

/-- No edge leads to the entry, because the entry records none. -/
theorem ne_entry {i j : BlockId} {b : Block} (hb : f.block? i = some b) (hj : j ∈ b.successors) :
    j ≠ f.entry := by
  rintro rfl
  obtain ⟨e, c, ranking, k, he, -, hpred, -⟩ := hc.entry
  obtain ⟨d, hd, hmem⟩ := hc.target hb hj
  rw [he] at hd
  rw [← Option.some.inj hd, hpred] at hmem
  cases hmem

end Checked

end Function

/-! ## Predicates

Names are distinct over all functions and predicates, so a predicate is found by its name whether
the first or the last one of the name is taken. Bodies are formulas of the program. -/

/-- If no name is found to be repeated, none is, neither within the list nor from before it. -/
theorem nodup_of_firstRepeated? {seen xs : List String} (h : firstRepeated? seen xs = none) :
    xs.Nodup ∧ ∀ x ∈ xs, x ∉ seen := by
  induction xs generalizing seen with
  | nil => exact ⟨.nil, List.forall_mem_nil _⟩
  | cons x xs ih =>
      rw [firstRepeated?] at h
      split at h
      · cases h
      · next hx =>
          obtain ⟨hnodup, hseen⟩ := ih h
          have hxs : x ∉ xs := fun hmem => hseen x hmem List.mem_cons_self
          exact ⟨List.nodup_cons.2 ⟨hxs, hnodup⟩, List.forall_mem_cons.2 ⟨hx, fun y hy hys =>
            hseen y hy (List.mem_cons_of_mem x hys)⟩⟩

theorem find?_of_nodup {l : List Predicate} (h : (l.map Predicate.name).Nodup) {q : Predicate}
    (hq : q ∈ l) : (l.find? fun r => r.name = q.name) = some q := by
  induction l with
  | nil => cases hq
  | cons r l ih =>
      obtain ⟨hr, hl⟩ := List.nodup_cons.1 h
      rcases List.mem_cons.1 hq with rfl | hq
      · exact List.find?_cons_of_pos (by simp)
      · have hne : r.name ≠ q.name := fun heq => hr (heq ▸ List.mem_map_of_mem hq)
        rw [List.find?_cons_of_neg (by simpa using hne), ih hl hq]

namespace Program

variable {p : Program}

/-- The predicates of a validated program have different names. -/
theorem nodup_predicates (h : p.validate = .ok ()) : (p.predicates.map Predicate.name).Nodup := by
  unfold validate at h
  dsimp only at h
  split at h
  · cases (seq_eq_ok_iff.1 h).1
  · next hnone => exact (List.nodup_append.1 (nodup_of_firstRepeated? hnone).1).2.1

theorem predicate?_of_mem (h : (p.predicates.map Predicate.name).Nodup) {q : Predicate}
    (hq : q ∈ p.predicates) : p.predicate? q.name = some q :=
  find?_of_nodup h hq

theorem validatePredicate_of_validate (h : p.validate = .ok ()) {q : Predicate}
    (hq : q ∈ p.predicates) : p.validatePredicate q = .ok () := by
  unfold validate at h
  dsimp only at h
  split at h
  · cases (seq_eq_ok_iff.1 h).1
  · exact forM_eq_ok_iff.1 (seq_eq_ok_iff.1 (seq_eq_ok_iff.1 h).2).1 q hq

theorem check_body (h : p.validate = .ok ()) {q : Predicate} (hq : q ∈ p.predicates) :
    p.check q.body = .ok .bool := by
  have hq := validatePredicate_of_validate h hq
  unfold validatePredicate at hq
  obtain ⟨sig, -, hq⟩ := bind_eq_ok_iff.1 hq
  have hq := (seq_eq_ok_iff.1 hq).2
  dsimp only at hq
  cases hfound : p.check q.body with
  | error fault =>
      rw [hfound] at hq
      cases (seq_eq_ok_iff.1 hq).1
  | ok found =>
      rw [hfound] at hq
      rw [of_decide_eq_true (require_eq_ok_iff.1 (seq_eq_ok_iff.1 hq).1)]

end Program

/-! ## Statements

What a statement that passes has for parts, one lemma per kind of statement. -/

namespace Program

variable {p : Program} {f : Function} {s : Statement}

theorem validate_assign (h : p.validateStatement f s = .ok ()) {v : Variable} {e : Expr}
    (hs : s.action = .assign v e) : p.check e = .ok v.ty := by
  rw [validateStatement, hs] at h
  exact expectType_eq_ok_iff.1 (seq_eq_ok_iff.1 h).2

/-- A store goes to an array, at an integer, and has the type of the elements. -/
theorem validate_store (h : p.validateStatement f s = .ok ()) {v : Variable} {i e : Expr}
    (hs : s.action = .store v i e) :
    v.isArray ∧ ∃ elem, v.ty.element? = some elem ∧ p.check i = .ok .int ∧
      p.check e = .ok elem := by
  rw [validateStatement, hs] at h
  obtain ⟨elem, helem, h⟩ := bind_eq_ok_iff.1 h
  obtain ⟨hi, he⟩ := seq_eq_ok_iff.1 h
  rw [getOr_eq_ok_iff] at helem
  split at helem
  · next ha =>
      exact ⟨ha, elem, helem, expectType_eq_ok_iff.1 hi, expectType_eq_ok_iff.1 he⟩
  · cases helem

/-- A call fits the interface of its callee: one argument per parameter, one target per result,
and the types agree. -/
theorem validate_call (h : p.validateStatement f s = .ok ()) {targets : List Variable}
    {id : FunctionId} {args : List Expr} (hs : s.action = .call targets id args) :
    ∃ callee, p.function? id = some callee ∧ callee.parameters.length = args.length ∧
      callee.results.length = targets.length ∧
      (∀ q ∈ callee.parameters.zip args, p.check q.2 = .ok q.1.ty) ∧
      ∀ q ∈ callee.results.zip targets, q.1.ty = q.2.ty := by
  rw [validateStatement, hs] at h
  obtain ⟨callee, hcallee, h⟩ := bind_eq_ok_iff.1 h
  obtain ⟨hparams, h⟩ := seq_eq_ok_iff.1 h
  obtain ⟨hresults, h⟩ := seq_eq_ok_iff.1 h
  obtain ⟨hargs, htargets⟩ := seq_eq_ok_iff.1 h
  refine ⟨callee, getOr_eq_ok_iff.1 hcallee, of_decide_eq_true (require_eq_ok_iff.1 hparams),
    of_decide_eq_true (require_eq_ok_iff.1 hresults), fun q hq => ?_, fun q hq => ?_⟩
  · exact expectType_eq_ok_iff.1 (forM_eq_ok_iff.1 hargs q hq)
  · have hq := forM_eq_ok_iff.1 htargets q hq
    exact of_decide_eq_true (require_eq_ok_iff.1 (seq_eq_ok_iff.1 hq).2)

theorem validate_assert (h : p.validateStatement f s = .ok ()) {c : Expr}
    (hs : s.action = .assert c) : p.check c = .ok .bool := by
  rw [validateStatement, hs] at h
  exact expectType_eq_ok_iff.1 h

theorem validate_assume (h : p.validateStatement f s = .ok ()) {c : Expr}
    (hs : s.action = .assume c) : p.check c = .ok .bool := by
  rw [validateStatement, hs] at h
  exact expectType_eq_ok_iff.1 h

end Program

end Pathwise
