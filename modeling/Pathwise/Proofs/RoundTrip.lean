import Pathwise.Proofs.Hygiene
import Pathwise.Proofs.Interning
import Pathwise.Proofs.JsonRecords
import Pathwise.Proofs.Values

/-!
# Pathwise.Proofs.RoundTrip

Programs survive being written and read.

Every part of a program has a JSON form that its reader undoes, which is shown part by part, from
types up to whole programs (`Program.writes`). The conditions on the way are those of the format:
float literals are left out, since their text is rounded, and ids and ordinals must fit into 64
bits. Signatures are interned again when a program is read; since no table holds a signature
twice, this gives the same numbers (`SignatureTable.ofList_signatures`).

For each type there is one theorem `writes`, and its proof names the fields in the order in which
they are written, with the theorem for each of them. The shapes of records and variants are dealt
with in one place for all types, so a field that is added to a record shows up in one line here.

The two conditions are stated for a program as a whole, about the list of its expressions
(`Program.contents`) and the list of its numbers (`Program.numbers`). Each has a counterpart for
the parts, and a proof begins by distributing the conditions over the fields.

A text may not be nested deeper than 128 levels. This is the only place where the size of a
program matters: the reader itself has enough fuel for any text.
-/

namespace Pathwise

open Json

/-! ## Types and variables

Most of them are names without data, for which reading is a matter of computation. -/

theorem ScalarTy.writes (s : ScalarTy) : Writes ScalarTy.ofJson? s.toJson s := by
  cases s <;> exact ⟨.str _, fun _ => rfl⟩

theorem Ty.writes (t : Ty) : Writes Ty.ofJson? t.toJson t := by
  cases t with
  | array elem =>
      refine .variant "Array" elem.writes.exact fun d hd => ?_
      rw [Json.variant, ofJson?, elem.writes.read hd]
      rfl
  | _ => exact ⟨.str _, fun {d} _ => by cases d <;> rfl⟩

theorem Signature.writes (s : Signature) : Writes Signature.ofJson? s.toJson s := by
  have hparams := Writes.list fun t (_ : t ∈ s.params) => t.writes
  have hreturns := Writes.list fun t (_ : t ∈ s.returns) => t.writes
  refine .record ["params", "returns"] [_, _] (by decide) rfl ⟨hparams.exact, hreturns.exact⟩ ?_
  rintro d j ⟨hp, hr⟩ hf
  simp [ofJson?, hf, hparams.read hp, hreturns.read hr]

theorem VariableKind.writes (k : VariableKind) : Writes VariableKind.ofJson? k.toJson k := by
  cases k with
  | array length =>
      refine .recordVariant "Array" ["length"] [_] (by decide) rfl (Exact.str length)
        fun d j _ hf => ?_
      simp [Json.variant, ofJson?, hf, Json.string]
  | _ => exact ⟨.str _, fun {d} _ => by cases d <;> rfl⟩

theorem Variable.writes (v : Variable) : Writes Variable.ofJson? v.toJson v := by
  refine .record ["name", "ty", "kind"] [_, _, _] (by decide) rfl
    ⟨.str v.name, v.ty.writes.exact, v.kind.writes.exact⟩ ?_
  rintro d j ⟨_, ht, hk⟩ hf
  simp [ofJson?, hf, Json.string, v.ty.writes.read ht, v.kind.writes.read hk]

theorem Variable.writes_list (vs : List Variable) :
    Writes (list? Variable.ofJson?) (arr (vs.map Variable.toJson)) vs :=
  .list fun v _ => v.writes

/-! ## Expressions

By induction on the expression. What has no float literal in it has none in its parts, so the
condition goes down with the induction. -/

theorem UnOp.writes (op : UnOp) : Writes UnOp.ofJson? op.toJson op := by
  cases op <;> exact ⟨.str _, fun _ => rfl⟩

theorem BinOp.writes (op : BinOp) : Writes BinOp.ofJson? (.str op.name) op := by
  cases op <;> exact ⟨.str _, fun _ => rfl⟩

theorem Quantifier.writes (q : Quantifier) : Writes Quantifier.ofJson? q.toJson q := by
  cases q <;> exact ⟨.str _, fun _ => rfl⟩

namespace Expr

/-- Whether an expression is a float literal. -/
def isFloat : Expr → Bool
  | float _ => true
  | _ => false

/-- Whether there is no float literal in an expression. -/
def noFloatLiteral (e : Expr) : Bool := e.visit.all fun d => !d.isFloat

theorem noFloatLiteral_iff {e : Expr} :
    e.noFloatLiteral ↔ e.isFloat = false ∧ ∀ c ∈ e.children, c.noFloatLiteral := by
  simp only [noFloatLiteral, List.all_eq_true, Bool.not_eq_true']
  rw [visit_eq, List.forall_mem_cons, List.forall_mem_flatMap]

theorem noFloatLiteral_child {e c : Expr} (h : e.noFloatLiteral) (hc : c ∈ e.children) :
    c.noFloatLiteral :=
  (noFloatLiteral_iff.1 h).2 c hc

theorem toJsonList_eq_map (es : List Expr) : toJsonList es = es.map toJson := by
  induction es with
  | nil => rfl
  | cons e es ih => rw [toJsonList, ih, List.map_cons]

/-- The writer has a function of its own for lists of expressions, which does what `map` does. -/
theorem writes_list {es : List Expr} (h : ∀ e ∈ es, Writes Expr.ofJson? e.toJson e) :
    Writes (list? Expr.ofJson?) (arr (toJsonList es)) es := by
  rw [toJsonList_eq_map]
  exact .list h

/-- The arguments of an application are read where they stand, one level below it. The reader of
expressions cannot call the reader of lists, since it is defined by recursion on the levels. -/
theorem mapM_toJsonList {es : List Expr} {d : Nat}
    (h : Writes (list? Expr.ofJson?) (arr (toJsonList es)) es)
    (hd : (arr (toJsonList es)).depth ≤ d) :
    ∃ d', d = d' + 1 ∧ (toJsonList es).mapM (Expr.ofJson? d') = some es := by
  obtain ⟨d', rfl, -⟩ := depth_arr_le hd
  exact ⟨d', rfl, h.read hd⟩

/-- Expressions without float literals survive. -/
theorem writes {e : Expr} (h : e.noFloatLiteral) : Writes Expr.ofJson? e.toJson e := by
  induction e with
  | var v =>
      refine .variant "Var" v.writes.exact fun d hd => ?_
      simp [Json.variant, ofJson?, v.writes.read hd]
  | int n =>
      refine .variant "IntLit" (.int _) fun d _ => ?_
      simp [Json.variant, ofJson?, Json.int64?, int64?_toInt]
  | float x => cases (noFloatLiteral_iff.1 h).1
  | bool b =>
      refine .variant "BoolLit" (.bool b) fun d _ => ?_
      simp [Json.variant, ofJson?, bool?]
  | unary op e ih =>
      have he := ih (noFloatLiteral_child h (by simp [children]))
      refine .tupleVariant "Unary" [_, _] ⟨op.writes.exact, he.exact⟩ ?_
      rintro d ⟨ho, hd⟩
      simp [Json.variant, ofJson?, op.writes.read ho, he.read hd]
  | binary op l r ihl ihr =>
      have hl := ihl (noFloatLiteral_child h (by simp [children]))
      have hr := ihr (noFloatLiteral_child h (by simp [children]))
      refine .tupleVariant "Binary" [_, _, _] ⟨op.writes.exact, hl.exact, hr.exact⟩ ?_
      rintro d ⟨ho, hdl, hdr⟩
      simp [Json.variant, ofJson?, op.writes.read ho, hl.read hdl, hr.read hdr]
  | quant q v body ih =>
      have hbody := ih (noFloatLiteral_child h (by simp [children]))
      refine .recordVariant "Quantified" ["quantifier", "variable", "body"] [_, _, _] (by decide)
        rfl ⟨q.writes.exact, v.writes.exact, hbody.exact⟩ ?_
      rintro d j ⟨hq, hv, hb⟩ hf
      simp [Json.variant, ofJson?, hf, q.writes.read hq, v.writes.read hv, hbody.read hb]
  | read array index iha ihi =>
      have harray := iha (noFloatLiteral_child h (by simp [children]))
      have hindex := ihi (noFloatLiteral_child h (by simp [children]))
      refine .recordVariant "ArrayRead" ["array", "index"] [_, _] (by decide) rfl
        ⟨harray.exact, hindex.exact⟩ ?_
      rintro d j ⟨ha, hi⟩ hf
      simp [Json.variant, ofJson?, hf, harray.read ha, hindex.read hi]
  | update array index value length iha ihi ihv ihl =>
      have harray := iha (noFloatLiteral_child h (by simp [children]))
      have hindex := ihi (noFloatLiteral_child h (by simp [children]))
      have hvalue := ihv (noFloatLiteral_child h (by simp [children]))
      have hlength := ihl (noFloatLiteral_child h (by simp [children]))
      refine .recordVariant "ArrayUpdate" ["array", "index", "value", "length"] [_, _, _, _]
        (by decide) rfl ⟨harray.exact, hindex.exact, hvalue.exact, hlength.exact⟩ ?_
      rintro d j ⟨ha, hi, hv, hl⟩ hf
      simp [Json.variant, ofJson?, hf, harray.read ha, hindex.read hi, hvalue.read hv,
        hlength.read hl]
  | call f args ty ih =>
      have hargs := writes_list fun e he => ih e he (noFloatLiteral_child h he)
      refine .recordVariant "Call" ["function", "args", "ty"] [_, _, _] (by decide) rfl
        ⟨.str f, hargs.exact, ty.writes.exact⟩ ?_
      rintro d j ⟨_, ha, ht⟩ hf
      -- the reader enters the list of arguments by itself, which takes one more level
      obtain ⟨d, rfl, hread⟩ := mapM_toJsonList hargs ha
      simp [Json.variant, ofJson?, hf, Json.string, hread, ty.writes.read ht]
  | app p args ih =>
      have hargs := writes_list fun e he => ih e he (noFloatLiteral_child h he)
      refine .recordVariant "PredicateApp" ["predicate", "args"] [_, _] (by decide) rfl
        ⟨.str p, hargs.exact⟩ ?_
      rintro d j ⟨_, ha⟩ hf
      obtain ⟨d, rfl, hread⟩ := mapM_toJsonList hargs ha
      simp [Json.variant, ofJson?, hf, Json.string, hread]

theorem writes_all {es : List Expr} (h : ∀ e ∈ es, e.noFloatLiteral) :
    Writes (list? Expr.ofJson?) (arr (toJsonList es)) es :=
  writes_list fun e he => writes (h e he)

end Expr

/-! ## Statements

A statement has a number, and a call has the id of its callee. Other numbers do not occur in it.
-/

namespace Action

theorem ofJson?_call {d : Nat} {body lhs site id items : Json} {targets : List Variable}
    {callee : FunctionId} {args : List Expr}
    (hbody : fields? ["lhs", "call"] body = some [lhs, site])
    (hsite : fields? ["function", "args"] site = some [id, items])
    (htargets : list? Variable.ofJson? (d + 1) lhs = some targets)
    (hcallee : id.natural? = some callee) (hargs : list? Expr.ofJson? d items = some args) :
    Action.ofJson? (d + 3) (Json.variant "FunctionCall" body) =
      some (.call targets callee args) := by
  simp [Json.variant, ofJson?, hbody, hsite, htargets, hcallee, hargs]

/-- A call is a record inside a record. -/
theorem writes_call (targets : List Variable) {callee : FunctionId} {args : List Expr}
    (hn : callee < UInt64.size) (h : ∀ e ∈ args, e.noFloatLiteral) :
    Writes Action.ofJson? (Action.call targets callee args).toJson (.call targets callee args) := by
  have htargets := Variable.writes_list targets
  have hcallee := writes_natural hn
  have hargs := Expr.writes_all h
  refine .recordVariant "FunctionCall" ["lhs", "call"] [_, _] (by decide) rfl
    ⟨htargets.exact, exact_zip ["function", "args"] [_, _] ⟨hcallee.exact, hargs.exact⟩⟩ ?_
  rintro d j ⟨ht, hs⟩ hf
  obtain ⟨d, rfl, hc, ha⟩ := depth_zip_le ["function", "args"] [_, _] rfl hs
  exact ofJson?_call hf (fields?_zip ["function", "args"] [_, _] (by decide) rfl)
    (htargets.read ht) (hcallee.read hc) (hargs.read ha)

theorem writes {a : Action} (h : ∀ e ∈ a.exprs, e.noFloatLiteral)
    (hn : ∀ id ∈ a.callee?, id < UInt64.size) : Writes Action.ofJson? a.toJson a := by
  cases a with
  | assign target value =>
      have hvalue := Expr.writes (h value (by simp [exprs]))
      refine .recordVariant "VariableAssign" ["variable", "rhs"] [_, _] (by decide) rfl
        ⟨target.writes.exact, hvalue.exact⟩ ?_
      rintro d j ⟨ht, hv⟩ hf
      simp [Json.variant, ofJson?, hf, target.writes.read ht, hvalue.read hv]
  | store array index value =>
      have hindex := Expr.writes (h index (by simp [exprs]))
      have hvalue := Expr.writes (h value (by simp [exprs]))
      refine .recordVariant "SubscriptAssign" ["array", "index", "rhs"] [_, _, _] (by decide) rfl
        ⟨array.writes.exact, hindex.exact, hvalue.exact⟩ ?_
      rintro d j ⟨ha, hi, hv⟩ hf
      simp [Json.variant, ofJson?, hf, array.writes.read ha, hindex.read hi, hvalue.read hv]
  | call targets callee args => exact writes_call targets (hn callee rfl) h
  | assert condition =>
      have hcondition := Expr.writes (h condition (by simp [exprs]))
      refine .recordVariant "Assert" ["annotation"] [_] (by decide) rfl hcondition.exact
        fun d j hc hf => ?_
      simp [Json.variant, ofJson?, hf, hcondition.read hc]
  | assume condition =>
      have hcondition := Expr.writes (h condition (by simp [exprs]))
      refine .recordVariant "Assume" ["condition"] [_] (by decide) rfl hcondition.exact
        fun d j hc hf => ?_
      simp [Json.variant, ofJson?, hf, hcondition.read hc]

end Action

/-- The ids and ordinals in a statement. -/
def Statement.numbers (s : Statement) : List Nat := s.ordinal :: s.action.callee?.toList

theorem Statement.writes {s : Statement} (h : ∀ e ∈ s.action.exprs, e.noFloatLiteral)
    (hn : ∀ n ∈ s.numbers, n < UInt64.size) : Writes Statement.ofJson? s.toJson s := by
  simp only [numbers, List.forall_mem_cons, Option.mem_toList] at hn
  have hordinal := writes_natural hn.1
  have haction := Action.writes h hn.2
  refine .record ["ordinal", "kind"] [_, _] (by decide) rfl ⟨hordinal.exact, haction.exact⟩ ?_
  rintro d j ⟨ho, ha⟩ hf
  simp [ofJson?, hf, hordinal.read ho, haction.read ha]

/-! ## Blocks

The reader of a kind of block tries a plain name first, and a variant with data is none. -/

namespace BlockKind

/-- The expressions of a kind of block, ranking functions included. -/
def contents : BlockKind → List Expr
  | precondition condition ranking => condition :: ranking
  | postcondition condition => [condition]
  | basic => []
  | loopHead invariant ranking => invariant :: ranking

theorem writes {k : BlockKind} (h : ∀ e ∈ k.contents, e.noFloatLiteral) :
    Writes BlockKind.ofJson? k.toJson k := by
  cases k with
  | precondition condition ranking =>
      obtain ⟨hc, hr⟩ := List.forall_mem_cons.1 h
      have hcondition := Expr.writes hc
      have hranking := Expr.writes_all hr
      refine .recordVariant "Precondition" ["condition", "ranking_function"] [_, _] (by decide) rfl
        ⟨hcondition.exact, hranking.exact⟩ ?_
      rintro d j ⟨hdc, hdr⟩ hf
      unfold ofJson?
      rw [plain?_variant hf]
      simp [Json.variant, hf, hcondition.read hdc, hranking.read hdr]
  | postcondition condition =>
      have hcondition := Expr.writes (h condition (by simp [contents]))
      refine .recordVariant "Postcondition" ["condition"] [_] (by decide) rfl hcondition.exact
        fun d j hc hf => ?_
      unfold ofJson?
      rw [plain?_variant hf]
      simp [Json.variant, hf, hcondition.read hc]
  | basic => exact ⟨.str _, fun _ => rfl⟩
  | loopHead invariant ranking =>
      obtain ⟨hi, hr⟩ := List.forall_mem_cons.1 h
      have hinvariant := Expr.writes hi
      have hranking := Expr.writes_all hr
      refine .recordVariant "LoopHead" ["invariant", "ranking_function"] [_, _] (by decide) rfl
        ⟨hinvariant.exact, hranking.exact⟩ ?_
      rintro d j ⟨hdi, hdr⟩ hf
      unfold ofJson?
      rw [plain?_variant hf]
      simp [Json.variant, hf, hinvariant.read hdi, hranking.read hdr]

end BlockKind

namespace Block

/-- The ids and ordinals in a block. -/
def numbers (b : Block) : List Nat :=
  b.id :: (b.predecessors ++ b.successors ++ b.statements.flatMap Statement.numbers)

/-- The expressions in a block, ranking functions included. -/
def contents (b : Block) : List Expr :=
  b.kind.contents ++ b.statements.flatMap fun s => s.action.exprs

theorem writes {b : Block} (h : ∀ e ∈ b.contents, e.noFloatLiteral)
    (hn : ∀ n ∈ b.numbers, n < UInt64.size) : Writes Block.ofJson? b.toJson b := by
  simp only [contents, List.forall_mem_append, List.forall_mem_flatMap] at h
  simp only [numbers, List.forall_mem_cons, List.forall_mem_append, List.forall_mem_flatMap] at hn
  obtain ⟨hnid, ⟨hnpreds, hnsuccs⟩, hnstatements⟩ := hn
  have hid := writes_natural hnid
  have hkind := BlockKind.writes h.1
  have hpreds := writes_naturals hnpreds
  have hsuccs := writes_naturals hnsuccs
  have hstatements := Writes.list fun s hs => Statement.writes (h.2 s hs) (hnstatements s hs)
  refine .record ["id", "kind", "predecessors", "successors", "statements"] [_, _, _, _, _]
    (by decide) rfl ⟨hid.exact, hkind.exact, hpreds.exact, hsuccs.exact, hstatements.exact⟩ ?_
  rintro d j ⟨hi, hk, hp, hs, hl⟩ hf
  simp [ofJson?, hf, hid.read hi, hkind.read hk, hpreds.read hp, hsuccs.read hs,
    hstatements.read hl]

end Block

/-! ## Programs

Functions, predicates, and the table of signatures. Names are strings and may hold any characters.
-/

namespace Function

/-- The ids and ordinals in a function. -/
def numbers (f : Function) : List Nat :=
  f.sig :: f.entry :: f.exit :: f.blocks.flatMap Block.numbers

/-- The expressions in a function, ranking functions included. -/
def contents (f : Function) : List Expr := f.blocks.flatMap Block.contents

theorem writes {f : Function} (h : ∀ e ∈ f.contents, e.noFloatLiteral)
    (hn : ∀ n ∈ f.numbers, n < UInt64.size) : Writes Function.ofJson? f.toJson f := by
  simp only [contents, List.forall_mem_flatMap] at h
  simp only [numbers, List.forall_mem_cons, List.forall_mem_flatMap] at hn
  obtain ⟨hnsig, hnentry, hnexit, hnblocks⟩ := hn
  have hsig := writes_natural hnsig
  have hparams := Variable.writes_list f.parameters
  have hresults := Variable.writes_list f.results
  have hentry := writes_natural hnentry
  have hexit := writes_natural hnexit
  have hblocks := Writes.list fun b hb => Block.writes (h b hb) (hnblocks b hb)
  refine .record ["name", "ty", "parameters", "rvs", "precondition", "postcondition", "blocks"]
    [_, _, _, _, _, _, _] (by decide) rfl ⟨.str f.name, hsig.exact, hparams.exact,
      hresults.exact, hentry.exact, hexit.exact, hblocks.exact⟩ ?_
  rintro d j ⟨_, hs, hp, hr, he, hx, hb⟩ hf
  simp [ofJson?, hf, Json.string, hsig.read hs, hparams.read hp, hresults.read hr,
    hentry.read he, hexit.read hx, hblocks.read hb]

end Function

theorem Predicate.writes {q : Predicate} (h : q.body.noFloatLiteral) (hn : q.sig < UInt64.size) :
    Writes Predicate.ofJson? q.toJson q := by
  have hsig := writes_natural hn
  have hparams := Variable.writes_list q.parameters
  have hbody := Expr.writes h
  refine .record ["name", "ty", "parameters", "expression"] [_, _, _, _] (by decide) rfl
    ⟨.str q.name, hsig.exact, hparams.exact, hbody.exact⟩ ?_
  rintro d j ⟨_, hs, hp, hb⟩ hf
  simp [ofJson?, hf, Json.string, hsig.read hs, hparams.read hp, hbody.read hb]

namespace Program

/-- The ids and ordinals in a program. -/
def numbers (p : Program) : List Nat :=
  p.functions.flatMap Function.numbers ++ p.predicates.map Predicate.sig

/-- The expressions in a program, ranking functions included. -/
def contents (p : Program) : List Expr :=
  p.functions.flatMap Function.contents ++ p.predicates.map Predicate.body

theorem writes {p : Program} (h : ∀ e ∈ p.contents, e.noFloatLiteral)
    (hn : ∀ n ∈ p.numbers, n < UInt64.size) : Writes Program.ofJson? p.toJson p := by
  simp only [contents, List.forall_mem_append, List.forall_mem_flatMap, List.forall_mem_map] at h
  simp only [numbers, List.forall_mem_append, List.forall_mem_flatMap, List.forall_mem_map] at hn
  have htypes := Writes.list fun s (_ : s ∈ p.types.signatures) => s.writes
  have hfunctions := Writes.list fun f hf => Function.writes (h.1 f hf) (hn.1 f hf)
  have hpredicates := Writes.list fun q hq => Predicate.writes (h.2 q hq) (hn.2 q hq)
  refine .record ["types", "functions", "predicates"] [_, _, _] (by decide) rfl
    ⟨htypes.exact, hfunctions.exact, hpredicates.exact⟩ ?_
  rintro d j ⟨ht, hf, hp⟩ hfields
  simp [ofJson?, hfields, htypes.read ht, hfunctions.read hf, hpredicates.read hp,
    SignatureTable.ofList_signatures]

end Program

/-- A validated program without float literals is read back from its text as it was, with the
same numbers for the same signatures, if its ids and ordinals are machine words of 64 bits and its
JSON form nests fewer than 128 levels. -/
theorem written_programs_read_back {p : Program} (hv : p.validate = .ok ())
    (hf : ∀ e ∈ p.contents, e.noFloatLiteral) (hn : ∀ n ∈ p.numbers, n < UInt64.size)
    (hd : p.toJson.depth < 128) : Program.parse p.toJson.compact = .ok p := by
  have hp := Program.writes hf hn
  have hparse : Json.parse? p.toJson.compact = some p.toJson := hp.exact.parse?_compact
  have hread : Program.ofJson? nestingLimit p.toJson = some p := hp.read (Nat.le_of_lt_succ hd)
  rw [Program.parse, hparse, Option.bind_some, hread]
  simp only [hv]

namespace Lowering

open Sample (n)

/-- An array and an index, beside a bound for its elements. -/
def xs : Variable := .array "xs" .int
def i : Variable := .quantified "i"

/-- All elements of `xs` are at most `n`. -/
def below : Predicate := ⟨"below", 1, [xs, n], .quant .all i
  (.binary .le (.read (.var xs) (.var i)) (.var n))⟩

/-- A loop that lowers the bound. -/
def lower : Function := ⟨"lower \"é\"\n\x01", 0, [xs, n], [n], 0, 1, [
  ⟨0, .precondition (.app "below" [.var xs, .var n]) [.var n], [], [2], []⟩,
  ⟨1, .postcondition (.binary .eq (.call "size" [.var n] .int) (.var n)), [2], [], []⟩,
  ⟨2, .loopHead (.bool true) [.unary .neg (.var n)], [0, 3], [3, 1], []⟩,
  ⟨3, .basic, [2], [2], [
    ⟨1, .assume (.binary .lt (.int (-9223372036854775808)) (.var n))⟩,
    ⟨2, .assign n (.binary .sub (.var n) (.int 1))⟩,
    ⟨3, .store xs (.int 0) (.var n)⟩,
    ⟨4, .call [n] 0 [.var xs, .var n]⟩,
    ⟨5, .assert (.binary .eq
      (.read (.update (.var xs) (.int 0) (.var n) (.var n)) (.int 0)) (.var n))⟩]⟩]⟩

def program : Program where
  types := ⟨[⟨[.array .int, .int], [.int]⟩, .predicate [.array .int, .int]], by decide⟩
  functions := [lower]
  predicates := [below]

end Lowering

/-- The program has every kind of statement and block, an integer at the end of its range and a
name with characters that are escaped. -/
theorem written_programs_read_back_lowering :
    Lowering.program.validate = .ok () ∧
      (∀ e ∈ Lowering.program.contents, e.noFloatLiteral) ∧
      (∀ n ∈ Lowering.program.numbers, n < UInt64.size) ∧
      Lowering.program.toJson.depth < 128 ∧
      Program.parse Lowering.program.toJson.compact = .ok Lowering.program := by
  have hv : Lowering.program.validate = .ok () := by cbv
  have hf : ∀ e ∈ Lowering.program.contents, e.noFloatLiteral := by decide
  have hn : ∀ n ∈ Lowering.program.numbers, n < UInt64.size := by decide
  have hd : Lowering.program.toJson.depth < 128 := by decide +kernel
  exact ⟨hv, hf, hn, hd, written_programs_read_back hv hf hn hd⟩

end Pathwise
