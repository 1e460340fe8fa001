import Pathwise.Proofs.ScriptText

/-!
# Pathwise.Proofs.ScriptSexps

The text of a script, read back as the structure of the script.

A term has an expression (`Smt.Term.sexp`): an operator and its operands make a list, a connective
of fewer than two operands is dropped, and a symbol without operands is an atom. A command is a
list that begins with its keyword (`Smt.Command.sexp?`), and a comment is nothing. If the names in
a script are symbols, the texts of its terms and commands are read as these expressions.

The commands of a script stand in lines. At the end of a line the reader may be inside a comment,
and the line break ends it (`Smt.endedBy_lineBreak`). This is why a comment must not have a line
break of its own.

Closed names are enough to find one list for each command, but then what is in the lists is not
known: a name may hold several atoms, or none. Names that are symbols are single atoms, and so the
expression of a term can be given as a function of the term. The function is not injective. A
connective of one operand has the expression of the operand, and an application to no operands
that of a constant, as they have the same texts.
-/

namespace Pathwise.Smt

open Sexp

/-! ## Lists

The texts that are put together from operands, once for any operands. -/

/-- Texts that are read as one expression each. -/
abbrev ReadEach (texts : List String) (xs : List Sexp) : Prop :=
  List.Forall₂ (fun s x => Reads s [x]) texts xs

variable {symbol unit : String} {operands : List String} {xs : List Sexp}

/-- One expression for each operand, with spaces between the texts. -/
theorem reads_each (h : ReadEach operands xs) : Reads (" ".intercalate operands) xs := by
  have hreads : List.Forall₂ Reads operands (xs.map fun x => [x]) :=
    List.forall₂_map_right_iff.2 h
  -- one expression each is one list of expressions each
  have hflatten : (xs.map fun x => [x]).flatten = xs := by
    rw [← List.flatMap_def, List.flatMap_singleton']
  rw [← hflatten]
  exact .intercalate rfl (endedBy_separator (by decide)) hreads

theorem reads_application (hs : isSymbol symbol) (h : ReadEach operands xs) :
    Reads (application symbol operands) [.list (.atom symbol :: xs)] := by
  rw [application_eq]
  exact Reads.paren ((reads_symbol hs).separated (endedBy_separator (by decide)) (reads_each h))

/-- The expression of a connective: its unit for no operand, the operand itself for one. -/
def connectiveSexp (symbol unit : String) : List Sexp → Sexp
  | [] => .atom unit
  | [x] => x
  | xs => .list (.atom symbol :: xs)

theorem reads_connective (hs : isSymbol symbol) (hu : isSymbol unit) (h : ReadEach operands xs) :
    Reads (connective symbol unit operands) [connectiveSexp symbol unit xs] := by
  cases h with
  | nil => exact reads_symbol hu
  | cons hx hxs =>
      cases hxs with
      | nil => exact hx
      | cons hy hys => exact reads_application hs (.cons hx (.cons hy hys))

def bindingSexp (v : SortedVar) : Sexp := .list [.atom v.1, v.2.sexp]

def varsSexp (vars : List SortedVar) : Sexp := .list (vars.map bindingSexp)

theorem reads_varsText {vars : List SortedVar} (h : ∀ v ∈ vars, isSymbol v.1) :
    Reads (varsText vars) [varsSexp vars] := by
  refine (reads_map (by decide) fun v hv => ?_).paren
  show Reads ("(" ++ v.1 ++ " " ++ v.2.text ++ ")") [bindingSexp v]
  rw [binding_eq]
  exact Reads.paren
    ((reads_symbol (h v hv)).separated (endedBy_separator (by decide)) (reads_sort v.2))

/-! ## Terms

The expression of a term follows its text, case by case, and the induction over terms shows that
the one is read as the other. -/

namespace Term

mutual

/-- The expression of a term, as it is found in the text of the term. Numbers are atoms or
applications of minus, and sorts are expressions of their own. -/
def sexp : Term → Sexp
  | bool b => .atom (toString b)
  | int n => intSexp n
  | real x => realSexp x
  | const name => .atom name
  | not t => .list [.atom "not", sexp t]
  | neg t => .list [.atom "-", sexp t]
  | and ts => connectiveSexp "and" "true" (sexpList ts)
  | or ts => connectiveSexp "or" "false" (sexpList ts)
  | distinct ts => .list (.atom "distinct" :: sexpList ts)
  | ite c t e => .list [.atom "ite", sexp c, sexp t, sexp e]
  | binary op l r => .list [.atom op.symbol, sexp l, sexp r]
  | store array index value => .list [.atom "store", sexp array, sexp index, sexp value]
  | quant q vars body => .list [.atom q.word, varsSexp vars, sexp body]
  | app name [] => .atom name
  | app name (t :: ts) => .list (.atom name :: sexp t :: sexpList ts)

def sexpList : List Term → List Sexp
  | [] => []
  | t :: ts => sexp t :: sexpList ts

end

/-- The operands of a connective are read one by one. -/
theorem readEach_textList {ts : List Term}
    (h : ∀ t ∈ ts, (∀ n ∈ t.names, isSymbol n.2) → Reads t.text [t.sexp])
    (hn : ∀ n ∈ namesList ts, isSymbol n.2) : ReadEach (textList ts) (sexpList ts) := by
  induction ts with
  | nil => exact .nil
  | cons t ts ih =>
      obtain ⟨ht, hts⟩ := List.forall_mem_cons.1 h
      rw [namesList, List.forall_mem_append] at hn
      exact .cons (ht hn.1) (ih hts hn.2)

/-- The text of a term over symbols is read as the expression of the term. By induction on the
term, where each case has a lemma of its own for the operands. -/
theorem reads_text {t : Term} (hn : ∀ n ∈ t.names, isSymbol n.2) : Reads t.text [t.sexp] := by
  induction t using induct with
  | bool b => cases b <;> exact reads_symbol (by decide)
  | int n => exact reads_intText n
  | real x => exact reads_realText x
  | const x => exact reads_symbol (hn (.constant, x) (by simp [names]))
  | not t ih => exact reads_application (by decide : isSymbol "not") (.cons (ih hn) .nil)
  | neg t ih => exact reads_application (by decide : isSymbol "-") (.cons (ih hn) .nil)
  | and ts ih => exact reads_connective (by decide) (by decide) (readEach_textList ih hn)
  | or ts ih => exact reads_connective (by decide) (by decide) (readEach_textList ih hn)
  | distinct ts ih =>
      exact reads_application (by decide : isSymbol "distinct") (readEach_textList ih hn)
  | ite c t e hc ht he =>
      simp only [names, List.forall_mem_append] at hn
      have hoperands : ReadEach [c.text, t.text, e.text] [c.sexp, t.sexp, e.sexp] :=
        .cons (hc hn.1.1) (.cons (ht hn.1.2) (.cons (he hn.2) .nil))
      exact reads_application (by decide) hoperands
  | binary op l r hl hr =>
      simp only [names, List.forall_mem_append] at hn
      have hsymbol : isSymbol op.symbol := by cases op <;> decide
      exact reads_application hsymbol (.cons (hl hn.1) (.cons (hr hn.2) .nil))
  | store a i x ha hi hx =>
      simp only [names, List.forall_mem_append] at hn
      have hoperands : ReadEach [a.text, i.text, x.text] [a.sexp, i.sexp, x.sexp] :=
        .cons (ha hn.1.1) (.cons (hi hn.1.2) (.cons (hx hn.2) .nil))
      exact reads_application (by decide) hoperands
  | quant q vars body ih =>
      simp only [names, List.forall_mem_append] at hn
      have hvars := reads_varsText fun v hv => hn.1 (.constant, v.1) (List.mem_map_of_mem hv)
      have hsymbol : isSymbol q.word := by cases q <;> decide
      exact reads_application hsymbol (.cons hvars (.cons (ih hn.2) .nil))
  | app f ts ih =>
      obtain ⟨hf, hts⟩ := List.forall_mem_cons.1 hn
      have hoperands := readEach_textList ih hts
      -- without operands the symbol stands alone
      cases ts with
      | nil => exact reads_symbol hf
      | cons t ts => exact reads_application hf hoperands

end Term

/-! ## Commands

A keyword and what follows it. Numbers of levels and names of options are symbols by the way they
are written. -/

namespace Command

/-- The expressions of what follows the keyword. -/
def items : Command → List Sexp
  | setLogic logic => [.atom logic]
  | setOption key value => [.atom (":" ++ key), .atom value]
  | declareConst name sort => [.atom name, sort.sexp]
  | declareFun name params result => [.atom name, .list (params.map SortExpr.sexp), result.sexp]
  | defineFun name params result body => [.atom name, varsSexp params, result.sexp, body.sexp]
  | assert t => [t.sexp]
  | push levels | pop levels => [.atom (toString levels)]
  | checkSat | getModel | comment _ | exit => []

/-- The expression of a command. There is none for a comment. -/
def sexp? (c : Command) : Option Sexp := c.keyword?.map fun k => .list (.atom k :: c.items)

variable {c : Command} {k : String}

/-- What follows the keyword of a command is read as its items. -/
theorem readEach_arguments (hn : ∀ x ∈ c.names, isSymbol x) : ReadEach c.arguments c.items := by
  cases c with
  | setLogic logic =>
      exact .cons (reads_symbol (hn logic (.head _))) .nil
  | setOption key value =>
      simp only [names, List.forall_mem_cons] at hn
      exact .cons (reads_symbol hn.1) (.cons (reads_symbol hn.2.1) .nil)
  | declareConst name sort =>
      exact .cons (reads_symbol (hn name (.head _))) (.cons (reads_sort sort) .nil)
  | declareFun name params result =>
      have hparams := (reads_map (by decide : " " ∈ separators) (l := params)
        fun sort _ => reads_sort sort).paren
      exact .cons (reads_symbol (hn name (.head _)))
        (.cons hparams (.cons (reads_sort result) .nil))
  | defineFun name params result body =>
      simp only [names, List.forall_mem_cons, List.forall_mem_append, List.forall_mem_map] at hn
      exact .cons (reads_symbol hn.1) (.cons (reads_varsText hn.2.1)
        (.cons (reads_sort result) (.cons (Term.reads_text hn.2.2) .nil)))
  | assert t =>
      simp only [names, List.forall_mem_map] at hn
      exact .cons (Term.reads_text hn) .nil
  | push levels => exact .cons (reads_symbol (isSymbol_toString levels)) .nil
  | pop levels => exact .cons (reads_symbol (isSymbol_toString levels)) .nil
  | checkSat | getModel | comment _ | exit => exact .nil

/-- The text of a command over symbols is read as the expression of the command. -/
theorem reads_text (hk : c.keyword? = some k) (hn : ∀ x ∈ c.names, isSymbol x) :
    Reads c.text [.list (.atom k :: c.items)] := by
  rw [text_eq hk]
  exact (reads_each (.cons (reads_keyword hk) (readEach_arguments hn))).paren

end Command

/-! ## Lines

Between commands the reader may be in one of three modes, and a line break brings it back to the
one for the start of a token. After a last comment there need not be one. -/

/-- The reader is not inside quotes. -/
def inLine : Mode → Bool
  | .idle | .plain _ | .comment => true
  | .quoted _ _ => false

theorem inLine_of_loose {m : Mode} (h : m.loose) : inLine m := by
  cases m with
  | idle | plain _ => rfl
  | comment | quoted _ _ => cases h

/-- A line break ends a comment too. In the other modes it is a separator like any other. -/
theorem endedBy_lineBreak : EndedBy inLine "\n" := by
  intro m hm o
  cases m with
  | idle | plain _ => exact endedBy_separator (by decide) _ rfl o
  | comment => rfl
  | quoted _ _ => cases hm

/-- A comment goes on up to a line break. Quotes and parentheses in it mean nothing. -/
theorem scan_comment {cs : List Char} (hcs : '\n' ∉ cs) (o : Open) :
    scan .comment o cs = .ok (.comment, o) := by
  refine scan_within (f := fun _ => .comment) (fun c hc _ => ?_) []
  have hne : c ≠ '\n' := fun h => hcs (h ▸ hc)
  rw [step, if_neg hne]

/-- The text of a command in its line. A comment adds nothing and leaves the reader inside of it,
where no other command may. -/
theorem Command.readsTo_text {c : Command} (hn : ∀ x ∈ c.names, isSymbol x)
    (hc : ∀ text, c = .comment text → '\n' ∉ text.toList) :
    ReadsTo inLine c.text c.sexp?.toList := by
  cases hk : c.keyword? with
  | none =>
      cases c with
      | comment text =>
          refine ⟨.comment, [], rfl, fun o => ?_, rfl⟩
          have hopen : scan .idle o ";; ".toList = .ok (.comment, o) := rfl
          show scan .idle o (";; " ++ text).toList = .ok (.comment, o)
          rw [String.toList_append, scan_append hopen, scan_comment (hc text rfl)]
      | _ => cases hk
  | some k =>
      rw [sexp?, hk]
      exact (reads_text hk hn).weaken fun m => inLine_of_loose

/-- A script whose names are symbols is read back from its text: there is one expression for each
command that is no comment, in order, and it is the expression of the command. -/
theorem script_text_read_back {s : Script} (hn : ∀ c ∈ s, ∀ x ∈ c.names, isSymbol x)
    (hc : ∀ text, .comment text ∈ s → '\n' ∉ text.toList) :
    Sexp.parse s.text = .ok (s.filterMap Command.sexp?) := by
  have hlines : ∀ c ∈ s, ReadsTo inLine c.text c.sexp?.toList := by
    intro c hcs
    refine Command.readsTo_text (hn c hcs) fun text htext => hc text ?_
    rwa [htext] at hcs
  have hreads := ReadsTo.map rfl endedBy_lineBreak hlines
  rw [List.filterMap_eq_flatMap_toList]
  exact hreads.parse_eq

namespace Reading

/-- The body of a definition, with connectives of no operand and of one. -/
def body : Term := .quant .all [("i", .int), ("a;b", .bool)]
  (.or [.and [], .and [.binary .lt (.const "i") (.int (-3))], .app "f" [.app "c" [], .distinct []]])

/-- A script with comments in its first line and in its last one. -/
def script : Script := [.comment "values (of f; g", .setOption "produce-models" "true",
  .declareConst "c" .bool, .declareFun "f" [.bool, .array .int .real] .bool,
  .defineFun "p" [("k", .int)] .bool body, .assert (.not (.and [])), .push 12, .checkSat,
  .comment "\"end"]

def definition : Sexp :=
  .list [.atom "define-fun", .atom "p", .list [.list [.atom "k", .atom "Int"]], .atom "Bool",
    .list [.atom "forall",
      .list [.list [.atom "i", .atom "Int"], .list [.atom "a;b", .atom "Bool"]],
      .list [.atom "or", .atom "true",
        .list [.atom "<", .atom "i", .list [.atom "-", .atom "3"]],
        .list [.atom "f", .atom "c", .list [.atom "distinct"]]]]]

def lists : List Sexp := [
  .list [.atom "set-option", .atom ":produce-models", .atom "true"],
  .list [.atom "declare-const", .atom "c", .atom "Bool"],
  .list [.atom "declare-fun", .atom "f",
    .list [.atom "Bool", .list [.atom "Array", .atom "Int", .atom "Real"]], .atom "Bool"],
  definition,
  .list [.atom "assert", .list [.atom "not", .atom "true"]],
  .list [.atom "push", .atom "12"],
  .list [.atom "check-sat"]]

end Reading

open Reading

theorem script_text_read_back_lists :
    (∀ c ∈ script, ∀ x ∈ c.names, isSymbol x) ∧
      (∀ text, .comment text ∈ script → '\n' ∉ text.toList) ∧
      Sexp.parse script.text = .ok lists := by
  have hn : ∀ c ∈ script, ∀ x ∈ c.names, isSymbol x := by decide +kernel
  have hc : ∀ text, .comment text ∈ script → '\n' ∉ text.toList := by
    intro text h
    simp only [script, List.mem_cons, Command.comment.injEq, reduceCtorEq, List.not_mem_nil,
      or_false, false_or] at h
    rcases h with rfl | rfl <;> decide
  exact ⟨hn, hc, script_text_read_back hn hc⟩

end Pathwise.Smt
