import Pathwise.Proofs.Definitions
import Pathwise.Proofs.Reading

/-!
# Pathwise.Proofs.ScriptText

The text of a script as S-expressions.

Names are written into the text of a script as they are. As long as the names are closed
(`Sexp.closed`), a term is a closed text, a command is one list that begins with the keyword of
the command (`Smt.Command.exists_reads`), and a script is the list of its commands
(`Smt.Script.exists_reads`).

The names in the script of a condition are those of the program, together with names of fresh
variables, which are closed if the names that they are made from are (`Smt.closed_freshName`). But
the names of a program may be any texts. A name that closes the list around it can put commands of
its own into the script, and validation does not refuse it (`names_break_structure`).

Closed texts are put together like the text of a script is: from words, with separators, inside of
parentheses. What the lists contain is not said, since a closed name may be read as any number of
atoms and lists. It is enough for the structure of the script, which is about commands.

Names of functions do not occur in a condition and may be anything. The names in ranking functions
do not either.
-/

namespace Pathwise

open Smt Sexp

namespace Smt

/-! ## Numerals

Numbers are the only parts of a script that are neither names nor fixed words. Their texts are
symbols, up to a minus that makes a list. -/

/-- Digits have no meaning of their own to the reader. -/
theorem ordinary_of_isDigit {c : Char} (h : c.isDigit) : ordinary c := by
  have hrange : 48 ≤ c.toNat ∧ c.toNat ≤ 57 := by
    simpa [Char.isDigit, UInt32.le_iff_toNat_le] using h
  have hblank : Text.isBlank c = false := isBlank_of_isDigit h
  -- the special characters are all outside of the range of digits
  have hne : ∀ d : Char, d.toNat < 48 ∨ 57 < d.toNat → c ≠ d := by
    rintro d hd rfl
    omega
  simp [ordinary, delimits, hblank, hne '(' (by decide), hne ')' (by decide), hne ';' (by decide),
    hne '|' (by decide), hne '"' (by decide)]

theorem ordinary_of_mem_toDigits {n : Nat} {c : Char} (h : c ∈ Nat.toDigits 10 n) : ordinary c :=
  ordinary_of_isDigit (Nat.isDigit_of_mem_toDigits (by decide) (by decide) h)

theorem isWord_toString (n : Nat) : isWord (toString n) := by
  rw [isWord_iff]
  intro c hc
  exact ordinary_of_mem_toDigits (n := n) (by simpa using hc)

theorem isSymbol_toString (n : Nat) : isSymbol (toString n) := by
  refine isSymbol_of_isWord (isWord_toString n) fun h => ?_
  have hdigits : Nat.toDigits 10 n = [] := by simpa using congrArg String.toList h
  exact Nat.toDigits_ne_nil hdigits

/-- Neither do the characters of a decimal fraction. -/
theorem ordinary_positionalText {ds : List Char} (hds : ∀ c ∈ ds, ordinary c) (point : Int) :
    ∀ c ∈ Decimal.positionalText ds point, ordinary c := by
  have hzero : ordinary '0' := by decide
  have hpoint : ordinary '.' := by decide
  have hzeros : ∀ n, ∀ c ∈ Decimal.zeros n, ordinary c := by
    intro n c hc
    rw [List.eq_of_mem_replicate hc]
    exact hzero
  intro c hc
  unfold Decimal.positionalText at hc
  split at hc
  · simp only [List.mem_cons, List.mem_append] at hc
    rcases hc with rfl | rfl | hc | hc
    · exact hzero
    · exact hpoint
    · exact hzeros _ c hc
    · exact hds c hc
  · dsimp only at hc
    split at hc
    · simp only [List.mem_append, List.mem_cons, List.not_mem_nil, or_false] at hc
      rcases hc with (hc | hc) | rfl | rfl
      · exact hds c hc
      · exact hzeros _ c hc
      · exact hpoint
      · exact hzero
    · simp only [List.mem_append, List.mem_cons] at hc
      rcases hc with hc | rfl | hc
      · exact hds c (List.mem_of_mem_take hc)
      · exact hpoint
      · exact hds c (List.mem_of_mem_drop hc)

/-- The magnitude of a float is a word, in whichever way it is written. -/
theorem isWord_magnitudeText (x : Float) : isWord (magnitudeText realLayout x) := by
  -- infinities and NaN are words as well
  unfold magnitudeText
  split
  · decide
  · split
    · decide
    · unfold Decimal.magnitudeText
      split
      · decide
      · dsimp only
        rw [isWord_iff]
        simp only [String.toList_ofList, realLayout, if_true]
        exact ordinary_positionalText (fun c hc => ordinary_of_mem_toDigits hc) _

theorem isSymbol_withFraction {s : String} (hs : isWord s) : isSymbol (withFraction s) := by
  unfold withFraction
  split
  · next hpoint =>
      refine isSymbol_of_isWord hs ?_
      rintro rfl
      cases hpoint
  · exact isSymbol_of_isWord (isWord_append hs (by decide)) (by simp)

/-- Minus applied to a magnitude. -/
def negated (magnitude : String) : Sexp := .list [.atom "-", .atom magnitude]

theorem reads_negated {s : String} (hs : isSymbol s) :
    Reads ("(- " ++ s ++ ")") [negated s] := by
  have heq : "(- " ++ s ++ ")" = "(" ++ ("-" ++ " " ++ s) ++ ")" := by
    rw [show "(- " = "(" ++ "-" ++ " " from rfl]
    simp only [String.append_assoc]
  rw [heq]
  have hminus := reads_symbol (by decide : isSymbol "-")
  exact Reads.paren (hminus.separated (endedBy_separator (by decide)) (reads_symbol hs))

def realSexp (x : Float) : Sexp :=
  let magnitude := withFraction (magnitudeText realLayout x)
  if signIsMinus x && x != 0.0 then negated magnitude else .atom magnitude

theorem reads_realText (x : Float) : Reads (realText x) [realSexp x] := by
  have hmagnitude := isSymbol_withFraction (isWord_magnitudeText x)
  unfold realText realSexp
  dsimp only
  split
  · exact reads_negated hmagnitude
  · exact reads_symbol hmagnitude

def intSexp (n : Int) : Sexp :=
  if n < 0 then negated (toString n.natAbs) else .atom (toString n.natAbs)

theorem reads_intText (n : Int) : Reads (intText n) [intSexp n] := by
  unfold intText intSexp
  split
  · exact reads_negated (isSymbol_toString _)
  · exact reads_symbol (isSymbol_toString _)

/-! ## Terms

Closed texts for terms, by induction on the term. -/

def SortExpr.sexp : SortExpr → Sexp
  | bool => .atom "Bool"
  | int => .atom "Int"
  | real => .atom "Real"
  | array index elem => .list [.atom "Array", index.sexp, elem.sexp]

theorem reads_sort (s : SortExpr) : Reads s.text [s.sexp] := by
  induction s with
  | array index elem hi he =>
      have heq : (SortExpr.array index elem).text =
          "(" ++ ("Array" ++ " " ++ index.text ++ " " ++ elem.text) ++ ")" := by
        rw [SortExpr.text, show "(Array " = "(" ++ "Array" ++ " " from rfl]
        simp only [String.append_assoc]
      have hword : Reads "Array" [.atom "Array"] := reads_symbol (by decide)
      rw [heq]
      have hsep : EndedBy Mode.loose " " := endedBy_separator (by decide)
      exact Reads.paren ((hword.separated hsep hi).separated hsep he)
  | _ => exact reads_symbol (by decide)

theorem closed_sort (s : SortExpr) : closed s.text := (reads_sort s).closed

theorem binding_eq (x sort : String) :
    "(" ++ x ++ " " ++ sort ++ ")" = "(" ++ (x ++ " " ++ sort) ++ ")" := by
  simp only [String.append_assoc]

theorem closed_varsText {vars : List SortedVar} (h : ∀ v ∈ vars, closed v.1) :
    closed (varsText vars) := by
  refine closed_paren (closed_intercalate (by decide) fun s hs => ?_)
  obtain ⟨v, hv, rfl⟩ := List.mem_map.1 hs
  show closed ("(" ++ v.1 ++ " " ++ v.2.text ++ ")")
  rw [binding_eq]
  exact closed_paren (closed_separated (h v hv) (closed_sort v.2) (by decide))

theorem application_eq (symbol : String) (operands : List String) :
    application symbol operands = "(" ++ (symbol ++ " " ++ " ".intercalate operands) ++ ")" :=
  binding_eq symbol _

theorem closed_application {symbol : String} (hs : closed symbol) {operands : List String}
    (h : ∀ s ∈ operands, closed s) : closed (application symbol operands) := by
  rw [application_eq]
  exact closed_paren (closed_separated hs (closed_intercalate (by decide) h) (by decide))

theorem closed_connective {symbol unit : String} (hs : closed symbol) (hu : closed unit)
    {operands : List String} (h : ∀ s ∈ operands, closed s) :
    closed (connective symbol unit operands) := by
  unfold connective
  split
  · exact hu
  · exact h _ List.mem_cons_self
  · exact closed_application hs h

namespace Term

theorem textList_eq_map (ts : List Term) : textList ts = ts.map text := by
  induction ts with
  | nil => rfl
  | cons t ts ih => rw [textList, ih, List.map_cons]

theorem closed_textList {ts : List Term}
    (h : ∀ t ∈ ts, (∀ n ∈ t.names, closed n.2) → closed t.text)
    (hn : ∀ n ∈ namesList ts, closed n.2) : ∀ s ∈ textList ts, closed s := by
  intro s hs
  rw [textList_eq_map] at hs
  obtain ⟨t, ht, rfl⟩ := List.mem_map.1 hs
  exact h t ht fun n hx => hn n (mem_namesList.2 ⟨t, ht, hx⟩)

/-- A term over closed names is a closed text. Fixed words and numbers are closed by themselves,
and all texts around operands have the form of an application. -/
theorem closed_text {t : Term} (hn : ∀ n ∈ t.names, closed n.2) : closed t.text := by
  have hword : ∀ s, isWord s → closed s := fun s => closed_of_isWord
  induction t using induct with
  | bool b => cases b <;> exact closed_of_isWord (by decide)
  | int n => exact (reads_intText n).closed
  | real x => exact (reads_realText x).closed
  | const x => exact hn (.constant, x) (by simp [names])
  | not t ih =>
      rw [text]
      exact closed_application (hword "not" (by decide)) (by simpa using ih hn)
  | neg t ih =>
      rw [text]
      exact closed_application (hword "-" (by decide)) (by simpa using ih hn)
  | and ts ih =>
      rw [text]
      exact closed_connective (hword "and" (by decide)) (hword "true" (by decide))
        (closed_textList ih hn)
  | or ts ih =>
      rw [text]
      exact closed_connective (hword "or" (by decide)) (hword "false" (by decide))
        (closed_textList ih hn)
  | distinct ts ih =>
      rw [text]
      exact closed_application (hword "distinct" (by decide)) (closed_textList ih hn)
  | ite c t e hc ht he =>
      simp only [names, List.forall_mem_append] at hn
      rw [text]
      exact closed_application (hword "ite" (by decide))
        (by simpa using ⟨hc hn.1.1, ht hn.1.2, he hn.2⟩)
  | binary op l r hl hr =>
      simp only [names, List.forall_mem_append] at hn
      rw [text]
      exact closed_application (hword op.symbol (by cases op <;> decide))
        (by simpa using ⟨hl hn.1, hr hn.2⟩)
  | store a i x ha hi hx =>
      simp only [names, List.forall_mem_append] at hn
      rw [text]
      exact closed_application (hword "store" (by decide))
        (by simpa using ⟨ha hn.1.1, hi hn.1.2, hx hn.2⟩)
  | quant q vars body ih =>
      simp only [names, List.forall_mem_append] at hn
      have hvars := closed_varsText fun v hv => hn.1 (.constant, v.1) (List.mem_map_of_mem hv)
      rw [text]
      exact closed_application (hword q.word (by cases q <;> decide))
        (by simpa using ⟨hvars, ih hn.2⟩)
  | app f ts ih =>
      obtain ⟨hf, hts⟩ := List.forall_mem_cons.1 hn
      have htexts := closed_textList ih hts
      cases ts with
      -- without arguments a symbol is written by itself
      | nil => exact hf
      | cons t ts =>
          rw [text]
          exact closed_application hf htexts

end Term

/-! ## Commands

The text of a command is taken apart into a keyword and arguments, and the arguments are closed if
the names in them are. -/

namespace Command

/-- The word that a command begins with. A comment is no list. -/
def keyword? : Command → Option String
  | setLogic _ => some "set-logic"
  | setOption _ _ => some "set-option"
  | declareConst _ _ => some "declare-const"
  | declareFun _ _ _ => some "declare-fun"
  | defineFun _ _ _ _ => some "define-fun"
  | assert _ => some "assert"
  | checkSat => some "check-sat"
  | getModel => some "get-model"
  | push _ => some "push"
  | pop _ => some "pop"
  | comment _ => none
  | exit => some "exit"

/-- The texts of what follows the keyword. -/
def arguments : Command → List String
  | setLogic logic => [logic]
  | setOption key value => [":" ++ key, value]
  | declareConst name sort => [name, sort.text]
  | declareFun name params result =>
    [name, "(" ++ " ".intercalate (params.map SortExpr.text) ++ ")", result.text]
  | defineFun name params result body => [name, varsText params, result.text, body.text]
  | assert t => [t.text]
  | push levels | pop levels => [toString levels]
  | checkSat | getModel | comment _ | exit => []

/-- The names in a command. The name of an option comes with its colon. -/
def names : Command → List String
  | setLogic logic => [logic]
  | setOption key value => [":" ++ key, value]
  | declareConst name _ => [name]
  | declareFun name _ _ => [name]
  | defineFun name params _ body => name :: (params.map Prod.fst ++ body.names.map Prod.snd)
  | assert t => t.names.map Prod.snd
  | _ => []

variable {c : Command} {k : String}

/-- The text of a command is that of its keyword and arguments, with spaces between them and
parentheses around them. -/
theorem text_eq (hk : c.keyword? = some k) :
    c.text = "(" ++ " ".intercalate (k :: c.arguments) ++ ")" := by
  cases c with
  | comment text => cases hk
  | declareFun name params result =>
      cases hk
      have hopen (s : String) : s ++ " (" = s ++ " " ++ "(" := by
        simp only [String.append_assoc, String.reduceAppend]
      have hclose (s : String) : s ++ ") " = s ++ ")" ++ " " := by
        simp only [String.append_assoc, String.reduceAppend]
      unfold text
      simp only [arguments, String.intercalate_cons_cons, String.intercalate_singleton,
        ← String.append_assoc, String.reduceAppend]
      rw [hopen, hclose]
  | _ =>
      cases hk
      unfold text
      simp only [arguments, String.intercalate_cons_cons, String.intercalate_singleton,
        ← String.append_assoc, String.reduceAppend]

theorem closed_arguments (hn : ∀ x ∈ c.names, closed x) : ∀ s ∈ c.arguments, closed s := by
  cases c with
  | setLogic logic => exact hn
  | setOption key value => exact hn
  | declareConst name sort =>
      simp only [names, arguments, List.forall_mem_cons] at hn ⊢
      exact ⟨hn.1, closed_sort sort, List.forall_mem_nil _⟩
  | declareFun name params result =>
      simp only [names, arguments, List.forall_mem_cons] at hn ⊢
      refine ⟨hn.1, closed_paren (closed_intercalate (by decide) fun s hs => ?_),
        closed_sort result, List.forall_mem_nil _⟩
      obtain ⟨sort, -, rfl⟩ := List.mem_map.1 hs
      exact closed_sort sort
  | defineFun name params result body =>
      simp only [names, arguments, List.forall_mem_cons, List.forall_mem_append,
        List.forall_mem_map] at hn ⊢
      exact ⟨hn.1, closed_varsText hn.2.1, closed_sort result, Term.closed_text hn.2.2,
        List.forall_mem_nil _⟩
  | assert t =>
      simp only [names, arguments, List.forall_mem_cons, List.forall_mem_map] at hn ⊢
      exact ⟨Term.closed_text hn, List.forall_mem_nil _⟩
  | push levels =>
      simp only [arguments, List.forall_mem_cons]
      exact ⟨(reads_symbol (isSymbol_toString levels)).closed, List.forall_mem_nil _⟩
  | pop levels =>
      simp only [arguments, List.forall_mem_cons]
      exact ⟨(reads_symbol (isSymbol_toString levels)).closed, List.forall_mem_nil _⟩
  | _ => exact List.forall_mem_nil _

theorem reads_keyword (hk : c.keyword? = some k) : Reads k [.atom k] := by
  cases c with
  | comment text => cases hk
  | _ =>
      cases hk
      exact reads_symbol (by decide)

/-- The command is a list, and the names in it are closed. -/
def Closed (c : Command) : Prop := c.keyword?.isSome ∧ ∀ x ∈ c.names, closed x

/-- A command over closed names is one list, with its keyword first. What follows the keyword is
whatever its arguments are read as. -/
theorem exists_reads (hk : c.keyword? = some k) (hn : ∀ x ∈ c.names, closed x) :
    ∃ items, Reads c.text [.list (.atom k :: items)] := by
  obtain ⟨xss, hxss⟩ := forall₂_of_closed (closed_arguments hn)
  rw [text_eq hk]
  exact ⟨xss.flatten, Reads.paren
    (.intercalate rfl (endedBy_separator (by decide)) (.cons (reads_keyword hk) hxss))⟩

end Command

/-- The first atom of a list. -/
def Sexp.head? : Sexp → Option String
  | .list (.atom k :: _) => some k
  | _ => none

namespace Script

/-- A script over closed names is the list of its commands, each read as if it stood alone. -/
theorem exists_reads {s : Script} (h : ∀ c ∈ s, c.Closed) :
    ∃ lists, Reads s.text lists ∧
      List.Forall₂ (fun c l => Reads c.text [l] ∧ ∃ k, c.keyword? = some k ∧ l.head? = some k)
        s lists := by
  have hlist : ∀ c ∈ s, ∃ l, Reads c.text [l] ∧ ∃ k, c.keyword? = some k ∧ l.head? = some k := by
    intro c hc
    obtain ⟨k, hk⟩ := Option.isSome_iff_exists.1 (h c hc).1
    obtain ⟨items, hitems⟩ := Command.exists_reads hk (h c hc).2
    exact ⟨.list (.atom k :: items), hitems, k, hk, rfl⟩
  choose! l hl using hlist
  refine ⟨s.map l, ?_, List.forall₂_map_right_iff.2 (List.forall₂_same.2 hl)⟩
  exact reads_map (by decide) fun c hc => (hl c hc).1

end Script

/-! ## Names of a program

Closed names make a lexicon. Its closure under lengths and fresh variables is the fact that
suffixes of ordinary characters keep a name closed. -/

/-- A fresh name is a name with ordinary characters behind it. If the name ends with a closing
quote, they make a word of their own. -/
theorem closed_freshName {x : String} (hx : closed x) (k : Nat) : closed (freshName x k) :=
  closed_append (closed_append hx (by decide)) (isWord_toString k)

/-- The names that are closed texts. -/
def closedNames : Lexicon where
  Var v := ∀ w ∈ v.withLength, closed w.name
  Symbol x := closed x
  Pred x := closed x
  length {v l} hv hl w hw := by
    have hmem : l ∈ v.withLength := Variable.mem_withLength.2 (Or.inr hl)
    exact hv w (Variable.withLength_subset hmem hw)
  fresh {v} hv k w hw := by
    have hfresh := closed_freshName (hv v v.self_mem_withLength) k
    rcases Variable.name_of_mem_withLength_fresh hw with ⟨-, hn⟩ | ⟨-, hn⟩ <;> rw [hn]
    · exact hfresh
    · exact closed_append hfresh (by decide)

end Smt

def Expr.names (e : Expr) : List String :=
  e.mentions.map Variable.name ++ e.predicateNames ++ e.symbols.map Prod.fst

/-- The names in the text of a function, ranking functions aside. -/
def Function.names (f : Function) : List String :=
  (f.targets.flatMap Variable.withLength).map Variable.name ++ f.exprs.flatMap Expr.names

def Predicate.names (q : Predicate) : List String :=
  q.name :: ((q.parameters.flatMap Variable.withLength).map Variable.name ++ q.body.names)

/-- The names in a program. What its functions are called is no part of a condition. -/
def Program.names (p : Program) : List String :=
  p.functions.flatMap Function.names ++ p.predicates.flatMap Predicate.names

variable {e : Expr} {s : CheckerState}

theorem Expr.name_mem_names {v : Variable} (hv : v ∈ e.mentions) : v.name ∈ e.names :=
  List.mem_append_left _ (List.mem_append_left _ (List.mem_map_of_mem hv))

theorem Expr.predicate_mem_names {x : String} (hx : x ∈ e.predicateNames) : x ∈ e.names :=
  List.mem_append_left _ (List.mem_append_right _ hx)

theorem Expr.symbol_mem_names {a : String × SymbolTypes} (ha : a ∈ e.symbols) : a.1 ∈ e.names :=
  List.mem_append_right _ (List.mem_map_of_mem ha)

/-- Encoding brings in no names. -/
theorem Expr.mem_names_of_encode {n : Use × String} (h : n ∈ e.encode.names) : n.2 ∈ e.names := by
  have huses := uses_of_names.1 h
  obtain ⟨use, x⟩ := n
  cases use with
  | constant =>
      obtain ⟨v, hv, rfl⟩ := List.mem_map.1 huses
      exact name_mem_names hv
  | head =>
      rcases huses with hx | hx
      · exact predicate_mem_names hx
      · obtain ⟨a, ha, rfl⟩ := List.mem_map.1 hx
        exact symbol_mem_names ha

/-- An expression keeps to closed names if and only if each of its names is closed. -/
theorem admits_closedNames_iff : closedNames.Admits e ↔ ∀ x ∈ e.names, closed x := by
  constructor
  · intro h x hx
    simp only [Expr.names, List.mem_append, List.mem_map] at hx
    rcases hx with (⟨v, hv, rfl⟩ | hx) | ⟨a, ha, rfl⟩
    · exact h.mentions v hv v v.self_mem_withLength
    · exact h.predicateNames x hx
    · exact h.symbols a ha
  · intro h d hd
    have hmention : ∀ w ∈ d.mentions, closed w.name := fun w hw =>
      h w.name (Expr.name_mem_names (Expr.mentions_subset_of_mem_visit hd hw))
    cases d with
    | var v => exact fun w hw => hmention w (by rwa [Expr.mentions_var])
    | quant q v body =>
        exact fun w hw => hmention w (List.mem_flatMap.2 ⟨_, Expr.self_mem_visit _, hw⟩)
    | call f args t =>
        have hf : (f, args.map Expr.ty, t) ∈ e.symbols := List.mem_filterMap.2 ⟨_, hd, rfl⟩
        exact h f (Expr.symbol_mem_names hf)
    | app x args =>
        exact h x (Expr.predicate_mem_names (Expr.mem_predicateNames.2 ⟨args, hd⟩))
    | _ => trivial

/-! ## Scripts of conditions

A script has names from the condition and from the predicates of the checker. The predicates are
those of the program, which is all that is assumed about the state. -/

theorem closed_declareSymbol {f : String} (hf : closed f) (types : Expr.SymbolTypes) :
    (declareSymbol f types).Closed :=
  ⟨rfl, by simpa [declareSymbol, Command.names] using hf⟩

/-- Free variables and function symbols are declared under their names. -/
theorem closed_declarations (he : ∀ x ∈ e.names, closed x) : ∀ c ∈ e.declarations, c.Closed := by
  intro c hc
  rcases List.mem_append.1 hc with hc | hc
  · obtain ⟨⟨x, t⟩, ha, rfl⟩ := List.mem_map.1 hc
    obtain ⟨v, hv, rfl, -⟩ :=
      Expr.exists_of_freeVariables (e.sorted_freeVariables.mem_entries_iff.1 ha)
    exact ⟨rfl, by simpa [Command.names] using he v.name (Expr.name_mem_names hv)⟩
  · obtain ⟨⟨f, types⟩, ha, rfl⟩ := List.mem_map.1 hc
    have hmem := Expr.mem_symbols_of_functionSymbols (e.sorted_functionSymbols.mem_entries_iff.1 ha)
    exact closed_declareSymbol (he f (Expr.symbol_mem_names hmem)) types

/-- A predicate is defined over its parameters and their lengths. -/
theorem closed_definition {q : Predicate} (hq : ∀ x ∈ q.names, closed x) : q.definition.Closed := by
  refine ⟨rfl, ?_⟩
  obtain ⟨hname, hrest⟩ := List.forall_mem_cons.1 hq
  obtain ⟨hparameters, hbody⟩ := List.forall_mem_append.1 hrest
  have hparameter : ∀ v ∈ q.parameters, ∀ w ∈ v.withLength, closed w.name := fun v hv w hw =>
    hparameters w.name (List.mem_map_of_mem (List.mem_flatMap.2 ⟨v, hv, hw⟩))
  simp only [Predicate.definition, Command.names, List.map_append, List.map_map,
    List.forall_mem_cons, List.forall_mem_append, List.forall_mem_map, Function.comp_apply]
  refine ⟨hname, ⟨fun v hv => hparameter v hv v v.self_mem_withLength, fun l hl => ?_⟩,
    fun n hn => hbody n.2 (Expr.mem_names_of_encode hn)⟩
  obtain ⟨v, hv, hvl⟩ := List.mem_filterMap.1 hl
  exact hparameter v hv l (Variable.mem_withLength.2 (Or.inr hvl))

/-- The functions that are declared for the predicates are functions of their bodies. They come
from a table, whose entries are traced back to the bodies. -/
theorem closed_symbols (hs : ∀ q ∈ s.predicates, ∀ x ∈ q.names, closed x) :
    ∀ a ∈ s.symbols.entries, closed a.1 := by
  rintro ⟨f, types⟩ ha
  have hextends := extends_symbols (l := s.predicates.flatMap fun q => q.body.symbols)
    (fun q hq a ha => List.mem_flatMap.2 ⟨q, hq, ha⟩) .empty
  have hfind := (hextends.sorted SortedMap.sorted_empty).mem_entries_iff.1 ha
  rcases hextends.origin hfind with hnone | hmem
  · cases hnone
  · obtain ⟨q, hq, hmem⟩ := List.mem_flatMap.1 hmem
    exact hs q hq f (List.mem_cons_of_mem _ (List.mem_append_right _ (Expr.symbol_mem_names hmem)))

/-- The names in a script come from the formula and the predicates. What else is in it, the
options and the logic, has fixed names. -/
theorem closed_script (he : ∀ x ∈ e.names, closed x)
    (hs : ∀ q ∈ s.predicates, ∀ x ∈ q.names, closed x) : ∀ c ∈ s.script e, c.Closed := by
  have hassert : (Command.assert (.not e.encode)).Closed := by
    refine ⟨rfl, fun x hx => ?_⟩
    obtain ⟨n, hn, rfl⟩ := List.mem_map.1 hx
    exact he n.2 (Expr.mem_names_of_encode hn)
  simp only [CheckerState.script, List.forall_mem_append, List.forall_mem_cons,
    List.forall_mem_map]
  refine ⟨⟨⟨⟨⟨⟨rfl, ?_⟩, ⟨rfl, ?_⟩, List.forall_mem_nil _⟩, fun c hc => ?_⟩, fun a ha => ?_⟩,
    fun q hq => ?_⟩, hassert, ⟨rfl, List.forall_mem_nil _⟩, ⟨rfl, List.forall_mem_nil _⟩,
    List.forall_mem_nil _⟩
  · decide
  · decide
  · exact closed_declarations he c (List.mem_filter.1 hc).1
  · exact closed_declareSymbol (closed_symbols hs a ha) a.2
  · exact closed_definition (hs q hq)

theorem count_assert_script (s : CheckerState) (e : Expr) :
    ((s.script e).map Command.keyword?).count (some "assert") = 1 := by
  have hprelude : some "assert" ∉ (s.prelude e).map Command.keyword? := by
    intro h
    obtain ⟨c, hc, hk⟩ := List.mem_map.1 h
    rcases CheckerState.prelude_cases hc with
      ⟨_, _, rfl⟩ | ⟨_, rfl⟩ | ⟨_, _, rfl⟩ | ⟨_, _, _, rfl⟩ <;> simp [Command.keyword?] at hk
  have hdefinitions :
      some "assert" ∉ (s.predicates.map Predicate.definition).map Command.keyword? := by
    simp [Predicate.definition, Command.keyword?]
  rw [CheckerState.script_eq, List.map_append, List.map_append, List.count_append,
    List.count_append, List.count_eq_zero.2 hprelude, List.count_eq_zero.2 hdefinitions]
  rfl

/-- The condition of a path of a program over closed names uses closed names. The closed names
make a lexicon, and the functions keep to it. -/
theorem closed_condition {p : Program} {f : Function} (hv : p.validate = .ok ())
    (hn : ∀ x ∈ p.names, closed x) (hf : f ∈ p.functions) {q : BasicPath}
    (hq : q ∈ (f.paths p).toList) {vc : Expr} (hvc : p.condition f q = .ok vc) :
    ∀ x ∈ vc.names, closed x := by
  refine admits_closedNames_iff.1 (Lexicon.admits_condition (fun g hg => ?_) hv hf hq hvc)
  have hg : ∀ x ∈ g.names, closed x := fun x hx =>
    hn x (List.mem_append_left _ (List.mem_flatMap.2 ⟨g, hg, hx⟩))
  refine ⟨fun v ht w hw => ?_, fun d hd => admits_closedNames_iff.2 fun x hx => ?_⟩
  · exact hg w.name (List.mem_append_left _ (List.mem_map_of_mem (List.mem_flatMap.2 ⟨v, ht, hw⟩)))
  · exact hg x (List.mem_append_right _ (List.mem_flatMap.2 ⟨d, hd, hx⟩))

/-- If the names of a validated program are closed, the script of each condition reads as one list
for each command, in order, that begins with the keyword of the command. One of the lists is an
assertion. -/
theorem names_keep_structure {p : Program} {f : Function} (hv : p.validate = .ok ())
    (hn : ∀ x ∈ p.names, closed x) (hf : f ∈ p.functions) {q : BasicPath}
    (hq : q ∈ (f.paths p).toList) {vc : Expr} (hvc : p.condition f q = .ok vc)
    {s : CheckerState} (hs : s.predicates = p.predicates) :
    ∃ lists, Sexp.parse (s.script vc).text = .ok lists ∧
      List.Forall₂ (fun c l => Sexp.parse c.text = .ok [l] ∧
        ∃ k, c.keyword? = some k ∧ l.head? = some k) (s.script vc) lists ∧
      (lists.map Sexp.head?).count (some "assert") = 1 := by
  have hclosed : ∀ c ∈ s.script vc, c.Closed := by
    refine closed_script (closed_condition hv hn hf hq hvc) fun r hr x hx => hn x ?_
    exact List.mem_append_right _ (List.mem_flatMap.2 ⟨r, hs ▸ hr, hx⟩)
  obtain ⟨lists, hreads, hall⟩ := Script.exists_reads hclosed
  -- the keywords of the commands can be read off the lists
  have hheads : (s.script vc).map Command.keyword? = lists.map Sexp.head? := by
    rw [← List.forall₂_eq_eq_eq, List.forall₂_map_left_iff, List.forall₂_map_right_iff]
    exact hall.imp fun c l ⟨_, k, hk, hl⟩ => hk.trans hl.symm
  refine ⟨lists, hreads.parse_eq, hall.imp fun c l h => ⟨h.1.parse_eq, h.2⟩, ?_⟩
  rw [← hheads]
  exact count_assert_script s vc

namespace Naming

open Sample (r)

/-- The predicate that `k` is positive. -/
def positive : Predicate := ⟨"positive", 1, [.scalar "k" .int],
  .binary .gt (.var (.scalar "k" .int)) (.int 0)⟩

/-- The body `r := pick(true)`, for a parameter of the given name. -/
def pick (x : String) : Function := ⟨"pick", 0, [.scalar x .bool], [r], 0, 1, [
  ⟨0, .precondition (.var (.scalar x .bool)) [], [], [2], []⟩,
  ⟨1, .postcondition (.app "positive" [.var r]), [2], [], []⟩,
  ⟨2, .basic, [0], [1], [⟨0, .call [r] 0 [.bool true]⟩]⟩]⟩

def program (x : String) : Program where
  types := .ofList [⟨[.bool], [.int]⟩, .predicate [.int]]
  functions := [pick x]
  predicates := [positive]

/-- The condition at the exit, where the call has assigned the result. -/
def condition (x : String) : Expr :=
  .binary .implies (.var (.scalar x .bool)) (.binary .implies
    (.app "positive" [.var (r.fresh 1)]) (.app "positive" [.var (r.fresh 1)]))

def quoted : String := "|is set|"

/-- A name that ends the declaration it stands in, and begins another one. -/
def injection : String := "x Bool)(assert false)(declare-const y"

end Naming

open Naming

/-- A name with a blank in it, where it is quoted. -/
theorem names_keep_structure_quoted :
    (program quoted).validate = .ok () ∧ (∀ x ∈ (program quoted).names, closed x) ∧
      ∃ lists,
        Sexp.parse (CheckerState.script ⟨[positive], 0⟩ (condition quoted)).text = .ok lists ∧
        List.Forall₂ (fun c l => Sexp.parse c.text = .ok [l] ∧
          ∃ k, c.keyword? = some k ∧ l.head? = some k)
          (CheckerState.script ⟨[positive], 0⟩ (condition quoted)) lists ∧
        (lists.map Sexp.head?).count (some "assert") = 1 := by
  have hv : (program quoted).validate = .ok () := by cbv
  have hn : ∀ x ∈ (program quoted).names, closed x := by decide +kernel
  have hq : ∃ q ∈ ((pick quoted).paths (program quoted)).toList,
      (program quoted).condition (pick quoted) q = .ok (condition quoted) :=
    ⟨_, by cbv; exact .tail _ (.head _), by cbv⟩
  obtain ⟨q, hq, hvc⟩ := hq
  exact ⟨hv, hn, names_keep_structure hv hn (.head _) hq hvc rfl⟩

/-- Validation accepts any name. This one makes three lists of its declaration, and the second of
them asserts `false`. -/
theorem names_break_structure :
    (program injection).validate = .ok () ∧
      (∃ q ∈ ((pick injection).paths (program injection)).toList,
        (program injection).condition (pick injection) q = .ok (condition injection)) ∧
      (CheckerState.script ⟨[positive], 0⟩ (condition injection)).map Command.keyword? =
        [some "set-option", some "set-logic", some "declare-const", some "declare-const",
          some "define-fun", some "assert", some "check-sat", some "get-model"] ∧
      (Sexp.parse (CheckerState.script ⟨[positive], 0⟩ (condition injection)).text).map
          (List.map Sexp.head?) =
        .ok [some "set-option", some "set-logic", some "declare-const", some "declare-const",
          some "assert", some "declare-const", some "define-fun", some "assert", some "check-sat",
          some "get-model"] := by
  refine ⟨by cbv, ⟨_, by cbv; exact .tail _ (.head _), by cbv⟩, by decide +kernel, ?_⟩
  -- the text is long, and its characters are found faster one command at a time
  rw [Sexp.parse, Script.text, String.toList_intercalate, List.map_map]
  decide +kernel

end Pathwise
