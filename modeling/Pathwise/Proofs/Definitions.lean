import Pathwise.Proofs.Evaluation
import Pathwise.Proofs.Lexicon
import Pathwise.Proofs.WellTyped
import Pathwise.Smt.Checker

/-!
# Pathwise.Proofs.Definitions

In which order a script introduces the symbols that it applies.

A solver reads a script from top to bottom, so a predicate has to be defined before a term applies
it, and any other function has to be declared (`Script.InOrder`). A script has the declarations
first, then the definitions of all predicates in the order of the program, then the assertion. So
the only thing that can go wrong is the order of the definitions among themselves
(`Smt.inOrder_definitions`), and validation does not look at it: a body may apply a predicate that
comes later in the program.

For this the symbols that a term applies have to be traced back to the expression that it encodes
(`Expr.uses_of_names`): each of them is a predicate that is applied there or a function that is
called. The constants of a term are traced along the way; they are variables of the expression and
lengths of arrays.

The functions come from two places, the formula and the bodies of the registered predicates, and
are declared in one table. A function of both is declared once, with the predicates.
-/

namespace Pathwise

open Smt

/-! ## Names in terms

All names in a term, with the use that is made of them. Only applied symbols matter for the order
of definitions; the constants are there because the text of a script is about all names alike. -/

namespace Smt

/-- What a name in a term stands for. -/
inductive Use where
  /-- A constant or a bound variable. -/
  | constant
  /-- A symbol that is applied. -/
  | head
  deriving DecidableEq

namespace Term

mutual

def names : Term → List (Use × String)
  | bool _ | int _ | real _ => []
  | const x => [(.constant, x)]
  | not t | neg t => names t
  | and ts | or ts | distinct ts => namesList ts
  | ite c t e => names c ++ names t ++ names e
  | binary _ l r => names l ++ names r
  | store array index value => names array ++ names index ++ names value
  | quant _ vars body => vars.map (fun v => (.constant, v.1)) ++ names body
  | app f ts => (.head, f) :: namesList ts

def namesList : List Term → List (Use × String)
  | [] => []
  | t :: ts => names t ++ namesList ts

end

/-- The symbols that a term applies. -/
def heads (t : Term) : List String :=
  t.names.filterMap fun n => if n.1 = .head then some n.2 else none

theorem mem_namesList {ts : List Term} {n : Use × String} :
    n ∈ namesList ts ↔ ∃ t ∈ ts, n ∈ t.names := by
  induction ts with
  | nil => simp [namesList]
  | cons t ts ih => simp [namesList, ih]

theorem mem_heads {t : Term} {x : String} : x ∈ t.heads ↔ (.head, x) ∈ t.names := by
  simp [heads]

end Term

namespace Command

/-- The symbols that the term of a command applies. -/
def heads : Command → List String
  | defineFun _ _ _ body => body.heads
  | assert t => t.heads
  | _ => []

/-- The symbol that a command defines. -/
def defined? : Command → Option String
  | defineFun name _ _ _ => some name
  | _ => none

/-- The function that a command declares. -/
def declared? : Command → Option String
  | declareFun name _ _ => some name
  | _ => none

end Command

namespace Script

/-- The commands introduce a symbol: a predicate by its definition, any other function by its
declaration. The list has the names of the predicates. -/
def Introduces (names : List String) (s : Script) (x : String) : Prop :=
  if x ∈ names then x ∈ s.filterMap Command.defined? else x ∈ s.filterMap Command.declared?

/-- Each symbol is introduced before it is applied: by a definition if it is one of the names, and
by a declaration if not. The commands `before` have been read. -/
def InOrder (names : List String) (before : Script) : Script → Prop
  | [] => True
  | c :: rest => (∀ x ∈ c.heads, Introduces names before x) ∧ InOrder names (before ++ [c]) rest

instance (names : List String) (s : Script) (x : String) : Decidable (Introduces names s x) :=
  inferInstanceAs (Decidable
    (if x ∈ names then x ∈ s.filterMap Command.defined? else x ∈ s.filterMap Command.declared?))

instance decidableInOrder (names : List String) :
    (before s : Script) → Decidable (InOrder names before s)
  | _, [] => .isTrue trivial
  | before, c :: rest =>
    have := decidableInOrder names (before ++ [c]) rest
    inferInstanceAs (Decidable (_ ∧ _))

variable {names : List String} {before s t : Script}

/-- Two parts are in order if the second one is so after the first. -/
theorem inOrder_append :
    InOrder names before (s ++ t) ↔ InOrder names before s ∧ InOrder names (before ++ s) t := by
  induction s generalizing before with
  | nil => simp [InOrder]
  | cons c rest ih => simp [InOrder, ih, and_assoc]

/-- Commands that apply nothing are in order. -/
theorem inOrder_of_heads (h : ∀ c ∈ s, c.heads = []) : InOrder names before s := by
  induction s generalizing before with
  | nil => trivial
  | cons c rest ih =>
      obtain ⟨hc, hrest⟩ := List.forall_mem_cons.1 h
      refine ⟨?_, ih hrest⟩
      rw [hc]
      exact List.forall_mem_nil _

end Script

end Smt

/-! ## Encoded expressions

The encoding adds no names of its own. An application passes the lengths of its array arguments as
further arguments, so lengths have to be followed as well, in the same induction. -/

/-- An operator has the names of its operands, however it is encoded. -/
theorem BinOp.names_encode (op : BinOp) (u : Ty) (l r : Term) :
    (op.encode u l r).names = l.names ++ r.names := by
  cases op <;> simp [encode, Term.names, Term.namesList]

namespace Expr

theorem mem_encodeList {es : List Expr} {t : Term} :
    t ∈ encodeList es ↔ ∃ e ∈ es, e.encode = t := by
  induction es with
  | nil => simp [encodeList]
  | cons e es ih => simp [encodeList, ih, eq_comm]

/-- The length arguments of an application are those of its arguments. -/
theorem mem_encodeLengths {es : List Expr} {t : Term} (h : t ∈ encodeLengths es) :
    ∃ e ∈ es, t ∈ e.encodeLength := by
  induction es with
  | nil => cases h
  | cons e es ih =>
      rw [encodeLengths] at h
      rcases List.mem_append.1 h with h | h
      · split at h
        · exact ⟨e, List.mem_cons_self, h⟩
        · cases h
      · obtain ⟨d, hd, ht⟩ := ih h
        exact ⟨d, List.mem_cons_of_mem _ hd, ht⟩

/-- A name comes from the expression: a constant is a variable or the length of one, and what is
applied is a predicate or a function. -/
def Uses (e : Expr) : Use × String → Prop
  | (.constant, x) => x ∈ e.mentions.map Variable.name
  | (.head, x) => x ∈ e.predicateNames ∨ x ∈ e.symbols.map Prod.fst

theorem Uses.of_child {c e : Expr} {n : Use × String} (hc : c ∈ e.children) (h : c.Uses n) :
    e.Uses n := by
  obtain ⟨use, x⟩ := n
  cases use with
  | constant => exact List.map_subset Variable.name (mentions_subset_of_child hc) h
  | head =>
      exact h.imp (fun hx => predicateNames_subset_of_child hc hx)
        fun hx => List.map_subset Prod.fst (symbols_subset_of_child hc) hx

/-- The names in the terms of an expression and of its length come from the expression. Constants
are its variables, and heads of applications are its predicates and function symbols. -/
theorem uses_of_names {e : Expr} {n : Use × String} :
    (n ∈ e.encode.names → e.Uses n) ∧ ∀ t ∈ e.encodeLength, n ∈ t.names → e.Uses n := by
  induction e using childInduct with
  | step e ih =>
      have hchild : ∀ c ∈ e.children, n ∈ c.encode.names → e.Uses n := fun c hc hn =>
        .of_child hc ((ih c hc).1 hn)
      constructor
      · intro hn
        cases e with
        | var v =>
            rw [encode, Term.names, List.mem_singleton] at hn
            rw [hn]
            exact List.mem_map_of_mem (by simp)
        | int k => cases hn
        | float x => cases hn
        | bool b => cases hn
        | unary op d =>
            refine hchild d (by simp [children]) ?_
            cases op <;> exact hn
        | binary op l r =>
            rw [encode, BinOp.names_encode] at hn
            rcases List.mem_append.1 hn with hn | hn
            · exact hchild l (by simp [children]) hn
            · exact hchild r (by simp [children]) hn
        | quant q v body =>
            rcases List.mem_append.1 hn with hn | hn
            · cases List.mem_singleton.1 hn
              exact List.mem_map_of_mem (List.mem_flatMap.2
                ⟨_, self_mem_visit _, v.self_mem_withLength⟩)
            · exact hchild body (by simp [children]) hn
        | read a i =>
            rcases List.mem_append.1 hn with hn | hn
            · exact hchild a (by simp [children]) hn
            · exact hchild i (by simp [children]) hn
        | update a i d l =>
            simp only [encode, Term.names, List.mem_append] at hn
            rcases hn with (hn | hn) | hn
            · exact hchild a (by simp [children]) hn
            · exact hchild i (by simp [children]) hn
            · exact hchild d (by simp [children]) hn
        -- the symbol of the application itself, or a name of an argument
        | call f args t =>
            rw [encode, Term.names] at hn
            rcases List.mem_cons.1 hn with rfl | hn
            · right
              exact List.mem_map.2 ⟨_, List.mem_filterMap.2 ⟨_, self_mem_visit _, rfl⟩, rfl⟩
            · obtain ⟨t, ht, hn⟩ := Term.mem_namesList.1 hn
              obtain ⟨c, hc, rfl⟩ := mem_encodeList.1 ht
              exact hchild c hc hn
        | app p args =>
            rw [encode, Term.names] at hn
            rcases List.mem_cons.1 hn with rfl | hn
            · exact Or.inl (mem_predicateNames.2 ⟨args, self_mem_visit _⟩)
            · obtain ⟨t, ht, hn⟩ := Term.mem_namesList.1 hn
              rcases List.mem_append.1 ht with ht | ht
              · obtain ⟨c, hc, rfl⟩ := mem_encodeList.1 ht
                exact hchild c hc hn
              -- a length argument, which the second half is about
              · obtain ⟨c, hc, ht⟩ := mem_encodeLengths ht
                exact .of_child hc ((ih c hc).2 t ht hn)
      · intro t ht hn
        cases e with
        | var v =>
            simp only [encodeLength, Option.mem_toList, Option.map_eq_some_iff] at ht
            obtain ⟨l, hl, rfl⟩ := ht
            rw [Term.names, List.mem_singleton] at hn
            rw [hn]
            exact List.mem_map_of_mem (by simp [hl])
        | update a i d l =>
            rw [encodeLength, List.mem_singleton] at ht
            exact hchild l (by simp [children]) (ht ▸ hn)
        | _ => cases ht

end Expr

/-! ## Scripts

A script is cut into the commands before the definitions, the definitions, and the rest. Only the
middle part can be out of order. -/

namespace Smt

variable {e : Expr} {names : List String} {before : Script}

/-- The commands of a script before the definitions. -/
def CheckerState.prelude (s : CheckerState) (e : Expr) : Script :=
  [.setOption "produce-models" "true", .setLogic "ALL"] ++
    e.declarations.filter (fun c => !declares s.symbols c) ++
    s.symbols.entries.map (fun (f, types) => declareSymbol f types)

theorem CheckerState.script_eq (s : CheckerState) (e : Expr) :
    s.script e = s.prelude e ++ s.predicates.map Predicate.definition ++
      [.assert (.not e.encode), .checkSat, .getModel] := rfl

/-- Before the definitions there are options, the logic, and declarations. -/
theorem CheckerState.prelude_cases {s : CheckerState} {c : Command} (hc : c ∈ s.prelude e) :
    (∃ key value, c = .setOption key value) ∨ (∃ logic, c = .setLogic logic) ∨
      (∃ x sort, c = .declareConst x sort) ∨
      ∃ f params result, c = .declareFun f params result := by
  unfold prelude Expr.declarations declareSymbol at hc
  simp only [List.mem_append, List.mem_cons, List.not_mem_nil, or_false, List.mem_filter,
    List.mem_map] at hc
  rcases hc with ((rfl | rfl) | ⟨⟨a, -, rfl⟩ | ⟨a, -, rfl⟩, -⟩) | ⟨a, -, rfl⟩
  · exact Or.inl ⟨_, _, rfl⟩
  · exact Or.inr (Or.inl ⟨_, rfl⟩)
  · exact Or.inr (Or.inr (Or.inl ⟨_, _, rfl⟩))
  · exact Or.inr (Or.inr (Or.inr ⟨_, _, _, rfl⟩))
  · exact Or.inr (Or.inr (Or.inr ⟨_, _, _, rfl⟩))

/-- What comes before the definitions neither applies nor defines anything. -/
theorem CheckerState.mem_prelude {s : CheckerState} {c : Command} (hc : c ∈ s.prelude e) :
    c.heads = [] ∧ c.defined? = none := by
  rcases prelude_cases hc with ⟨_, _, rfl⟩ | ⟨_, rfl⟩ | ⟨_, _, rfl⟩ | ⟨_, _, _, rfl⟩ <;>
    exact ⟨rfl, rfl⟩

theorem CheckerState.defined_prelude (s : CheckerState) (e : Expr) :
    (s.prelude e).filterMap Command.defined? = [] :=
  List.filterMap_eq_nil_iff.2 fun _ hc => (mem_prelude hc).2

/-- Each predicate is defined once, in the order of registration. -/
theorem defined_definitions (qs : List Predicate) :
    (qs.map Predicate.definition).filterMap Command.defined? = qs.map Predicate.name := by
  rw [List.filterMap_map]
  show qs.filterMap (some ∘ Predicate.name) = _
  rw [List.filterMap_eq_map]

/-- The table of function symbols is made from the symbols of the predicates. -/
theorem extends_symbols {l : List (String × Expr.SymbolTypes)} {qs : List Predicate}
    (hl : ∀ q ∈ qs, q.body.symbols ⊆ l) (out : SortedMap String Expr.SymbolTypes) :
    SortedMap.Extends l out (qs.foldl (fun out q => out.union q.body.functionSymbols) out) := by
  induction qs generalizing out with
  | nil => exact .refl l out
  | cons q rest ih =>
      obtain ⟨hq, hrest⟩ := List.forall_mem_cons.1 hl
      have hsymbols : SortedMap.Extends l .empty q.body.functionSymbols := by
        rw [Expr.functionSymbols_eq]
        exact Expr.extends_addSymbols hq .empty
      exact (hsymbols.union out).trans (ih hrest _)

theorem isSome_symbols {qs : List Predicate} {q : Predicate} (hq : q ∈ qs) {x : String}
    (hx : x ∈ q.body.symbols.map Prod.fst) (out : SortedMap String Expr.SymbolTypes) :
    ((qs.foldl (fun out q => out.union q.body.functionSymbols) out).find? x).isSome := by
  induction qs generalizing out with
  | nil => cases hq
  | cons r rs ih =>
      rcases List.mem_cons.1 hq with rfl | hq
      · obtain ⟨a, ha, rfl⟩ := List.mem_map.1 hx
        refine (extends_symbols (l := rs.flatMap fun r => r.body.symbols)
          (fun r hr b hb => List.mem_flatMap.2 ⟨r, hr, hb⟩) _).keeps ?_
        rw [SortedMap.find?_union out q.body.sorted_functionSymbols, Option.isSome_or,
          Expr.functionSymbols_eq, Expr.isSome_addSymbols ha, Bool.true_or]
      · exact ih hq _

/-- The functions of the registered predicates are declared. -/
theorem CheckerState.declared_of_contains {s : CheckerState} {x : String}
    (h : (s.symbols.find? x).isSome) : x ∈ (s.prelude e).filterMap Command.declared? := by
  obtain ⟨types, htypes⟩ := Option.isSome_iff_exists.1 h
  refine List.mem_filterMap.2 ⟨declareSymbol x types, List.mem_append_right _ ?_, rfl⟩
  exact List.mem_map.2 ⟨(x, types), SortedMap.mem_of_lookup htypes, rfl⟩

/-- The functions of the formula are declared, by itself or for the predicates. -/
theorem CheckerState.declared_of_symbols {s : CheckerState} {x : String}
    (hx : x ∈ e.symbols.map Prod.fst) : x ∈ (s.prelude e).filterMap Command.declared? := by
  by_cases hs : (s.symbols.find? x).isSome
  · exact declared_of_contains hs
  · obtain ⟨a, ha, rfl⟩ := List.mem_map.1 hx
    obtain ⟨types, htypes⟩ := Option.isSome_iff_exists.1 (Expr.isSome_addSymbols ha .empty)
    refine List.mem_filterMap.2 ⟨declareSymbol a.1 types, ?_, rfl⟩
    refine List.mem_append_left _ (List.mem_append_right _ (List.mem_filter.2 ⟨?_, ?_⟩))
    · exact List.mem_append_right _ (List.mem_map.2 ⟨(a.1, types),
        SortedMap.mem_of_lookup htypes, rfl⟩)
    · rw [declareSymbol, declares, SortedMap.contains]
      simpa using hs

/-- Definitions are in order if and only if no body applies the symbol of its own definition or
of a later one. -/
theorem inOrder_definitions {qs : List Predicate} {seen : List String}
    (hn : (seen ++ qs.map Predicate.name).Nodup)
    (hseen : before.filterMap Command.defined? = seen)
    (hd : ∀ q ∈ qs, ∀ x ∈ q.body.encode.heads, x ∉ seen ++ qs.map Predicate.name →
      x ∈ before.filterMap Command.declared?) :
    Script.InOrder (seen ++ qs.map Predicate.name) before (qs.map Predicate.definition) ↔
      (∀ q ∈ qs, q.name ∉ q.body.encode.heads) ∧
        qs.Pairwise fun q r => r.name ∉ q.body.encode.heads := by
  induction qs generalizing seen before with
  | nil => simp [Script.InOrder]
  | cons q rs ih =>
      have hnames : seen ++ (q :: rs).map Predicate.name =
          (seen ++ [q.name]) ++ rs.map Predicate.name := by simp
      have hfirst : (∀ x ∈ q.body.encode.heads,
          Script.Introduces (seen ++ (q :: rs).map Predicate.name) before x) ↔
          ∀ r ∈ q :: rs, r.name ∉ q.body.encode.heads := by
        constructor
        · intro h r hr hx
          -- a predicate that is still to come has not been defined
          have hlater : r.name ∈ (q :: rs).map Predicate.name := List.mem_map_of_mem hr
          have hin := h r.name hx
          rw [Script.Introduces, if_pos (List.mem_append_right _ hlater), hseen] at hin
          exact (List.nodup_append.1 hn).2.2 r.name hin r.name hlater rfl
        · intro h x hx
          rw [Script.Introduces]
          split
          · next hmem =>
              rw [hseen]
              refine (List.mem_append.1 hmem).resolve_right fun hlater => ?_
              obtain ⟨r, hr, rfl⟩ := List.mem_map.1 hlater
              exact h r hr hx
          · next hmem => exact hd q List.mem_cons_self x hx hmem
      show (∀ x ∈ q.body.encode.heads, Script.Introduces _ before x) ∧
        Script.InOrder _ (before ++ [q.definition]) (rs.map Predicate.definition) ↔ _
      rw [hfirst, hnames, ih (hnames ▸ hn)]
      · rw [List.forall_mem_cons, List.forall_mem_cons, List.pairwise_cons]
        tauto
      · rw [List.filterMap_append, hseen]
        rfl
      · intro r hr x hx hmem
        rw [List.filterMap_append]
        exact List.mem_append_left _ (hd r (List.mem_cons_of_mem _ hr) x hx (hnames ▸ hmem))

end Smt

/-! ## Programs

What is known of a validated program: names of predicates are different, bodies are checked, and
the formulas that arise apply predicates of the program only. -/

namespace Program

variable {p : Program} {e : Expr}

/-- No predicate applies itself or one that comes later in the program. -/
def DefinesInOrder (p : Program) : Prop :=
  (∀ q ∈ p.predicates, q.name ∉ q.body.encode.heads) ∧
    p.predicates.Pairwise fun q r => r.name ∉ q.body.encode.heads

instance (p : Program) : Decidable p.DefinesInOrder :=
  inferInstanceAs (Decidable ((∀ q ∈ p.predicates, q.name ∉ q.body.encode.heads) ∧
    p.predicates.Pairwise fun q r => r.name ∉ q.body.encode.heads))

/-- A formula about a program: an expression that has a type, or the condition of a path. The
verifier asks a checker for the conditions, and others may ask it for any expression. -/
def Poses (p : Program) (e : Expr) : Prop :=
  (∃ t, p.check e = .ok t) ∨
    ∃ f ∈ p.functions, ∃ q ∈ (f.paths p).toList, p.condition f q = .ok e

/-- All variables and functions, and the predicates of a program. Names of predicates are the only
ones that are restricted. -/
def lexicon (p : Program) : Lexicon where
  Var _ := True
  Symbol _ := True
  Pred x := x ∈ p.predicates.map Predicate.name
  length _ _ := trivial
  fresh _ _ := trivial

theorem admits_lexicon (he : ∀ x ∈ e.predicateNames, x ∈ p.predicates.map Predicate.name) :
    p.lexicon.Admits e := by
  intro d hd
  cases d with
  | app x args => exact he x (Expr.mem_predicateNames.2 ⟨args, hd⟩)
  | _ => trivial

/-- A formula about a program applies predicates of the program. -/
theorem Poses.predicateNames (hv : p.validate = .ok ()) (he : p.Poses e) :
    ∀ x ∈ e.predicateNames, x ∈ p.predicates.map Predicate.name := by
  rcases he with ⟨t, hc⟩ | ⟨f, hf, q, hq, hvc⟩
  · exact fun x => mem_names_of_check hc
  · refine (Lexicon.admits_condition (L := p.lexicon) (fun g hg => ?_) hv hf hq hvc).predicateNames
    have hc := Function.checked_of_validate hv hg
    refine ⟨fun _ _ => trivial, fun d hd => admits_lexicon fun x => ?_⟩
    obtain ⟨t, ht⟩ := hc.check_of_mem_exprs hd
    exact mem_names_of_check ht

/-- A symbol that a formula about a program applies is the symbol of a predicate or of a function
of the formula. -/
theorem mem_symbols_of_heads (he : ∀ x ∈ e.predicateNames, x ∈ p.predicates.map Predicate.name)
    {x : String} (hx : x ∈ e.encode.heads) (hn : x ∉ p.predicates.map Predicate.name) :
    x ∈ e.symbols.map Prod.fst :=
  (Expr.uses_of_names.1 (Term.mem_heads.1 hx)).resolve_left fun h => hn (he x h)

/-- The script of a formula about a program is in order if and only if the program is. The
definitions come in the order of registration, and nothing sorts them. -/
theorem inOrder_script_iff (hv : p.validate = .ok ()) {s : CheckerState}
    (hs : s.predicates = p.predicates)
    (he : ∀ x ∈ e.predicateNames, x ∈ p.predicates.map Predicate.name) :
    Script.InOrder (p.predicates.map Predicate.name) [] (s.script e) ↔ p.DefinesInOrder := by
  have hprelude : Script.InOrder (p.predicates.map Predicate.name) [] (s.prelude e) :=
    Script.inOrder_of_heads fun c hc => (CheckerState.mem_prelude hc).1
  have hdefinitions : Script.InOrder ([] ++ p.predicates.map Predicate.name) (s.prelude e)
      (p.predicates.map Predicate.definition) ↔ p.DefinesInOrder := by
    refine inOrder_definitions (nodup_predicates hv) (s.defined_prelude e) fun q hq x hx hn => ?_
    have hbody := mem_symbols_of_heads (fun y => mem_names_of_check (check_body hv hq)) hx hn
    refine CheckerState.declared_of_contains ?_
    rw [CheckerState.symbols, hs]
    exact isSome_symbols hq hbody _
  have hassert : Script.InOrder (p.predicates.map Predicate.name)
      (s.prelude e ++ p.predicates.map Predicate.definition)
      [.assert (.not e.encode), .checkSat, .getModel] := by
    refine ⟨fun x hx => ?_, List.forall_mem_nil _, List.forall_mem_nil _, trivial⟩
    -- a predicate has been defined, and everything else declared in the prelude
    rw [Script.Introduces, List.filterMap_append, List.filterMap_append, defined_definitions]
    split
    · next hmem => exact List.mem_append_right _ hmem
    · next hmem =>
        exact List.mem_append_left _
          (CheckerState.declared_of_symbols (mem_symbols_of_heads he hx hmem))
  rw [CheckerState.script_eq, hs, Script.inOrder_append, Script.inOrder_append, ← hdefinitions]
  exact ⟨fun h => h.1.2, fun h => ⟨⟨hprelude, h⟩, hassert⟩⟩

end Program

/-- In the script of a formula about a validated program all predicates are defined before the
assertion, those that the formula applies among them. Before a definition or the assertion applies
a predicate it has been defined, and any other function has been declared, if and only if no
predicate of the program applies itself or one that comes later. -/
theorem definitions_precede_uses {p : Program} (hv : p.validate = .ok ()) {s : CheckerState}
    (hs : s.predicates = p.predicates) {e : Expr} (he : p.Poses e) :
    (∃ front, s.script e = front ++ [.assert (.not e.encode), .checkSat, .getModel] ∧
      front.filterMap Command.defined? = p.predicates.map Predicate.name ∧
      ∀ x ∈ e.predicateNames, x ∈ front.filterMap Command.defined?) ∧
    (Script.InOrder (p.predicates.map Predicate.name) [] (s.script e) ↔ p.DefinesInOrder) := by
  have hnames := he.predicateNames hv
  have hdefined : (s.prelude e ++ p.predicates.map Predicate.definition).filterMap
      Command.defined? = p.predicates.map Predicate.name := by
    rw [List.filterMap_append, s.defined_prelude, defined_definitions, List.nil_append]
  refine ⟨⟨_, by rw [CheckerState.script_eq, hs], hdefined, ?_⟩,
    Program.inOrder_script_iff hv hs hnames⟩
  rwa [hdefined]

namespace Bounds

/-- The predicate that the other one applies comes first. -/
def ordered : Program := { pair with predicates := [close, near] }

end Bounds

/-- The definition of `close` comes before that of `near`, which applies it. -/
theorem definitions_precede_uses_ordered :
    Bounds.ordered.validate = .ok () ∧ Bounds.ordered.Poses Bounds.question ∧
      Bounds.ordered.DefinesInOrder ∧ "close" ∈ Bounds.near.body.encode.heads ∧
      Script.InOrder ["close", "near"] []
        (CheckerState.script ⟨Bounds.ordered.predicates, 0⟩ Bounds.question) := by
  have hv : Bounds.ordered.validate = .ok () := rfl
  have he : Bounds.ordered.Poses Bounds.question := Or.inl ⟨.bool, rfl⟩
  have ho : Bounds.ordered.DefinesInOrder := by decide +kernel
  exact ⟨hv, he, ho, by decide, (definitions_precede_uses hv rfl he).2.2 ho⟩

/-- Validation accepts the predicates in the other order. Then `near` is defined first, by a term
that applies `close`. -/
theorem definitions_out_of_order :
    Bounds.pair.validate = .ok () ∧ Bounds.pair.check Bounds.question = .ok .bool ∧
      (CheckerState.script ⟨Bounds.pair.predicates, 0⟩ Bounds.question).filterMap
        Command.defined? = ["near", "close"] ∧
      "close" ∈ Bounds.near.body.encode.heads ∧
      ¬ Script.InOrder ["near", "close"] []
        (CheckerState.script ⟨Bounds.pair.predicates, 0⟩ Bounds.question) :=
  ⟨rfl, rfl, rfl, by decide, by decide +kernel⟩

end Pathwise
