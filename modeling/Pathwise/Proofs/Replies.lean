import Mathlib.Data.List.TakeWhile
import Pathwise.Proofs.ModelText
import Pathwise.Proofs.Scalars
import Pathwise.Solver.Answer

/-!
# Pathwise.Proofs.Replies

The model in a solver's reply.

A model is a list of definitions, with the word `model` in front of them or without
(`Smt.ModelLayout`). Of each definition without parameters the name and the value are kept, and
the others are dropped. What stands inside a value does not matter: the search for definitions
stops at the outer one (`Smt.Definition.definitions_sexp`). A reply has the answer in its first
line, and blanks may surround the answer and the model (`Smt.Affirms`).

The way from the output to the model has three steps:

* the answer is cut off at the first line break, and blanks are taken off both parts;
* the rest is read as expressions, in any layout that the reader takes (`ModelLayout.Prints`);
* the definitions are collected from them, in order.

A layout other than the rendered one has to show the mark of a definition somewhere. The
requirement is about constants only, for a reply without them has no model in any case.

Names in a model may be quoted with bars. These are taken off, and what a name looks like
afterwards is said by its place inside the quoted one (`Definition.Assigns`) and not by the
function that does it.
-/

namespace Pathwise

/-! ## Parts of a text

Cutting and trimming lists of characters. The class of characters is a parameter, since bars are
trimmed off names and blanks off replies. -/

namespace Text

variable {p : Char → Bool} {cs front back : List Char} {c : Char}

/-- Cutting a text at its first character of a class. -/
theorem splitAt?_append (hfront : ∀ d ∈ front, p d = false) (hc : p c) :
    splitAt? p (front ++ c :: back) = some (front, back) := by
  have hall : ∀ d ∈ front, (!p d) = true := fun d hd => by rw [hfront d hd, Bool.not_false]
  have hdrop : (front ++ c :: back).dropWhile (fun d => !p d) = c :: back := by
    rw [List.dropWhile_append_of_pos hall, List.dropWhile_cons_of_neg (by simp [hc])]
  have htake : (front ++ c :: back).takeWhile (fun d => !p d) = front := by
    rw [List.takeWhile_append_of_pos hall, List.takeWhile_cons_of_neg (by simp [hc]),
      List.append_nil]
  rw [splitAt?, hdrop, htake]

theorem head?_dropWhile (h : (cs.dropWhile p).head? = some c) : p c = false := by
  have hnot := List.head?_dropWhile_not p cs
  rw [h] at hnot
  exact hnot

/-- What is taken off the end of a text. -/
theorem dropEndWhile_append (p : Char → Bool) (cs : List Char) :
    dropEndWhile p cs ++ (cs.reverse.takeWhile p).reverse = cs := by
  rw [dropEndWhile, ← List.reverse_append, List.takeWhile_append_dropWhile, List.reverse_reverse]

/-- A trimmed text is what stands between characters of the class, and has none at its ends. The
two halves together determine it. -/
theorem trimWhile_spec (p : Char → Bool) (cs : List Char) :
    (∃ front back, cs = front ++ trimWhile p cs ++ back ∧ ∀ c ∈ front ++ back, p c) ∧
      (∀ c, (trimWhile p cs).head? = some c → p c = false) ∧
      ∀ c, (trimWhile p cs).getLast? = some c → p c = false := by
  have hparts := dropEndWhile_append p (cs.dropWhile p)
  refine ⟨⟨cs.takeWhile p, ((cs.dropWhile p).reverse.takeWhile p).reverse, ?_, ?_⟩,
    fun c hc => ?_, fun c hc => ?_⟩
  · rw [List.append_assoc, trimWhile, hparts, List.takeWhile_append_dropWhile]
  · refine List.forall_mem_append.2 ⟨fun c hc => List.mem_takeWhile_imp hc, fun c hc => ?_⟩
    exact List.mem_takeWhile_imp (List.mem_reverse.1 hc)
  · have hhead : (cs.dropWhile p).head? = some c := by
      unfold trimWhile at hc
      rw [← hparts, List.head?_append, hc, Option.some_or]
    exact head?_dropWhile hhead
  · rw [trimWhile, dropEndWhile, List.getLast?_reverse] at hc
    exact head?_dropWhile hc

end Text

namespace Smt

/-! ## Definitions

A definition as data, with the expression that it is written as and the entry in the model that it
gives. The value may be any expression, even one that looks like a definition itself. -/

/-- A definition in a model. -/
structure Definition where
  name : String
  params : List Sexp
  sort : Sexp
  value : Sexp

namespace Definition

def sexp (d : Definition) : Sexp :=
  .list [.atom "define-fun", .atom d.name, .list d.params, d.sort, d.value]

/-- The name is a token, and so are all atoms in the other parts. -/
structure WellFormed (d : Definition) : Prop where
  name : Sexp.Token d.name
  params : ∀ x ∈ d.params, x.WellFormed
  sort : d.sort.WellFormed
  value : d.value.WellFormed

/-- The definition has no parameters. -/
def isConstant (d : Definition) : Bool := d.params.isEmpty

/-- What a definition without parameters contributes to the model. -/
def assignment (d : Definition) : String × String := (Sexp.unbar d.name, d.value.render)

/-- The assignments of the definitions without parameters, in order. -/
def model (ds : List Definition) : Model := (ds.filter isConstant).map assignment

/-- The entry `x` is the name of the definition without the bars around it, with its value on one
line. -/
structure Assigns (d : Definition) (x : String × String) : Prop where
  name : ∃ front back, d.name.toList = front ++ x.1.toList ++ back ∧ ∀ c ∈ front ++ back, c = '|'
  first : x.1.toList.head? ≠ some '|'
  last : x.1.toList.getLast? ≠ some '|'
  value : x.2 = d.value.render

variable {d : Definition} {ds : List Definition}

/-- The entry of a definition is what trimming makes of its name, and its value rendered. -/
theorem assigns_assignment (d : Definition) : d.Assigns d.assignment := by
  obtain ⟨⟨front, back, hname, hbars⟩, hfirst, hlast⟩ :=
    Text.trimWhile_spec (fun c => decide (c = '|')) d.name.toList
  have htext : d.assignment.1.toList = Text.trimWhile (fun c => decide (c = '|')) d.name.toList :=
    String.toList_ofList
  refine ⟨⟨front, back, ?_, ?_⟩, ?_, ?_, rfl⟩
  · rw [htext]
    exact hname
  · intro c hc
    exact of_decide_eq_true (hbars c hc)
  · intro hbar
    rw [htext] at hbar
    simpa using hfirst '|' hbar
  · intro hbar
    rw [htext] at hbar
    simpa using hlast '|' hbar

theorem wellFormed_sexp (h : d.WellFormed) : d.sexp.WellFormed := by
  have hkeyword : Sexp.Token "define-fun" := .plain (by decide)
  refine .list ?_
  simp only [List.forall_mem_cons]
  exact ⟨.atom hkeyword, .atom h.name, .list h.params, h.sort, h.value, List.forall_mem_nil _⟩

/-- A definition gives its own assignment or none, whatever its value contains. So a value that
looks like a definition is not taken for one. -/
theorem definitions_sexp (d : Definition) :
    d.sexp.definitions = if d.isConstant then [d.assignment] else [] := by
  obtain ⟨name, params, sort, value⟩ := d
  cases params with
  | nil => rfl
  | cons x xs => rfl

theorem definitionsList_sexp (ds : List Definition) :
    Sexp.definitionsList (ds.map sexp) = model ds := by
  induction ds with
  | nil => rfl
  | cons d ds ih =>
      rw [List.map_cons, Sexp.definitionsList, ih, definitions_sexp, model, model,
        List.filter_cons]
      split <;> rfl

end Definition

/-! ## Layouts of models

Both layouts are one list. They differ in its head, which matters only in that it must not be
taken for the keyword of a definition. -/

/-- What stands in front of the definitions of a model. -/
inductive ModelLayout where
  /-- The word `model`. -/
  | headed
  /-- Nothing. -/
  | bare

namespace ModelLayout

def sexp : ModelLayout → List Definition → Sexp
  | headed, ds => .list (.atom "model" :: ds.map Definition.sexp)
  | bare, ds => .list (ds.map Definition.sexp)

/-- The text is that of a model: rendered on one line, or in any other layout that can be read and
ends with a visible character. A layout of definitions without parameters must have the mark. -/
inductive Prints (l : ModelLayout) (ds : List Definition) : String → Prop where
  | rendered : Prints l ds (l.sexp ds).render
  | laidOut {text : String} {c : Char} (hread : Sexp.parse text = .ok [l.sexp ds])
      (hlast : text.toList.getLast? = some c) (hc : Text.isBlank c = false)
      (hmark : Definition.model ds ≠ [] → Text.contains text definitionMark) : Prints l ds text

variable {l : ModelLayout} {ds : List Definition} {text : String}

theorem wellFormed_sexp (l : ModelLayout) (h : ∀ d ∈ ds, d.WellFormed) :
    (l.sexp ds).WellFormed := by
  have hdefs : ∀ x ∈ ds.map Definition.sexp, x.WellFormed := by
    intro x hx
    obtain ⟨d, hd, rfl⟩ := List.mem_map.1 hx
    exact Definition.wellFormed_sexp (h d hd)
  cases l with
  | headed =>
      have hword : Sexp.Token "model" := .plain (by decide)
      exact .list (List.forall_mem_cons.2 ⟨.atom hword, hdefs⟩)
  | bare => exact .list hdefs

/-- Both layouts give the assignments of the definitions without parameters, in order. The word
`model` is passed over like any other atom. -/
theorem definitionsList_layout (l : ModelLayout) (ds : List Definition) :
    Sexp.definitionsList [l.sexp ds] = Definition.model ds := by
  rw [← Definition.definitionsList_sexp, Sexp.definitionsList, Sexp.definitionsList,
    List.append_nil]
  -- The head of neither list is the keyword: it is the word `model`, or a list.
  cases l with
  | headed => rfl
  | bare => cases ds <;> rfl

theorem getLast?_render (l : ModelLayout) (ds : List Definition) :
    (l.sexp ds).render.toList.getLast? = some ')' := by
  have hlist : ∀ items, (Sexp.list items).render.toList.getLast? = some ')' := by
    intro items
    rw [Sexp.render, String.toList_append]
    exact List.getLast?_concat
  cases l <;> exact hlist _

/-- The text of a model ends with a visible character, so that trimming the output around it
leaves it whole. -/
theorem Prints.getLast? (h : l.Prints ds text) :
    ∃ c, text.toList.getLast? = some c ∧ Text.isBlank c = false := by
  cases h with
  | rendered => exact ⟨')', getLast?_render l ds, by decide⟩
  | laidOut hread hlast hc hmark => exact ⟨_, hlast, hc⟩

/-- The model of a text. A rendered one has the mark of itself, and of any other layout it was
required. -/
theorem Prints.parse_eq (hds : ∀ d ∈ ds, d.WellFormed) (h : l.Prints ds text) :
    Model.parse text = .ok (Model.nonempty? (Definition.model ds)) := by
  have hmodel := definitionsList_layout l ds
  rw [← hmodel]
  cases h with
  | rendered =>
      refine Model.parse_of_mark (l.wellFormed_sexp hds).reads.parse_eq fun hne => ?_
      have hmark := Sexp.mark_of_definitionsList hne
      rwa [Sexp.renderList, Sexp.renderList, String.intercalate_singleton] at hmark
  | laidOut hread hlast hc hmark =>
      rw [← hmodel] at hmark
      exact Model.parse_of_mark hread hmark

end ModelLayout

/-! ## Replies

Blanks may stand in front of the answer, behind it in its line, and behind the model. Trimming
takes them off in two places, once for the output and once for the first line. -/

/-- The outputs of a solver that says yes: the answer in a line of its own and a text, with blanks
around them. -/
inductive Affirms (text : String) : String → Prop where
  | mk {front line back : String} (hfront : front.toList.all Text.isBlank)
      (hline : line.toList.all Text.isBlank) (hbreak : '\n' ∉ line.toList)
      (hback : back.toList.all Text.isBlank) :
      Affirms text (front ++ "sat" ++ line ++ "\n" ++ text ++ back)

variable {text out stderr : String} {c : Char}

/-- The answer and the model of such an output. What is written to the error stream does not
matter if the answer is positive. -/
theorem Affirms.parse_eq (h : Affirms text out) (hlast : text.toList.getLast? = some c)
    (hc : Text.isBlank c = false) {m : Option Model} (hm : Model.parse text = .ok m) :
    SolverAnswer.parse out stderr = .ok (.sat m) := by
  obtain @⟨front, line, back, hfront, hline, hbreak, hback⟩ := h
  rw [List.all_eq_true] at hfront hline hback
  -- The text ends with a visible character, so trimming the output takes nothing off it.
  have hbody : Text.Trimmed Text.isBlank ("sat".toList ++ line.toList ++ '\n' :: text.toList) := by
    refine ⟨⟨'s', rfl, by decide⟩, c, ?_, hc⟩
    rw [List.getLast?_append, List.getLast?_cons, hlast]
    rfl
  have hout : Text.trimWhile Text.isBlank
      (front ++ "sat" ++ line ++ "\n" ++ text ++ back).toList =
        "sat".toList ++ line.toList ++ '\n' :: text.toList := by
    rw [← hbody.trimWhile_append hfront hback]
    simp
  -- The answer has no line break in it, and so the first one is the one behind it.
  have hsplit : Text.splitAt? (fun c => decide (c = '\n'))
      ("sat".toList ++ line.toList ++ '\n' :: text.toList) =
        some ("sat".toList ++ line.toList, text.toList) := by
    have hword : '\n' ∉ "sat".toList := by decide
    refine Text.splitAt?_append (fun d hd => decide_eq_false ?_) (by decide)
    intro hd'
    rw [hd', List.mem_append] at hd
    exact hd.elim hword hbreak
  have hfirst : Text.trimWhile Text.isBlank ("sat".toList ++ line.toList) = "sat".toList := by
    have hword : Text.Trimmed Text.isBlank "sat".toList :=
      ⟨⟨'s', rfl, by decide⟩, 't', rfl, by decide⟩
    have htrim := hword.trimWhile_append (List.forall_mem_nil _) hline
    rwa [List.nil_append] at htrim
  unfold SolverAnswer.parse
  rw [hout, if_neg (by simp), hsplit]
  simp only [hfirst, String.ofList_toList, hm]

/-- The model in a solver's reply, in either layout: the definitions without parameters, in order,
each as its name without the bars around it and its value on one line. There is no model in the
reply if all definitions have parameters. -/
theorem models_extracted {ds : List Definition} (hds : ∀ d ∈ ds, d.WellFormed) :
    List.Forall₂ Definition.Assigns (ds.filter Definition.isConstant) (Definition.model ds) ∧
    ∀ (l : ModelLayout) (text out stderr : String), l.Prints ds text → Affirms text out →
      SolverAnswer.parse out stderr =
        .ok (.sat (Model.nonempty? (Definition.model ds))) := by
  constructor
  · rw [Definition.model, List.forall₂_map_right_iff, List.forall₂_same]
    intro d _
    exact d.assigns_assignment
  · intro l text out stderr hprints haffirms
    obtain ⟨c, hlast, hc⟩ := hprints.getLast?
    exact haffirms.parse_eq hlast hc (hprints.parse_eq hds)

namespace Replying

open Sexp

/-- An auxiliary function. -/
def auxiliary : Definition :=
  ⟨"k!0", [.list [.atom "i", .atom "Int"]], .atom "Int", .atom "i"⟩

/-- A constant whose name has a line break in it, and whose value looks like a definition. -/
def constant : Definition :=
  ⟨"|x\ny|", [], .atom "Int",
    .list [.atom "define-fun", .atom "z", .list [], .atom "Int", .atom "|(|"]⟩

theorem wellFormed_auxiliary : auxiliary.WellFormed := by
  have hint : WellFormed (.atom "Int") := .atom (.plain (by decide))
  have hvar : WellFormed (.atom "i") := .atom (.plain (by decide))
  have hparam : WellFormed (.list [.atom "i", .atom "Int"]) := .list (by simp [hvar, hint])
  exact ⟨.plain (by decide), List.forall_mem_singleton.2 hparam, hint, hvar⟩

theorem wellFormed_constant : constant.WellFormed := by
  have hint : WellFormed (.atom "Int") := .atom (.plain (by decide))
  have hkeyword : WellFormed (.atom "define-fun") := .atom (.plain (by decide))
  have hz : WellFormed (.atom "z") := .atom (.plain (by decide))
  have hempty : WellFormed (.list []) := .list (List.forall_mem_nil _)
  have hparen : "|(|".toList = '|' :: (['('] ++ ['|']) := rfl
  have hquoted : WellFormed (.atom "|(|") := .atom (.quoted hparen (Or.inl rfl) (by decide))
  have hvalue : WellFormed constant.value := .list (by simp [hkeyword, hz, hempty, hint, hquoted])
  have hbreak : "|x\ny|".toList = '|' :: (['x', '\n', 'y'] ++ ['|']) := rfl
  exact ⟨.quoted hbreak (Or.inl rfl) (by decide), List.forall_mem_nil _, hint, hvalue⟩

/-- Both definitions under the word `model`, on one line. -/
def headed : String :=
  " sat\r\n(model (define-fun k!0 ((i Int)) Int i) " ++
    "(define-fun |x\ny| () Int (define-fun z () Int |(|)))\n"

/-- The constant in a bare list, with a comment and few blanks. -/
def bare : String := "(;m\n(define-fun |x\ny|()\tInt(define-fun z()Int |(|)))"

end Replying

open Replying

theorem models_extracted_nested :
    auxiliary.WellFormed ∧ constant.WellFormed ∧
      SolverAnswer.parse headed "" =
        .ok (.sat (some [("x\ny", "(define-fun z () Int |(|)")])) ∧
      SolverAnswer.parse ("sat\n" ++ bare) "" =
        .ok (.sat (some [("x\ny", "(define-fun z () Int |(|)")])) ∧
      SolverAnswer.parse "sat\n((define-fun k!0 ((i Int)) Int i))" "" = .ok (.sat none) := by
  have hreply : ∀ ds, (∀ d ∈ ds, d.WellFormed) → ∀ (l : ModelLayout) (text out stderr : String),
      l.Prints ds text → Affirms text out →
        SolverAnswer.parse out stderr = .ok (.sat (Model.nonempty? (Definition.model ds))) :=
    fun ds hds => (models_extracted hds).2
  have hboth : ∀ d ∈ [auxiliary, constant], d.WellFormed :=
    List.forall_mem_cons.2 ⟨wellFormed_auxiliary, List.forall_mem_singleton.2 wellFormed_constant⟩
  have hheaded : Affirms (ModelLayout.headed.sexp [auxiliary, constant]).render
      (" " ++ "sat" ++ "\r" ++ "\n" ++ (ModelLayout.headed.sexp [auxiliary, constant]).render ++
        "\n") := .mk (by decide) (by decide) (by decide) (by decide)
  have hbare : Affirms bare ("" ++ "sat" ++ "" ++ "\n" ++ bare ++ "") :=
    .mk (by decide) (by decide) (by decide) (by decide)
  have hprints : ModelLayout.bare.Prints [constant] bare :=
    .laidOut rfl (by decide : bare.toList.getLast? = some ')') (by decide)
      fun _ => by decide +kernel
  have hnone : Affirms (ModelLayout.bare.sexp [auxiliary]).render
      ("" ++ "sat" ++ "" ++ "\n" ++ (ModelLayout.bare.sexp [auxiliary]).render ++ "") :=
    .mk (by decide) (by decide) (by decide) (by decide)
  exact ⟨wellFormed_auxiliary, wellFormed_constant,
    hreply _ hboth .headed _ headed "" .rendered hheaded,
    hreply _ (List.forall_mem_singleton.2 wellFormed_constant) .bare bare _ "" hprints hbare,
    hreply _ (List.forall_mem_singleton.2 wellFormed_auxiliary) .bare _ _ "" .rendered hnone⟩

end Smt

end Pathwise
