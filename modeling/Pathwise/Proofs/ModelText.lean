import Mathlib.Data.List.Infix
import Pathwise.Proofs.Tokens
import Pathwise.Smt.Model

/-!
# Pathwise.Proofs.ModelText

When the constants of a model are found in its text.

Before a text is read, it is searched for the start of a definition as solvers lay it out: a
parenthesis, the keyword and one space, in direct succession (`definitionMark`). Rendered
expressions have this mark if they define a constant (`Sexp.mark_of_definitions`). Other layouts
of the same expressions need not have it, because the reader takes any blanks and comments between
tokens, and then the constants are not found.

So the search is a shortcut that is right for texts in one layout, and the theorem says exactly
when it is wrong for others: the text defines constants and nowhere has the mark. A single mark
anywhere in the text is enough, even one that belongs to another definition or stands inside of a
string.

Nothing is assumed about the solver. The text is any that the reader accepts.
-/

namespace Pathwise

/-! ## Occurrences

The test on characters, and its meaning for texts: something in front, the pattern, and something
behind. -/

namespace Text

/-- The test finds the pattern as a sublist without gaps. -/
theorem occurs_iff {pattern cs : List Char} : occurs pattern cs ↔ pattern <:+: cs := by
  induction cs with
  | nil => rw [occurs, List.isEmpty_iff, List.infix_nil]
  | cons c cs ih =>
      rw [occurs, Bool.or_eq_true, List.isPrefixOf_iff_prefix, ih, List.infix_cons_iff]

/-- A pattern occurs in a text if something stands in front of it and something behind it, both of
which may be empty. -/
theorem contains_iff {s pattern : String} : contains s pattern ↔ ∃ u v, s = u ++ pattern ++ v := by
  rw [contains, occurs_iff]
  constructor
  · rintro ⟨u, v, h⟩
    refine ⟨String.ofList u, String.ofList v, String.toList_inj.1 ?_⟩
    simp [← h]
  · rintro ⟨u, v, rfl⟩
    exact ⟨u.toList, v.toList, by simp⟩

theorem contains_append {s pattern : String} (h : contains s pattern) (u v : String) :
    contains (u ++ s ++ v) pattern := by
  obtain ⟨u', v', rfl⟩ := contains_iff.1 h
  exact contains_iff.2 ⟨u ++ u', v' ++ v, by simp only [String.append_assoc]⟩

/-- What occurs in a piece occurs in the pieces with separators between them. -/
theorem contains_intercalate {s pattern : String} (h : contains s pattern) (sep : String)
    {texts : List String} (hs : s ∈ texts) : contains (sep.intercalate texts) pattern := by
  induction texts with
  | nil => cases hs
  | cons t texts ih =>
      cases texts with
      | nil =>
          rw [String.intercalate_singleton, ← List.mem_singleton.1 hs]
          exact h
      | cons t' texts =>
          rw [String.intercalate_cons_cons]
          rcases List.mem_cons.1 hs with rfl | hs
          · have hfront := contains_append h "" (sep ++ sep.intercalate (t' :: texts))
            rwa [String.empty_append, ← String.append_assoc] at hfront
          · have hback := contains_append (ih hs) (t ++ sep) ""
            rwa [String.append_empty] at hback

end Text

/-! ## Marks of definitions

Definitions may be nested inside of lists, and so may the mark in their text. The induction goes
down to the definition and then up again through the lists around it. -/

namespace Smt

namespace Sexp

/-- Induction over an expression, with the items of a list at once. -/
@[elab_as_elim]
theorem induct {motive : Sexp → Prop} (atom : ∀ text, motive (.atom text))
    (list : ∀ items, (∀ x ∈ items, motive x) → motive (.list items)) (x : Sexp) : motive x :=
  match x with
  | .atom text => atom text
  | .list items => list items fun y _ => induct atom list y

theorem definitionsList_eq_flatMap (xs : List Sexp) :
    definitionsList xs = xs.flatMap definitions := by
  induction xs with
  | nil => rfl
  | cons x xs ih => rw [definitionsList, ih, List.flatMap_cons]

/-- The items of a definition of a constant. -/
theorem eq_of_constant? {items : List Sexp} {x : String × String} (hd : isDefinition items)
    (hc : constant? items = some x) :
    ∃ name sort value, items = [.atom "define-fun", .atom name, .list [], sort, value] := by
  unfold constant? at hc
  split at hc
  · next head name sort value =>
      cases head with
      | atom head =>
          have hhead : head = "define-fun" := by simpa [isDefinition] using hd
          exact ⟨name, sort, value, by rw [hhead]⟩
      | list items => cases hd
  · cases hc

/-- The texts of some expressions have a mark if each of them that defines a constant has one. It
is the step from items to lists of the induction below. -/
theorem mark_of_items {xs : List Sexp}
    (hitems : ∀ x ∈ xs, definitions x ≠ [] → Text.contains x.render definitionMark)
    (h : definitionsList xs ≠ []) :
    Text.contains (" ".intercalate (renderList xs)) definitionMark := by
  have hsome : ∃ x ∈ xs, definitions x ≠ [] := by
    by_contra hnone
    refine h ?_
    rw [definitionsList_eq_flatMap, List.flatMap_eq_nil_iff]
    exact fun x hx => Classical.byContradiction fun hne => hnone ⟨x, hx, hne⟩
  obtain ⟨x, hx, hdefs⟩ := hsome
  refine Text.contains_intercalate (hitems x hx hdefs) " " ?_
  rw [renderList_eq_map]
  exact List.mem_map_of_mem hx

/-- A rendered expression that defines a constant has the mark of a definition, at the place where
the definition begins. -/
theorem mark_of_definitions {x : Sexp} (h : definitions x ≠ []) :
    Text.contains x.render definitionMark := by
  induction x using induct with
  | atom text => exact absurd rfl h
  | list items ih =>
      rw [definitions] at h
      split at h
      -- The list is a definition, and begins with the mark. Otherwise an item has it.
      · next hd =>
          cases hc : constant? items with
          | none =>
              rw [hc] at h
              exact absurd rfl h
          | some a =>
              obtain ⟨name, sort, value, rfl⟩ := eq_of_constant? hd hc
              have hmark : definitionMark = "(" ++ ("define-fun" ++ " ") := rfl
              refine Text.contains_iff.2
                ⟨"", " ".intercalate (renderList [.atom name, .list [], sort, value]) ++ ")", ?_⟩
              rw [render, renderList, renderList, String.intercalate_cons_cons, render, hmark]
              simp only [String.append_assoc, String.empty_append, renderList]
      · rw [render]
        exact Text.contains_append (mark_of_items ih h) "(" ")"

/-- So the text of several expressions has the mark if one of them defines a constant. -/
theorem mark_of_definitionsList {xs : List Sexp} (h : definitionsList xs ≠ []) :
    Text.contains (" ".intercalate (renderList xs)) definitionMark :=
  mark_of_items (fun _ _ => mark_of_definitions) h

end Sexp

/-! ## Models of texts

The model is read in two steps, the test for the mark and the collection of constants. They are
compared by cases on the test. -/

namespace Model

/-- The model of some constants. There is none without constants. -/
def nonempty? (constants : Model) : Option Model :=
  if constants.isEmpty then none else some constants

theorem nonempty?_eq_none_iff {constants : Model} :
    nonempty? constants = none ↔ constants = [] := by
  unfold nonempty?
  cases constants <;> simp

variable {t : String} {xs : List Sexp}

theorem parse_eq (h : Sexp.parse t = .ok xs) :
    Model.parse t = .ok
      (if Text.contains t definitionMark then nonempty? (Sexp.definitionsList xs) else none) := by
  unfold Model.parse
  rw [h]
  cases Text.contains t definitionMark <;> rfl

/-- It has the constants that are defined, if their definitions do not go without a mark. If there
are no constants, the mark makes no difference. -/
theorem parse_of_mark (h : Sexp.parse t = .ok xs)
    (hmark : Sexp.definitionsList xs ≠ [] → Text.contains t definitionMark) :
    Model.parse t = .ok (nonempty? (Sexp.definitionsList xs)) := by
  rw [parse_eq h]
  split
  · rfl
  · next hnot => rw [nonempty?_eq_none_iff.2 (Classical.not_not.1 (mt hmark hnot))]

end Model

/-- The search for a mark changes what is found in a text that can be read if and only if the text
defines constants and is laid out without a mark, and then nothing is found. It changes nothing
once the expressions of the text are rendered with single spaces between them. -/
theorem constants_found_iff_marked {t : String} {xs : List Sexp} (h : Sexp.parse t = .ok xs) :
    (Model.parse t = .ok (Model.nonempty? (Sexp.definitionsList xs)) ↔
      Sexp.definitionsList xs = [] ∨ ∃ u v, t = u ++ "(define-fun " ++ v) ∧
    ((¬ ∃ u v, t = u ++ "(define-fun " ++ v) → Model.parse t = .ok none) ∧
    Model.parse (" ".intercalate (Sexp.renderList xs)) =
      .ok (Model.nonempty? (Sexp.definitionsList xs)) := by
  have hmark : Text.contains t definitionMark ↔ ∃ u v, t = u ++ "(define-fun " ++ v :=
    Text.contains_iff
  refine ⟨⟨fun hparse => ?_, fun hfound => ?_⟩, fun hnot => ?_, ?_⟩
  · refine or_iff_not_imp_right.2 fun hnot => ?_
    rw [Model.parse_eq h, if_neg (mt hmark.1 hnot)] at hparse
    exact Model.nonempty?_eq_none_iff.1 (Except.ok.inj hparse).symm
  · refine Model.parse_of_mark h fun hne => ?_
    exact hmark.2 (hfound.resolve_left hne)
  · rw [Model.parse_eq h, if_neg (mt hmark.1 hnot)]
  · obtain ⟨ys, m, hm, hys, rfl⟩ := Sexp.parse_sound h
    exact Model.parse_of_mark (Sexp.readsTo_renderList hys hm).parse_eq
      Sexp.mark_of_definitionsList

namespace Layouts

/-- The definition of a constant. -/
def constant (name sort value : String) : Sexp :=
  .list [.atom "define-fun", .atom name, .list [], .atom sort, .atom value]

/-- Two definitions, a comment, and blanks of several kinds. One definition has the mark. -/
def marked : String := "(\t( ;first\n define-fun |x y| ()\n\tInt 5)(define-fun z () Bool true))"

/-- A definition with its name on the next line. -/
def broken : String := "((define-fun\n  x () Int 5))"

end Layouts

open Layouts

theorem constants_found_iff_marked_comment :
    Sexp.parse marked = .ok [.list [constant "|x y|" "Int" "5", constant "z" "Bool" "true"]] ∧
      Model.parse marked = .ok (some [("x y", "5"), ("z", "true")]) := by
  have hparse : Sexp.parse marked =
      .ok [.list [constant "|x y|" "Int" "5", constant "z" "Bool" "true"]] := rfl
  have hmark : ∃ u v, marked = u ++ "(define-fun " ++ v :=
    ⟨"(\t( ;first\n define-fun |x y| ()\n\tInt 5)", "z () Bool true))", rfl⟩
  obtain ⟨hfound, -, -⟩ := constants_found_iff_marked hparse
  exact ⟨hparse, hfound.2 (Or.inr hmark)⟩

/-- A line break after the keyword: the text defines a constant, and none is found. -/
theorem broken_definition_not_found :
    Sexp.parse broken = .ok [.list [constant "x" "Int" "5"]] ∧
      Sexp.definitionsList [.list [constant "x" "Int" "5"]] = [("x", "5")] ∧
      Model.parse broken = .ok none := ⟨rfl, rfl, rfl⟩

end Smt

end Pathwise
