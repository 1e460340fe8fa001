import Pathwise.Text.Blank

/-!
# Pathwise.Smt.Sexp

S-expressions as solvers print them.

`Sexp.parse` reads every expression of a text, with a stack of the lists that are still open. A
quoted symbol or string is one atom with its quotes, a semicolon starts a comment up to the end of
the line, and any other atom runs up to a blank or a parenthesis. `Sexp.render` writes an
expression back on one line.

The reader is a machine that takes one character at a time. Its state has two parts: the mode says
what token it is in the middle of, and the stack what lists are open. Every text that does not
close what it has not opened leads to some state, and the only other failure is a list that is
open at the end; a quoted atom or a comment that the text breaks off ends with it.
-/

namespace Pathwise.Smt

inductive Sexp where
  | atom (text : String)
  | list (items : List Sexp)
  deriving Inhabited

/-- Why a text is no list of S-expressions. -/
inductive SexpError where
  /-- A parenthesis closes a list that was not opened. -/
  | unopened
  /-- A list is not closed. -/
  | unclosed
  deriving DecidableEq, Repr

def SexpError.message : SexpError → String
  | unopened => "unbalanced ')' in model"
  | unclosed => "unbalanced '(' in model"

namespace Sexp

mutual

/-- The expression on one line, items separated by single spaces. -/
def render : Sexp → String
  | atom text => text
  | list items => "(" ++ " ".intercalate (renderList items) ++ ")"

/-- The items of a list on one line each. -/
def renderList : List Sexp → List String
  | [] => []
  | s :: ss => render s :: renderList ss

end

/-- The lists that are open while a text is read: the items read so far of the
innermost one, and of those around it, each newest first. -/
structure Open where
  /-- Items of the innermost open list. -/
  inner : List Sexp
  /-- Items of the lists around it, from the inside out. -/
  outer : List (List Sexp)

def Open.start : Open := ⟨[], []⟩

def Open.push (o : Open) (s : Sexp) : Open := ⟨s :: o.inner, o.outer⟩

def Open.enter (o : Open) : Open := ⟨[], o.inner :: o.outer⟩

/-- Close the innermost list, which becomes an item of the list around it. -/
def Open.leave? (o : Open) : Except SexpError Open :=
  match o.outer with
  | [] => .error .unopened
  | items :: outer => .ok ⟨list o.inner.reverse :: items, outer⟩

/-- The expressions at the top level, if no list is open. -/
def Open.finish (o : Open) : Except SexpError (List Sexp) :=
  if o.outer.isEmpty then .ok o.inner.reverse else .error .unclosed

/-- What the reader is in the middle of. The characters of an atom are kept newest
first. -/
inductive Mode where
  /-- Between tokens. -/
  | idle
  /-- In a comment. -/
  | comment
  /-- In an atom that ends after the next `close`. -/
  | quoted (close : Char) (chars : List Char)
  /-- In an atom that ends before the next blank or parenthesis. -/
  | plain (chars : List Char)

/-- The atom of characters that were kept newest first. -/
def atomOf (chars : List Char) : Sexp := atom (String.ofList chars.reverse)

/-- A character between tokens: what it starts. -/
def begin (o : Open) (c : Char) : Except SexpError (Mode × Open) :=
  if c = '(' then .ok (.idle, o.enter)
  else if c = ')' then o.leave?.map (.idle, ·)
  else if c = ';' then .ok (.comment, o)
  else if Text.isBlank c then .ok (.idle, o)
  else if c = '|' || c = '"' then .ok (.quoted c [c], o)
  else .ok (.plain [c], o)

/-- One character in any mode. -/
def step (m : Mode) (o : Open) (c : Char) : Except SexpError (Mode × Open) :=
  match m with
  | .idle => begin o c
  | .comment => .ok (if c = '\n' then .idle else .comment, o)
  | .quoted close chars =>
    if c = close then .ok (.idle, o.push (atomOf (c :: chars)))
    else .ok (.quoted close (c :: chars), o)
  | .plain chars =>
    if Text.isBlank c || c = '(' || c = ')' then begin (o.push (atomOf chars)) c
    else .ok (.plain (c :: chars), o)

/-- The end of the text ends the token that is being read. -/
def close (m : Mode) (o : Open) : Open :=
  match m with
  | .idle | .comment => o
  | .quoted _ chars | .plain chars => o.push (atomOf chars)

/-- Read characters in turn. -/
def run (m : Mode) (o : Open) : List Char → Except SexpError (List Sexp)
  | [] => (close m o).finish
  | c :: cs => do
    let (m, o) ← step m o c
    run m o cs

/-- Every S-expression of a text. -/
def parse (text : String) : Except SexpError (List Sexp) := run .idle .start text.toList

end Sexp

end Pathwise.Smt
