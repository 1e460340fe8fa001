import Pathwise.Decimal.Format

/-!
# Pathwise.Json.Basic

JSON values and their text.

Programs are stored as JSON and reports can be written as JSON. Objects keep their members in the
order of the text, repeated keys included, because a reader of records has to see both. Numbers
written as plain integers are kept apart from all others, which are floats: `1.0`, `1e2` and `-0`
are numbers, but no integers.

There are two forms of text. `Json.compact` has no blanks at all, and `Json.pretty` one item a
line. Both are defined by recursion over the value together with its lists of items and members,
and differ only in what stands between the items.

What cannot be written has a text as well: a float that is not finite and an unreadable piece both
become `null`, so that the text is always well formed. It does not read back as the same value
then.
-/

namespace Pathwise

inductive Json where
  | null
  | bool (b : Bool)
  /-- A number written without fraction and exponent, and not `-0`. -/
  | int (n : Int)
  /-- Any other number. -/
  | real (x : Float)
  | str (s : String)
  | arr (items : List Json)
  /-- The members in the order of the text. -/
  | obj (members : List (String × Json))
  /-- A well-formed piece of text that stands for no value: a string with half a
  surrogate pair, a number beyond the floats, or an object with such a key. It may
  stand where nobody reads it. -/
  | unreadable
  deriving Inhabited

namespace Json

/-- The lower-case hexadecimal digit of a number below sixteen. -/
def hexDigit (n : Nat) : Char := Nat.digitChar n

/-- A character inside a JSON string. Quotes, backslashes and the control characters
below `0x20` are escaped; everything else stands for itself. -/
def escapeChar (c : Char) : List Char :=
  if c = '"' then ['\\', '"']
  else if c = '\\' then ['\\', '\\']
  else if c = '\n' then ['\\', 'n']
  else if c = '\r' then ['\\', 'r']
  else if c = '\t' then ['\\', 't']
  else if c = '\x08' then ['\\', 'b']
  else if c = '\x0c' then ['\\', 'f']
  else if c.toNat < 0x20 then
    ['\\', 'u', '0', '0', hexDigit (c.toNat / 16), hexDigit (c.toNat % 16)]
  else [c]

/-- A string in quotes. -/
def quote (s : String) : String :=
  String.ofList ('"' :: (s.toList.flatMap escapeChar ++ ['"']))

/-- A float in the layout of expression text. There is no text for one that is not
finite. -/
def realText (x : Float) : String := if x.isFinite then floatText x else "null"

mutual

/-- The text without blanks. -/
def compact : Json → String
  | null => "null"
  | bool b => toString b
  | int n => toString n
  | real x => realText x
  | str s => quote s
  | arr items => "[" ++ ",".intercalate (compactItems items) ++ "]"
  | obj members => "\x7b" ++ ",".intercalate (compactMembers members) ++ "\x7d"
  | unreadable => "null"

def compactItems : List Json → List String
  | [] => []
  | j :: js => compact j :: compactItems js

def compactMembers : List (String × Json) → List String
  | [] => []
  | (k, j) :: ms => (quote k ++ ":" ++ compact j) :: compactMembers ms

end

/-- Two spaces per level. -/
def indent (level : Nat) : String := String.ofList (List.replicate (2 * level) ' ')

/-- A bracketed list with one item a line; an empty one stays on its line. -/
def block (opening closing : String) (level : Nat) (items : List String) : String :=
  if items.isEmpty then opening ++ closing
  else
    let lines := items.map fun item => "\n" ++ indent (level + 1) ++ item
    opening ++ ",".intercalate lines ++ "\n" ++ indent level ++ closing

mutual

/-- The text with one item a line, `level` levels deep. -/
def prettyAt (level : Nat) : Json → String
  | arr items => block "[" "]" level (prettyItems (level + 1) items)
  | obj members => block "\x7b" "\x7d" level (prettyMembers (level + 1) members)
  | null => "null"
  | bool b => toString b
  | int n => toString n
  | real x => realText x
  | str s => quote s
  | unreadable => "null"

def prettyItems (level : Nat) : List Json → List String
  | [] => []
  | j :: js => prettyAt level j :: prettyItems level js

def prettyMembers (level : Nat) : List (String × Json) → List String
  | [] => []
  | (k, j) :: ms => (quote k ++ ": " ++ prettyAt level j) :: prettyMembers level ms

end

/-- The text with one item a line and two spaces of indentation. -/
def pretty (j : Json) : String := prettyAt 0 j

/-- The member under `key`, the first one if there are several. -/
def get? (key : String) : Json → Option Json
  | obj members => members.lookup key
  | _ => none

end Json

end Pathwise
