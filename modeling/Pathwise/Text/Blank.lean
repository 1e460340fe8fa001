/-!
# Pathwise.Text.Blank

Blank characters and the operations on text that look for them.

A character is blank when it has the Unicode property White_Space. Solver output and values read
from models are trimmed and split with this class, which is wider than the ASCII one: it holds the
no-break space and the typographic spaces, and it leaves out the zero-width ones.

Texts are worked on as lists of characters. The operations are the usual ones (trim, split,
search) with the class of separators as a parameter; the table of ranges is their only data.
-/

namespace Pathwise.Text

/-- The ranges of the property White_Space, in code point order. -/
def blankRanges : List (Nat × Nat) :=
  [(0x09, 0x0D), (0x20, 0x20), (0x85, 0x85), (0xA0, 0xA0), (0x1680, 0x1680), (0x2000, 0x200A),
   (0x2028, 0x2029), (0x202F, 0x202F), (0x205F, 0x205F), (0x3000, 0x3000)]

/-- Whether `c` has the property White_Space. -/
def isBlank (c : Char) : Bool :=
  blankRanges.any fun (first, last) => first ≤ c.toNat && c.toNat ≤ last

/-- The list without its longest final run of characters in the class `p`. -/
def dropEndWhile (p : Char → Bool) (cs : List Char) : List Char :=
  (cs.reverse.dropWhile p).reverse

/-- The characters between the first and the last that are not in the class `p`. -/
def trimWhile (p : Char → Bool) (cs : List Char) : List Char :=
  dropEndWhile p (cs.dropWhile p)

/-- The text without the blanks around it. -/
def trim (s : String) : String := String.ofList (trimWhile isBlank s.toList)

/-- Cut `cs` at the first character in the class `p`, dropping that character;
`none` when there is no such character. -/
def splitAt? (p : Char → Bool) (cs : List Char) : Option (List Char × List Char) :=
  match cs.dropWhile fun c => !p c with
  | [] => none
  | _ :: rest => some (cs.takeWhile fun c => !p c, rest)

/-- The maximal pieces of `cs` between characters of the class `p`, empty pieces
included: one more piece than there are separators. -/
def pieces (p : Char → Bool) : List Char → List (List Char)
  | [] => [[]]
  | c :: cs =>
    if p c then [] :: pieces p cs
    else match pieces p cs with
      | [] => [[c]]
      | w :: ws => (c :: w) :: ws

/-- The blank-separated words of a text. -/
def words (cs : List Char) : List (List Char) :=
  (pieces isBlank cs).filter fun w => !w.isEmpty

/-- Whether `pattern` occurs in `cs` as a run of consecutive characters. -/
def occurs (pattern : List Char) : List Char → Bool
  | [] => pattern.isEmpty
  | c :: cs => pattern.isPrefixOf (c :: cs) || occurs pattern cs

/-- Whether the text `pattern` occurs in `s`. -/
def contains (s pattern : String) : Bool := occurs pattern.toList s.toList

/-- The rest of `cs` after the marker `m`, if `cs` starts with `m`. -/
def after? : List Char → List Char → Option (List Char)
  | [], cs => some cs
  | _ :: _, [] => none
  | m :: ms, c :: cs => if m = c then after? ms cs else none

end Pathwise.Text
