import Pathwise.Decimal.Scaled
import Pathwise.Json.Basic

/-!
# Pathwise.Json.Reader

Reading JSON text.

The grammar is the strict one: blanks are space, tab, line feed and carriage return; there are no
comments, no trailing commas and no leading zeros; a string holds no raw control character below
`0x20`. A surrogate escape outside a pair and a number that overflows the floats are well formed
but stand for no value, so they give `Json.unreadable` instead of an error.

Every function reads something off the front of a list of characters and gives it back with the
rest of the list, or `none`. Nesting is bounded by fuel, one unit for each call among `value?`,
`items?` and `members?`; `Json.parse?` starts with more fuel than a text can use up, so running
out of it never decides an answer.

That what is written is read back, with any text behind it, is shown in
`Pathwise.Proofs.JsonText`.
-/

namespace Pathwise.Json

/-- Blanks between tokens. -/
def isSpace (c : Char) : Bool := c = ' ' || c = '\t' || c = '\n' || c = '\r'

/-- The text from its first character that is not a blank. -/
def skipSpace (cs : List Char) : List Char := cs.dropWhile isSpace

/-! ## Strings

A string is read in two steps. First it is cut into pieces, which settles where it ends; then the
pieces are joined, which may fail. A string that ends properly and cannot be joined is unreadable
but does not spoil the text around it. -/

/-- The value of a hexadecimal digit. -/
def hexValue? (c : Char) : Option Nat :=
  if '0' ≤ c ∧ c ≤ '9' then some (c.toNat - '0'.toNat)
  else if 'a' ≤ c ∧ c ≤ 'f' then some (c.toNat - 'a'.toNat + 10)
  else if 'A' ≤ c ∧ c ≤ 'F' then some (c.toNat - 'A'.toNat + 10)
  else none

/-- The 16-bit unit of four hexadecimal digits. -/
def hexUnit? (a b c d : Char) : Option Nat := do
  let a ← hexValue? a
  let b ← hexValue? b
  let c ← hexValue? c
  let d ← hexValue? d
  return ((a * 16 + b) * 16 + c) * 16 + d

/-- A piece of a string: a character, or a 16-bit unit written as an escape. -/
inductive Piece where
  | char (c : Char)
  | unit (n : Nat)

/-- The character that a one-letter escape stands for. -/
def simpleEscape? (c : Char) : Option Char :=
  if c = '"' || c = '\\' || c = '/' then some c
  else if c = 'b' then some '\x08'
  else if c = 'f' then some '\x0c'
  else if c = 'n' then some '\n'
  else if c = 'r' then some '\r'
  else if c = 't' then some '\t'
  else none

/-- The pieces of a string up to its closing quote, and what follows it. -/
def pieces? : List Char → Option (List Piece × List Char)
  | '"' :: rest => some ([], rest)
  | '\\' :: 'u' :: a :: b :: c :: d :: rest => do
    let n ← hexUnit? a b c d
    let (ps, rest) ← pieces? rest
    return (.unit n :: ps, rest)
  | '\\' :: e :: rest => do
    let c ← simpleEscape? e
    let (ps, rest) ← pieces? rest
    return (.char c :: ps, rest)
  | c :: rest =>
    if c = '\\' || c.toNat < 0x20 then none
    else do
      let (ps, rest) ← pieces? rest
      return (.char c :: ps, rest)
  | [] => none

/-- Whether a 16-bit unit is the first half of a surrogate pair. -/
def isLeading (n : Nat) : Bool := 0xD800 ≤ n && n < 0xDC00

/-- Whether a 16-bit unit is the second half of a surrogate pair. -/
def isTrailing (n : Nat) : Bool := 0xDC00 ≤ n && n < 0xE000

/-- The characters that the pieces stand for; `none` when half a surrogate pair
stands alone. -/
def join? : List Piece → Option (List Char)
  | [] => some []
  | .char c :: rest => (join? rest).map (c :: ·)
  | .unit n :: .unit m :: rest =>
    if isLeading n then
      if isTrailing m then
        (join? rest).map (Char.ofNat (0x10000 + (n - 0xD800) * 0x400 + (m - 0xDC00)) :: ·)
      else none
    else if isTrailing n then none
    else (join? (.unit m :: rest)).map (Char.ofNat n :: ·)
  | .unit n :: rest =>
    if isLeading n || isTrailing n then none else (join? rest).map (Char.ofNat n :: ·)

/-- A string after its opening quote: its value, or `none` inside if it has none. -/
def string? (cs : List Char) : Option (Option String × List Char) := do
  let (ps, rest) ← pieces? cs
  return ((join? ps).map String.ofList, rest)

/-! ## Numbers

All numbers share the syntax of `Decimal.split?`, restricted to what JSON allows: a digit before
the point, and one after it. A number without fraction and exponent is an integer of any size. -/

/-- Whether the digits before the point are those of a JSON number: at least one,
and no zero in front of another. -/
def wholeOk : List Char → Bool
  | [] => false
  | [_] => true
  | d :: _ => d ≠ '0'

/-- A number at the front of the text. -/
def number? (cs : List Char) : Option (Json × List Char) := do
  let (negative, rest) := match cs with
    | '-' :: rest => (true, rest)
    | cs => (false, cs)
  let (p, rest) ← Decimal.split? rest
  if !wholeOk p.whole then none
  else
    match p.fraction, p.exponent with
    | some [], _ => none
    | none, none =>
      let n := Decimal.ofDigits p.whole
      if negative && n = 0 then return (real (-0.0), rest)
      else return (int (if negative then -(n : Int) else n), rest)
    | _, _ => return ((p.toWord negative).scaled?.elim unreadable real, rest)

/-! ## Values

Values, items of arrays and members of objects call one another. Blanks are skipped in front of
each token, so none of the functions needs to skip them at its end. -/

/-- The members read so far as an object; one unreadable key spoils it. -/
def object (members : List (Option String × Json)) : Json :=
  match members.mapM fun (k, j) => k.map (·, j) with
  | some members => obj members
  | none => unreadable

mutual

/-- A value at the front of the text, after blanks. -/
def value? : (fuel : Nat) → List Char → Option (Json × List Char)
  | 0, _ => none
  | fuel + 1, cs =>
    match skipSpace cs with
    | [] => none
    | c :: rest =>
      if c = '\x7b' then
        match skipSpace rest with
        | '\x7d' :: rest => some (obj [], rest)
        | _ => do
          let (members, rest) ← members? fuel rest
          return (object members, rest)
      else if c = '[' then
        match skipSpace rest with
        | ']' :: rest => some (arr [], rest)
        | _ => do
          let (items, rest) ← items? fuel rest
          return (arr items, rest)
      else if c = '"' then do
        let (s, rest) ← string? rest
        return (s.elim unreadable str, rest)
      else if let some rest := Text.after? "null".toList (c :: rest) then some (null, rest)
      else if let some rest := Text.after? "true".toList (c :: rest) then some (bool true, rest)
      else if let some rest := Text.after? "false".toList (c :: rest) then some (bool false, rest)
      else number? (c :: rest)

/-- The items of an array from the first one to the closing bracket. -/
def items? : (fuel : Nat) → List Char → Option (List Json × List Char)
  | 0, _ => none
  | fuel + 1, cs => do
    let (j, rest) ← value? fuel cs
    match skipSpace rest with
    | ',' :: rest =>
      let (js, rest) ← items? fuel rest
      return (j :: js, rest)
    | ']' :: rest => return ([j], rest)
    | _ => none

/-- The members of an object from the first one to the closing brace. -/
def members? : (fuel : Nat) → List Char → Option (List (Option String × Json) × List Char)
  | 0, _ => none
  | fuel + 1, cs =>
    match skipSpace cs with
    | '"' :: rest => do
      let (k, rest) ← string? rest
      match skipSpace rest with
      | ':' :: rest =>
        let (j, rest) ← value? fuel rest
        match skipSpace rest with
        | ',' :: rest =>
          let (ms, rest) ← members? fuel rest
          return ((k, j) :: ms, rest)
        | '\x7d' :: rest => return ([(k, j)], rest)
        | _ => none
      | _ => none
    | _ => none

end

/-- Read a whole text as one value. Every second step of the reader consumes a
character, so twice the length is fuel enough. -/
def parse? (text : String) : Option Json :=
  let cs := text.toList
  match value? (2 * cs.length + 2) cs with
  | some (j, rest) => if (skipSpace rest).isEmpty then some j else none
  | none => none

end Pathwise.Json
