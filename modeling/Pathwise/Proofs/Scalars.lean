import Pathwise.Proofs.JsonText
import Pathwise.Proofs.Reading
import Pathwise.Proofs.Values
import Pathwise.Smt.Term

/-!
# Pathwise.Proofs.Scalars

Integers of models, written and read.

There are two texts of an integer. A value has a sign in front of its digits, and a term has its
digits below an application of minus. `Value.parseScalar?` reads both, with blanks around them.
The sign belongs to the numeral, whose range is checked with it. Below a minus the range of the
magnitude is checked first, and the magnitude of the smallest integer is out of range.

So there is one integer that a script can name and a model cannot give back: the smallest one,
whose text as a term is refused (`smallest_integer_not_read_back`). All others are read back from
either text.

The parser goes into applications of minus with fuel, of which it has as much as the text has
characters. Each lemma is about some fuel and about a text with blanks around it, because the
operand of a minus is again such a text, in the middle of the characters of the application.

Blanks are those of the whole Unicode table and not just the space. No property of the class is
used other than that digits, signs and parentheses are not in it.
-/

namespace Pathwise

open Json

/-! ## Blanks around a text

When trimming finds a text again between characters of a class. The text must not begin or end
with one of them, and inside of it they do not matter. -/

namespace Text

variable {p : Char → Bool} {front back cs : List Char} {c d : Char}

/-- Neither the first nor the last character of a text is in a class. -/
structure Trimmed (p : Char → Bool) (cs : List Char) : Prop where
  first : ∃ c, cs.head? = some c ∧ p c = false
  last : ∃ c, cs.getLast? = some c ∧ p c = false

theorem Trimmed.of_forall (hne : cs ≠ []) (h : ∀ c ∈ cs, p c = false) : Trimmed p cs where
  first := ⟨cs.head hne, List.head?_eq_some_head hne, h _ (List.head_mem hne)⟩
  last := ⟨cs.getLast hne, List.getLast?_eq_some_getLast hne, h _ (List.getLast_mem hne)⟩

/-- For an application it is enough to look at its parentheses. -/
theorem Trimmed.of_ends (hc : p c = false) (hd : p d = false) : Trimmed p (c :: (cs ++ [d])) where
  first := ⟨c, rfl, hc⟩
  last := ⟨d, by rw [← List.cons_append, List.getLast?_concat], hd⟩

theorem dropWhile_of_head (h : p c = false) (hc : cs.head? = some c) : cs.dropWhile p = cs := by
  cases cs with
  | nil => cases hc
  | cons c cs =>
      cases hc
      rw [List.dropWhile_cons, h, if_neg Bool.false_ne_true]

/-- Trimming takes off what is in front and at the back of a trimmed text, and stops at its ends.
-/
theorem Trimmed.trimWhile_append (h : Trimmed p cs) (hfront : ∀ c ∈ front, p c)
    (hback : ∀ c ∈ back, p c) : trimWhile p (front ++ (cs ++ back)) = cs := by
  obtain ⟨⟨c, hfirst, hc⟩, d, hlast, hd⟩ := h
  have hstart : (front ++ (cs ++ back)).dropWhile p = cs ++ back := by
    rw [List.dropWhile_append_of_pos hfront]
    exact dropWhile_of_head hc (by rw [List.head?_append, hfirst, Option.some_or])
  have hend : (cs ++ back).reverse.dropWhile p = cs.reverse := by
    rw [List.reverse_append,
      List.dropWhile_append_of_pos fun c hc => hback c (List.mem_reverse.1 hc)]
    exact dropWhile_of_head hd (by rw [List.head?_reverse, hlast])
  rw [trimWhile, dropEndWhile, hstart, hend, List.reverse_reverse]

end Text

/-! ## Numerals

From digits to values. The numeral is the innermost part, the blanks and the applications of minus
come around it. -/

/-- Integers are written here as they are in JSON. -/
theorem toList_toString_int (n : Int) : (toString n).toList =
    if n < 0 then '-' :: Nat.toDigits 10 n.natAbs else Nat.toDigits 10 n.natAbs :=
  toList_compact_int n

/-- Digits are a numeral without a sign. The first of them is no sign, which is why a case
distinction on the sign finds none. -/
theorem parseInt?_toDigits (n : Nat) : parseInt? (Nat.toDigits 10 n) = some (n : Int) := by
  have hdigits : (Nat.toDigits 10 n).all Char.isDigit := List.all_eq_true.2 (isDigit_toDigits n)
  have hvalue := ofDigits_toDigits n
  obtain ⟨d, ds, hcons, hd⟩ := exists_cons_toDigits n
  rw [hcons] at hdigits hvalue ⊢
  have hsign : Decimal.takeSign (d :: ds) = (false, d :: ds) := by
    unfold Decimal.takeSign
    split
    · next h =>
        cases h
        cases hd
    · next h =>
        cases h
        cases hd
    · rfl
  simp [parseInt?, hsign, hdigits, hvalue]

theorem parseInt?_minus (n : Nat) : parseInt? ('-' :: Nat.toDigits 10 n) = some (-n : Int) := by
  have hdigits : (Nat.toDigits 10 n).all Char.isDigit := List.all_eq_true.2 (isDigit_toDigits n)
  simp [parseInt?, Decimal.takeSign, hdigits, ofDigits_toDigits]

namespace Value

variable {front back cs : List Char} {c : Char}

/-- What does not begin with a parenthesis is no application. -/
theorem operands?_cons (hc : c ≠ '(') (op : Char) : operands? op (c :: cs) = none := by
  simp [operands?, Text.after?, Ne.symm hc]

/-- What stands between the operator and the closing parenthesis is the operand, blanks included.
-/
theorem operands?_application (op : Char) (inner : List Char) :
    operands? op ('(' :: op :: (inner ++ [')'])) = some inner := by
  simp [operands?, Text.after?]

section Blanks

variable (hfront : ∀ c ∈ front, Text.isBlank c) (hback : ∀ c ∈ back, Text.isBlank c)
include hfront hback

/-- A scalar between blanks that is no application of minus. -/
theorem parseNested?_plain (h : Text.Trimmed Text.isBlank cs) (hop : operands? '-' cs = none)
    (ty : Ty) (fuel : Nat) :
    parseNested? ty (fuel + 1) (front ++ (cs ++ back)) = parsePlain? cs ty := by
  rw [parseNested?, h.trimWhile_append hfront hback, hop]

theorem parseNested?_negated (inner : List Char) (ty : Ty) (fuel : Nat) :
    parseNested? ty (fuel + 1) (front ++ ('(' :: '-' :: (inner ++ [')']) ++ back)) =
      (parseNested? ty fuel inner).bind negate? := by
  have htrim : Text.Trimmed Text.isBlank ('(' :: ('-' :: inner ++ [')'])) :=
    .of_ends (by decide) (by decide)
  rw [List.cons_append] at htrim
  rw [parseNested?, htrim.trimWhile_append hfront hback, operands?_application]

theorem parseNested?_toDigits (n fuel : Nat) :
    parseNested? .int (fuel + 1) (front ++ (Nat.toDigits 10 n ++ back)) =
      (int64? n).map int := by
  have htrim : Text.Trimmed Text.isBlank (Nat.toDigits 10 n) :=
    .of_forall Nat.toDigits_ne_nil fun c hc => Smt.Sexp.isBlank_of_isDigit (isDigit_toDigits n c hc)
  have hop : operands? '-' (Nat.toDigits 10 n) = none := by
    obtain ⟨d, ds, hcons, hd⟩ := exists_cons_toDigits n
    rw [hcons]
    refine operands?_cons ?_ '-'
    rintro rfl
    cases hd
  rw [parseNested?_plain hfront hback htrim hop, parsePlain?, parseInt?_toDigits]
  rfl

/-- The text of a value between blanks. The sign is part of the numeral, so the range is checked
for the number as a whole. -/
theorem parseNested?_toString (n : Int) (fuel : Nat) :
    parseNested? .int (fuel + 1) (front ++ ((toString n).toList ++ back)) =
      (int64? n).map int := by
  rw [toList_toString_int]
  split
  · next hneg =>
      have htrim : Text.Trimmed Text.isBlank ('-' :: Nat.toDigits 10 n.natAbs) := by
        refine .of_forall (List.cons_ne_nil _ _) ?_
        refine List.forall_mem_cons.2 ⟨by decide, fun c hc => ?_⟩
        exact Smt.Sexp.isBlank_of_isDigit (isDigit_toDigits _ c hc)
      -- the minus is inside of the numeral, and no application
      rw [parseNested?_plain hfront hback htrim (operands?_cons (by decide) '-'), parsePlain?,
        parseInt?_minus, ← Int.eq_neg_natAbs_of_nonpos (Int.le_of_lt hneg)]
      rfl
  · next hneg =>
      rw [parseNested?_toDigits hfront hback, Int.natAbs_of_nonneg (Int.not_lt.1 hneg)]

/-- The text of a term between blanks. The magnitude is read first, and must fit by itself before
its opposite is taken. -/
theorem parseNested?_intText (n : Int) (fuel : Nat) :
    parseNested? .int (fuel + 2) (front ++ ((Smt.intText n).toList ++ back)) =
      if n < 0 then ((int64? n.natAbs).map int).bind negate? else (int64? n).map int := by
  unfold Smt.intText
  split
  · have hinner : parseNested? .int (fuel + 1) ([' '] ++ (Nat.toDigits 10 n.natAbs ++ [])) = _ :=
      parseNested?_toDigits (List.forall_mem_singleton.2 rfl) (List.forall_mem_nil _) n.natAbs fuel
    have htext : ("(- " ++ toString n.natAbs ++ ")").toList =
        '(' :: '-' :: ([' '] ++ (Nat.toDigits 10 n.natAbs ++ []) ++ [')']) := by
      simp
    rw [htext, parseNested?_negated hfront hback, hinner]
  · next hneg =>
      have htext : (toString n.natAbs).toList = Nat.toDigits 10 n.natAbs := by simp
      rw [htext, parseNested?_toDigits hfront hback, Int.natAbs_of_nonneg (Int.not_lt.1 hneg)]

end Blanks

/-- The magnitude of a negative integer fits, unless it is the smallest one. There are more
negative words than positive ones, by one. -/
theorem negate?_natAbs {n : Int64} (hneg : n.toInt < 0) :
    ((int64? n.toInt.natAbs).map int).bind negate? =
      if n = Int64.minValue then none else some (int n) := by
  split
  · next hmin =>
      rw [hmin]
      rfl
  · next hmin =>
      -- the words are the same if their values are
      have hne : n.toInt ≠ -9223372036854775808 := fun h =>
        hmin (Int64.toInt_inj.1 (h.trans Int64.toInt_minValue.symm))
      obtain ⟨hlow, hhigh⟩ := fits64_toInt n
      cases hm : int64? n.toInt.natAbs with
      | none => exact absurd ⟨by omega, by omega⟩ (int64?_eq_none_iff.1 hm)
      | some m =>
          have hopposite : -m.toInt = n.toInt := by
            rw [toInt_of_int64? hm]
            omega
          simp [negate?, hopposite, int64?_toInt]

end Value

theorem Smt.intText_ne_empty (n : Int) : intText n ≠ "" := by
  intro h
  have hlist := congrArg String.toList h
  unfold intText at hlist
  split at hlist <;> simp at hlist

/-- An integer is read back from its text as a value, with any blanks around it. It is also read
back from its text as a term, except for the smallest integer, of which nothing is read. -/
theorem integers_read_back (n : Int64) {front back : String}
    (hfront : front.toList.all Text.isBlank) (hback : back.toList.all Text.isBlank) :
    Value.parseScalar? (front ++ (Value.int n).text ++ back) .int = some (.int n) ∧
    Value.parseScalar? (front ++ (Smt.Term.int n.toInt).text ++ back) .int =
      if n = Int64.minValue then none else some (.int n) := by
  rw [List.all_eq_true] at hfront hback
  constructor
  · rw [Value.parseScalar?, Value.text, String.toList_append, String.toList_append,
      List.append_assoc, Value.parseNested?_toString hfront hback, int64?_toInt, Option.map_some]
  · have hfuel : (front ++ Smt.intText n.toInt ++ back).toList.length ≠ 0 := by
      simp [Smt.intText_ne_empty]
    obtain ⟨fuel, hfuel⟩ := Nat.exists_eq_add_one_of_ne_zero hfuel
    rw [Smt.Term.text, Value.parseScalar?, hfuel, String.toList_append, String.toList_append,
      List.append_assoc, Value.parseNested?_intText hfront hback]
    split
    · next hneg => exact Value.negate?_natAbs hneg
    · next hneg =>
        have hmin : n ≠ Int64.minValue := by
          rintro rfl
          exact hneg (by decide)
        rw [int64?_toInt, if_neg hmin, Option.map_some]

/-- A negative integer between a tab and a no-break space. -/
theorem integers_read_back_blanks :
    "\t".toList.all Text.isBlank ∧ " \u00a0\n".toList.all Text.isBlank ∧
      Value.parseScalar? ("\t" ++ (Value.int (-70)).text ++ " \u00a0\n") .int =
        some (.int (-70)) ∧
      Value.parseScalar? ("\t" ++ (Smt.Term.int (-70 : Int64).toInt).text ++ " \u00a0\n") .int =
        some (.int (-70)) := by
  have hfront : "\t".toList.all Text.isBlank := by decide
  have hback : " \u00a0\n".toList.all Text.isBlank := by decide
  obtain ⟨hvalue, hterm⟩ := integers_read_back (-70) hfront hback
  exact ⟨hfront, hback, hvalue, hterm.trans (if_neg (by decide))⟩

/-- The text of the smallest integer as a term is no integer: its magnitude does not fit. -/
theorem smallest_integer_not_read_back :
    Value.parseScalar? (Smt.Term.int Int64.minValue.toInt).text .int = none := by
  rfl

end Pathwise
