import Mathlib.Data.List.Forall2
import Pathwise.Json.Reader

/-!
# Pathwise.Proofs.JsonText

Reading back the text of a JSON value.

Strings and integers are written in one way and read in several. Reading undoes writing at each
level: for the characters of a string (`pieces?_escapeChar`), for the digits of an integer
(`number?_compact_int`), and from there for values inside one another (`Exact.reads`). Floats have
no part in it, since their text is rounded when it is read.

The reader goes through the text with fuel, and `parse?` gives it twice the length of the text.
`Json.Reads` says that this is enough for a value wherever it stands: what comes behind it is
arbitrary, except that it must not look like the rest of a number. The statement about a whole
text is the case where nothing comes behind.

Values that hold floats or parts that cannot be read are excluded (`Json.Exact`). The latter arise
only from texts, such as strings with half of a surrogate pair in them, and are never written on
purpose.
-/

namespace Pathwise.Json

/-- Values without floats and unreadable parts. -/
inductive Exact : Json → Prop where
  | null : Exact null
  | bool (b : Bool) : Exact (bool b)
  | int (n : Int) : Exact (int n)
  | str (s : String) : Exact (str s)
  | arr {items : List Json} (h : ∀ j ∈ items, Exact j) : Exact (arr items)
  | obj {members : List (String × Json)} (h : ∀ m ∈ members, Exact m.2) : Exact (obj members)

/-! ## Strings

A string is read in two steps, first into pieces and then into characters, because two escapes may
stand for one character. Writing never needs two: it escapes control characters only, which are
below the surrogates. -/

/-- A piece of a string that stands for a character, whatever follows it. -/
def Piece.Stands (p : Piece) (c : Char) : Prop :=
  ∀ ps cs, join? ps = some cs → join? (p :: ps) = some (c :: cs)

theorem Piece.stands_char (c : Char) : (Piece.char c).Stands c := by
  intro ps cs h
  rw [join?, h, Option.map_some]

/-- A unit below the surrogates needs no other half. -/
theorem Piece.stands_unit {n : Nat} (h : n < 0xD800) : (Piece.unit n).Stands (Char.ofNat n) := by
  have hleading : isLeading n = false := by
    rw [isLeading, decide_eq_false (Nat.not_le.2 h), Bool.false_and]
  have htrailing : isTrailing n = false := by
    rw [isTrailing, decide_eq_false (Nat.not_le.2 (Nat.lt_trans h (by decide))), Bool.false_and]
  intro ps cs hps
  cases ps with
  | nil =>
      cases hps
      simp [join?, hleading, htrailing]
  | cons p ps =>
      cases p with
      | char c =>
          rw [join?, hleading, htrailing, hps]
          · rfl
          · intro m ps' heq
            cases heq
      | unit m => simp [join?, hleading, htrailing, hps]

variable {ps : List Piece} {t rest : List Char}

theorem pieces?_simple {e c : Char} (he : simpleEscape? e = some c) (hu : e ≠ 'u')
    (h : pieces? t = some (ps, rest)) : pieces? ('\\' :: e :: t) = some (.char c :: ps, rest) := by
  rw [pieces?.eq_def]
  simp [hu, he, h]

/-- Hexadecimal digits are read as they are written. -/
theorem hexValue?_hexDigit : ∀ n, n < 16 → hexValue? (hexDigit n) = some n := by decide

theorem pieces?_unit {n : Nat} (hn : n < 0x100) (h : pieces? t = some (ps, rest)) :
    pieces? ('\\' :: 'u' :: '0' :: '0' :: hexDigit (n / 16) :: hexDigit (n % 16) :: t) =
      some (.unit n :: ps, rest) := by
  have hhigh := hexValue?_hexDigit (n / 16) (by omega)
  have hlow := hexValue?_hexDigit (n % 16) (by omega)
  have hzero : hexValue? '0' = some 0 := by decide
  have hunit : hexUnit? '0' '0' (hexDigit (n / 16)) (hexDigit (n % 16)) = some n := by
    simp [hexUnit?, hhigh, hlow, hzero, Nat.div_add_mod']
  rw [pieces?, hunit, h]
  rfl

theorem pieces?_plain {c : Char} (hquote : c ≠ '"') (hback : c ≠ '\\') (hc : 0x20 ≤ c.toNat)
    (h : pieces? t = some (ps, rest)) : pieces? (c :: t) = some (.char c :: ps, rest) := by
  rw [pieces?.eq_def]
  simp [hback, Nat.not_lt.2 hc, h]

/-- The characters with an escape of one letter. -/
def shortEscaped : List Char := ['"', '\\', '\n', '\r', '\t', '\x08', '\x0c']

/-- Seven characters have escapes of their own. -/
theorem escapeChar_of_mem {c : Char} (h : c ∈ shortEscaped) :
    ∃ e, escapeChar c = ['\\', e] ∧ simpleEscape? e = some c ∧ e ≠ 'u' := by
  simp only [shortEscaped, List.mem_cons, List.not_mem_nil, or_false] at h
  rcases h with rfl | rfl | rfl | rfl | rfl | rfl | rfl <;> exact ⟨_, rfl, rfl, by decide⟩

theorem escapeChar_of_not_mem {c : Char} (h : c ∉ shortEscaped) : escapeChar c =
    if c.toNat < 0x20 then
      ['\\', 'u', '0', '0', hexDigit (c.toNat / 16), hexDigit (c.toNat % 16)]
    else [c] := by
  simp only [shortEscaped, List.mem_cons, List.not_mem_nil, or_false, not_or] at h
  simp only [escapeChar, h, if_false]

/-- A written character is read as one piece that stands for it, whatever follows. It may be
written as itself, by a letter or by its number. -/
theorem pieces?_escapeChar (c : Char) : ∃ p : Piece, p.Stands c ∧ ∀ {t ps rest},
    pieces? t = some (ps, rest) → pieces? (escapeChar c ++ t) = some (p :: ps, rest) := by
  by_cases hshort : c ∈ shortEscaped
  · obtain ⟨e, hc, he, hu⟩ := escapeChar_of_mem hshort
    rw [hc]
    exact ⟨.char c, Piece.stands_char c, pieces?_simple he hu⟩
  · rw [escapeChar_of_not_mem hshort]
    split
    · next hlow =>
        refine ⟨.unit c.toNat, ?_, pieces?_unit (by omega)⟩
        have hstands := Piece.stands_unit (n := c.toNat) (by omega)
        rwa [Char.ofNat_toNat] at hstands
    · next hlow =>
        simp only [shortEscaped, List.mem_cons, not_or] at hshort
        exact ⟨.char c, Piece.stands_char c,
          pieces?_plain hshort.1 hshort.2.1 (Nat.not_lt.1 hlow)⟩

/-- All characters of a string are read back, up to the closing quote. -/
theorem exists_pieces (cs rest : List Char) :
    ∃ ps, pieces? (cs.flatMap escapeChar ++ '"' :: rest) = some (ps, rest) ∧
      join? ps = some cs := by
  induction cs with
  | nil => exact ⟨[], by simp [pieces?], rfl⟩
  | cons c cs ih =>
      obtain ⟨ps, hps, hjoin⟩ := ih
      obtain ⟨p, hstands, hp⟩ := pieces?_escapeChar c
      refine ⟨p :: ps, ?_, hstands ps cs hjoin⟩
      rw [List.flatMap_cons, List.append_assoc]
      exact hp hps

/-- A written string is read as itself. Its pieces stand for characters one by one, so putting
them together takes no pairs of surrogates. -/
theorem string?_escaped (s : String) (rest : List Char) :
    string? (s.toList.flatMap escapeChar ++ '"' :: rest) = some (some s, rest) := by
  obtain ⟨ps, hps, hjoin⟩ := exists_pieces s.toList rest
  simp [string?, hps, hjoin]

/-! ## Integers

Digits are read by the scanner for decimal numbers, of which an integer uses only the first part.
The number ends where something comes that cannot belong to it. -/

/-- A text that cannot be taken for the rest of a number. -/
def Ends (rest : List Char) : Prop :=
  ∀ c ∈ rest.head?, c.isDigit = false ∧ c ≠ '.' ∧ c ≠ 'e' ∧ c ≠ 'E'

/-- Digits are taken as the whole part of a number, up to what ends it. -/
theorem split?_append {ds : List Char} (hds : ∀ c ∈ ds, c.isDigit) (hrest : Ends rest) :
    Decimal.split? (ds ++ rest) = some (⟨ds, none, none⟩, rest) := by
  have htake : rest.takeWhile Char.isDigit = [] := by
    cases rest with
    | nil => rfl
    | cons c rest => simp [(hrest c rfl).1]
  have hdrop : rest.dropWhile Char.isDigit = rest := by
    cases rest with
    | nil => rfl
    | cons c rest => simp [(hrest c rfl).1]
  have hspan : Decimal.spanDigits (ds ++ rest) = (ds, rest) := by
    rw [Decimal.spanDigits, List.takeWhile_append_of_pos hds, List.dropWhile_append_of_pos hds,
      htake, hdrop, List.append_nil]
  unfold Decimal.split?
  rw [hspan]
  cases rest with
  | nil => rfl
  | cons c rest =>
      obtain ⟨-, hpoint, he, hE⟩ := hrest c rfl
      simp [hpoint, Decimal.takeExponent?, he, hE]

/-- The digits of a positive number do not begin with zero. -/
theorem head?_toDigits {n : Nat} (h : 0 < n) : (Nat.toDigits 10 n).head? ≠ some '0' := by
  induction n using Nat.strongRecOn with
  | ind n ih =>
      by_cases hlt : n < 10
      · rw [Nat.toDigits_of_lt_base hlt]
        have hdigit : ∀ k < 10, 0 < k → Nat.digitChar k ≠ '0' := by decide
        simpa using hdigit n hlt h
      · have hle : 10 ≤ n := Nat.not_lt.1 hlt
        rw [Nat.toDigits_of_base_le (by decide) hle,
          List.head?_append_of_ne_nil _ Nat.toDigits_ne_nil]
        exact ih (n / 10) (Nat.div_lt_self h (by decide)) (Nat.div_pos hle (by decide))

/-- Digits are written without zeros in front. -/
theorem wholeOk_toDigits (n : Nat) : wholeOk (Nat.toDigits 10 n) := by
  by_cases hn : n = 0
  · subst hn
    rfl
  · have hhead := head?_toDigits (Nat.pos_of_ne_zero hn)
    cases h : Nat.toDigits 10 n with
    | nil => exact absurd h Nat.toDigits_ne_nil
    | cons d ds =>
        rw [h] at hhead
        cases ds with
        | nil => rfl
        | cons d' ds => simpa [wholeOk] using hhead

theorem ofDigits_toDigits (n : Nat) : Decimal.ofDigits (Nat.toDigits 10 n) = n :=
  Nat.ofDigitChars_toDigits (by decide) (by decide)

theorem isDigit_toDigits (n : Nat) : ∀ c ∈ Nat.toDigits 10 n, c.isDigit := fun _ hc =>
  Nat.isDigit_of_mem_toDigits (by decide) (by decide) hc

theorem exists_cons_toDigits (n : Nat) : ∃ d ds, Nat.toDigits 10 n = d :: ds ∧ d.isDigit := by
  obtain ⟨d, ds, h⟩ := List.exists_cons_of_ne_nil (Nat.toDigits_ne_nil (n := n) (b := 10))
  exact ⟨d, ds, h, isDigit_toDigits n d (h ▸ List.mem_cons_self)⟩

theorem number?_toDigits (n : Nat) (hrest : Ends rest) :
    number? (Nat.toDigits 10 n ++ rest) = some (int n, rest) := by
  have hsplit := split?_append (isDigit_toDigits n) hrest
  have hwhole := wholeOk_toDigits n
  have hvalue := ofDigits_toDigits n
  obtain ⟨d, ds, hdigits, hd⟩ := exists_cons_toDigits n
  have hminus : d ≠ '-' := by
    rintro rfl
    cases hd
  rw [hdigits] at hsplit hwhole hvalue ⊢
  rw [List.cons_append] at hsplit ⊢
  simp [number?, hminus, hsplit, hwhole, hvalue]

/-- A negative number. There is no minus in front of zero. -/
theorem number?_minus {n : Nat} (hn : n ≠ 0) (hrest : Ends rest) :
    number? ('-' :: (Nat.toDigits 10 n ++ rest)) = some (int (-n), rest) := by
  simp [number?, split?_append (isDigit_toDigits n) hrest, wholeOk_toDigits, ofDigits_toDigits, hn]

/-- The text of an integer: digits, after a minus if it is negative. -/
theorem toList_compact_int (n : Int) : (compact (int n)).toList =
    if n < 0 then '-' :: Nat.toDigits 10 n.natAbs else Nat.toDigits 10 n.natAbs := by
  cases n with
  | ofNat n => exact Nat.toList_repr
  | negSucc n =>
      have htext : compact (int (.negSucc n)) = "-" ++ Nat.repr (n + 1) := rfl
      rw [htext, String.toList_append, Nat.toList_repr, if_pos (Int.negSucc_lt_zero n)]
      rfl

/-- A written integer is read as itself, if what follows cannot be taken for the rest of it. -/
theorem number?_compact_int (n : Int) (hrest : Ends rest) :
    number? ((compact (int n)).toList ++ rest) = some (int n, rest) := by
  rw [toList_compact_int]
  split
  · next hneg =>
      rw [List.cons_append, number?_minus (Int.natAbs_ne_zero.2 (Int.ne_of_lt hneg)) hrest,
        ← Int.eq_neg_natAbs_of_nonpos (Int.le_of_lt hneg)]
  · next hneg =>
      rw [number?_toDigits _ hrest, Int.natAbs_of_nonneg (Int.not_lt.1 hneg)]

/-! ## Values

The first character tells what kind of value follows. One lemma for each kind says what the reader
does then, and one that its text is read back. -/

theorem skipSpace_cons {c : Char} (h : isSpace c = false) (cs : List Char) :
    skipSpace (c :: cs) = c :: cs := by
  rw [skipSpace, List.dropWhile_cons, h]
  rfl

/-- A number starts with a minus or a digit, and with nothing else. -/
theorem ne_of_startsNumber {c d : Char} (hc : c = '-' ∨ c.isDigit) (hminus : d ≠ '-')
    (hdigit : d.isDigit = false) : c ≠ d := by
  rintro rfl
  rcases hc with rfl | hc
  · exact hminus rfl
  · rw [hdigit] at hc
    cases hc

theorem isSpace_of_startsNumber {c : Char} (hc : c = '-' ∨ c.isDigit) : isSpace c = false := by
  simp [isSpace, ne_of_startsNumber hc]

theorem value?_number {c : Char} (hc : c = '-' ∨ c.isDigit) (fuel : Nat) (cs : List Char) :
    value? (fuel + 1) (c :: cs) = number? (c :: cs) := by
  have hne := fun d => ne_of_startsNumber (d := d) hc
  simp [value?, skipSpace_cons (isSpace_of_startsNumber hc), hne, Text.after?, (hne _ _ _).symm]

theorem value?_string (fuel : Nat) (cs : List Char) : value? (fuel + 1) ('"' :: cs) =
    (string? cs).map fun x => (x.1.elim unreadable str, x.2) := by
  cases h : string? cs <;> simp [value?, skipSpace, isSpace, h]

/-- A text that starts a value: its first character is neither blank nor a closing bracket. -/
def Starts (cs : List Char) : Prop := ∃ c t, cs = c :: t ∧ isSpace c = false ∧ c ≠ ']'

theorem Starts.append {cs : List Char} (h : Starts cs) (rest : List Char) :
    Starts (cs ++ rest) := by
  obtain ⟨c, t, rfl, hc⟩ := h
  exact ⟨c, t ++ rest, rfl, hc⟩

/-- Where a bracket opens, items are read, unless it closes at once. -/
theorem value?_arr {cs : List Char} (h : Starts cs) (fuel : Nat) : value? (fuel + 1) ('[' :: cs) =
    (items? fuel cs).map fun x => (arr x.1, x.2) := by
  obtain ⟨c, t, rfl, hspace, hclose⟩ := h
  have hopen : isSpace '[' = false := by decide
  cases h : items? fuel (c :: t) <;>
    simp [value?, skipSpace_cons hopen, skipSpace_cons hspace, hclose, h]

theorem value?_obj (fuel : Nat) (cs : List Char) : value? (fuel + 1) ('\x7b' :: '"' :: cs) =
    (members? fuel ('"' :: cs)).map fun x => (object x.1, x.2) := by
  cases h : members? fuel ('"' :: cs) <;> simp [value?, skipSpace, isSpace, h]

/-- Reading the text of a value gives it back, with as much fuel as `parse?` provides for the
text and whatever comes after it. -/
structure Reads (j : Json) : Prop where
  starts : Starts j.compact.toList
  read : ∀ fuel rest, Ends rest → 2 * j.compact.toList.length ≤ fuel →
    value? fuel (j.compact.toList ++ rest) = some (j, rest)

/-- A text is not empty, so there is fuel for it. -/
theorem Reads.of_succ {j : Json} (hj : Starts j.compact.toList)
    (h : ∀ {fuel rest}, Ends rest → 2 * j.compact.toList.length ≤ fuel + 1 →
      value? (fuel + 1) (j.compact.toList ++ rest) = some (j, rest)) : Reads j where
  starts := hj
  read fuel rest hrest hfuel := by
    cases fuel with
    | zero =>
        obtain ⟨c, t, hc, -⟩ := hj
        rw [hc, List.length_cons] at hfuel
        omega
    | succ fuel => exact h hrest hfuel

theorem reads_null : Reads null :=
  .of_succ ⟨'n', _, rfl, rfl, by decide⟩ fun _ _ => rfl

theorem reads_bool (b : Bool) : Reads (bool b) := by
  cases b with
  | false => exact .of_succ ⟨'f', _, rfl, rfl, by decide⟩ fun _ _ => rfl
  | true => exact .of_succ ⟨'t', _, rfl, rfl, by decide⟩ fun _ _ => rfl

theorem reads_int (n : Int) : Reads (int n) := by
  have hstart : ∃ c t, (compact (int n)).toList = c :: t ∧ (c = '-' ∨ c.isDigit) := by
    rw [toList_compact_int]
    split
    · exact ⟨'-', _, rfl, .inl rfl⟩
    · obtain ⟨d, ds, hdigits, hd⟩ := exists_cons_toDigits n.natAbs
      exact ⟨d, ds, hdigits, .inr hd⟩
  obtain ⟨c, t, htext, hc⟩ := hstart
  have hclose : c ≠ ']' := ne_of_startsNumber hc (by decide) rfl
  refine .of_succ ⟨c, t, htext, isSpace_of_startsNumber hc, hclose⟩ fun hrest _ => ?_
  have hnumber := number?_compact_int n hrest
  rw [htext, List.cons_append] at hnumber ⊢
  rw [value?_number hc, hnumber]

theorem toList_quote (s : String) :
    (quote s).toList = '"' :: (s.toList.flatMap escapeChar ++ ['"']) :=
  String.toList_ofList

theorem reads_str (s : String) : Reads (str s) := by
  have htext : (compact (str s)).toList = '"' :: (s.toList.flatMap escapeChar ++ ['"']) :=
    toList_quote s
  refine .of_succ ⟨'"', _, htext, rfl, by decide⟩ fun _ _ => ?_
  rw [htext, List.cons_append, List.append_assoc, value?_string]
  exact congrArg (Option.map _) (string?_escaped s _)

/-- What comes behind a value inside another one ends a number. -/
theorem ends_cons {c : Char} (h : c = ',' ∨ c = ']' ∨ c = '\x7d') (cs : List Char) :
    Ends (c :: cs) := by
  rintro d hd
  cases hd
  rcases h with rfl | rfl | rfl <;> decide

def itemsText (items : List Json) : List Char := (",".intercalate (compactItems items)).toList

def membersText (members : List (String × Json)) : List Char :=
  (",".intercalate (compactMembers members)).toList

theorem itemsText_singleton (j : Json) : itemsText [j] = j.compact.toList := by
  simp [itemsText, compactItems]

theorem itemsText_cons_cons (j j' : Json) (js : List Json) :
    itemsText (j :: j' :: js) = j.compact.toList ++ ',' :: itemsText (j' :: js) := by
  simp [itemsText, compactItems]

theorem membersText_singleton (m : String × Json) :
    membersText [m] = (quote m.1).toList ++ ':' :: m.2.compact.toList := by
  simp [membersText, compactMembers]

theorem membersText_cons_cons (m m' : String × Json) (ms : List (String × Json)) :
    membersText (m :: m' :: ms) =
      (quote m.1).toList ++ ':' :: (m.2.compact.toList ++ ',' :: membersText (m' :: ms)) := by
  simp [membersText, compactMembers]

theorem toList_compact_arr (items : List Json) :
    (compact (arr items)).toList = '[' :: (itemsText items ++ [']']) := by
  simp [compact, itemsText]

theorem toList_compact_obj (members : List (String × Json)) :
    (compact (obj members)).toList = '\x7b' :: (membersText members ++ ['\x7d']) := by
  simp [compact, membersText]

/-- Items are read up to the closing bracket. By induction on the list, since the reader goes on
after each comma. -/
theorem items?_itemsText {items : List Json} (hne : items ≠ []) (h : ∀ j ∈ items, Reads j)
    (fuel : Nat) (rest : List Char) (hfuel : 2 * (itemsText items).length < fuel) :
    items? fuel (itemsText items ++ ']' :: rest) = some (items, rest) := by
  induction items generalizing fuel with
  | nil => exact absurd rfl hne
  | cons j js ih =>
      obtain ⟨hj, hjs⟩ := List.forall_mem_cons.1 h
      obtain ⟨fuel, rfl⟩ := Nat.exists_eq_add_one_of_ne_zero (Nat.ne_zero_of_lt hfuel)
      rw [items?]
      cases js with
      | nil =>
          rw [itemsText_singleton] at hfuel ⊢
          rw [hj.read fuel _ (ends_cons (by decide) rest) (Nat.le_of_lt_succ hfuel)]
          rfl
      | cons j' js =>
          rw [itemsText_cons_cons, List.length_append, List.length_cons] at hfuel
          have htail := ih (List.cons_ne_nil j' js) hjs fuel (by omega)
          rw [itemsText_cons_cons, List.append_assoc, List.cons_append,
            hj.read fuel _ (ends_cons (by decide) _) (by omega)]
          simp [skipSpace, isSpace, htail]

/-- Members are read up to the closing brace, and their keys are all readable. Keys that cannot be
read would spoil the object, though not the text. -/
theorem members?_membersText {members : List (String × Json)} (hne : members ≠ [])
    (h : ∀ m ∈ members, Reads m.2) (fuel : Nat) (rest : List Char)
    (hfuel : 2 * (membersText members).length < fuel) :
    members? fuel (membersText members ++ '\x7d' :: rest) =
      some (members.map fun m => (some m.1, m.2), rest) := by
  induction members generalizing fuel with
  | nil => exact absurd rfl hne
  | cons m ms ih =>
      obtain ⟨hm, hms⟩ := List.forall_mem_cons.1 h
      obtain ⟨fuel, rfl⟩ := Nat.exists_eq_add_one_of_ne_zero (Nat.ne_zero_of_lt hfuel)
      rw [members?]
      cases ms with
      | nil =>
          rw [membersText_singleton, List.length_append, List.length_cons] at hfuel
          have hvalue := hm.read fuel ('\x7d' :: rest) (ends_cons (by decide) rest) (by omega)
          rw [membersText_singleton, toList_quote]
          simp [skipSpace, isSpace, string?_escaped, hvalue]
      | cons m' ms =>
          rw [membersText_cons_cons, List.length_append, List.length_cons, List.length_append,
            List.length_cons] at hfuel
          -- behind a member there is a comma, and then the others
          have htail := ih (List.cons_ne_nil m' ms) hms fuel (by omega)
          have hvalue := hm.read fuel (',' :: (membersText (m' :: ms) ++ '\x7d' :: rest))
            (ends_cons (by decide) _) (by omega)
          rw [membersText_cons_cons, toList_quote]
          simp [skipSpace, isSpace, string?_escaped, hvalue, htail]

theorem mapM_eq_some {α β : Type} {f : α → Option β} {l : List α} {l' : List β}
    (h : List.Forall₂ (fun a b => f a = some b) l l') : l.mapM f = some l' := by
  induction h with
  | nil => rfl
  | cons ha _ ih => simp [ha, ih]

theorem object_map (members : List (String × Json)) :
    object (members.map fun m => (some m.1, m.2)) = obj members := by
  have hkeys : ∀ {f : Option String × Json → Option (String × Json)},
      (∀ k j, f (some k, j) = some (k, j)) →
        (members.map fun m => (some m.1, m.2)).mapM f = some members := fun hf =>
    mapM_eq_some (List.forall₂_map_left_iff.2 (List.forall₂_same.2 fun m _ => hf m.1 m.2))
  rw [object, hkeys fun _ _ => rfl]

/-- Arrays are read back, if their items are. -/
theorem reads_arr {items : List Json} (h : ∀ j ∈ items, Reads j) : Reads (arr items) := by
  have htext := toList_compact_arr items
  refine .of_succ ⟨'[', _, htext, rfl, by decide⟩ fun {fuel rest} _ hfuel => ?_
  rw [htext, List.length_cons, List.length_append, List.length_singleton] at hfuel
  rw [htext, List.cons_append, List.append_assoc]
  cases items with
  | nil => rfl
  | cons j js =>
      have hstarts : Starts (itemsText (j :: js)) := by
        have hj := (h j List.mem_cons_self).starts
        cases js with
        | nil => exact (itemsText_singleton j).symm ▸ hj
        | cons j' js => exact (itemsText_cons_cons j j' js).symm ▸ hj.append _
      rw [value?_arr (hstarts.append _), List.singleton_append,
        items?_itemsText (List.cons_ne_nil j js) h fuel rest (by omega)]
      rfl

/-- Objects are read back, if the values of their members are. -/
theorem reads_obj {members : List (String × Json)} (h : ∀ m ∈ members, Reads m.2) :
    Reads (obj members) := by
  have htext := toList_compact_obj members
  refine .of_succ ⟨'\x7b', _, htext, rfl, by decide⟩ fun {fuel rest} _ hfuel => ?_
  rw [htext, List.length_cons, List.length_append, List.length_singleton] at hfuel
  rw [htext, List.cons_append, List.append_assoc]
  cases members with
  | nil => rfl
  | cons m ms =>
      have hread := members?_membersText (List.cons_ne_nil m ms) h fuel rest (by omega)
      obtain ⟨t, ht⟩ : ∃ t, membersText (m :: ms) = '"' :: t := by
        cases ms with
        | nil => exact ⟨_, by rw [membersText_singleton, toList_quote, List.cons_append]⟩
        | cons m' ms => exact ⟨_, by rw [membersText_cons_cons, toList_quote, List.cons_append]⟩
      rw [List.singleton_append]
      rw [ht, List.cons_append] at hread ⊢
      rw [value?_obj, hread, Option.map_some, object_map]

/-- Reading the text of a value gives it back, if it has no floats and unreadable parts. The
induction is over the value, with the items of arrays and the members of objects as parts. -/
theorem Exact.reads {j : Json} (h : Exact j) : Reads j := by
  induction h with
  | null => exact reads_null
  | bool b => exact reads_bool b
  | int n => exact reads_int n
  | str s => exact reads_str s
  | arr _ ih => exact reads_arr ih
  | obj _ ih => exact reads_obj ih

theorem Exact.parse?_compact {j : Json} (h : Exact j) : parse? j.compact = some j := by
  have hread := h.reads.read (2 * j.compact.toList.length + 2) [] (fun _ hc => by cases hc)
    (Nat.le_add_right _ 2)
  rw [List.append_nil] at hread
  simp [parse?, hread, skipSpace]

end Pathwise.Json
