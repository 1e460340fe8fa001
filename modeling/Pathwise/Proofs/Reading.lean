import Mathlib.Data.List.Forall2
import Pathwise.Smt.Sexp

/-!
# Pathwise.Proofs.Reading

What the reader of S-expressions makes of a text that is put together from pieces.

A piece that stands where a token may begin adds some expressions to the list around it, whatever
this list is (`Sexp.Reads`). Pieces with blanks between them add their expressions one after the
other, and a piece in parentheses adds one list. Not every text is such a piece: it may close the
list around it, or end inside quotes or a comment. `Sexp.closed` runs the reader on a text to find
out (`Sexp.closed_iff`).

The reader is an automaton on characters with a mode and a stack of open lists. A text is read up
to a point and then goes on from there (`Sexp.scan_append`), so that the text of a term can be
read piece by piece as it was written. Two things are left open at the end of a piece: an atom may
still be unfinished, which the next delimiter finishes, and a comment may still go on, which only
a line break ends. `Sexp.ReadsTo` has the kinds of modes that a piece may end in as a parameter,
because scripts with comments need more of them than terms.

That the lists around a piece make no difference is what allows `Sexp.closed` to be a test: it
runs the reader inside of no list at all, and the result carries over to any other place.
-/

namespace Pathwise.Smt.Sexp

/-! ## Runs of the reader

The reader without its end, the items that it has so far, and what would become of an unfinished
token. -/

/-- Read characters in turn, without an end of the text. -/
def scan (m : Mode) (o : Open) : List Char → Except SexpError (Mode × Open)
  | [] => .ok (m, o)
  | c :: cs => step m o c >>= fun a => scan a.1 a.2 cs

/-- Reading a text to its end is reading its characters and then closing. -/
theorem run_eq_scan (m : Mode) (o : Open) (cs : List Char) :
    run m o cs = scan m o cs >>= fun a => (close a.1 a.2).finish := by
  induction cs generalizing m o with
  | nil => rfl
  | cons c cs ih =>
      rw [run, scan]
      cases step m o c with
      | error e => rfl
      | ok a => exact ih a.1 a.2

/-- A text may be read in two parts. All that the reader remembers of the first one is its mode
and the open lists. -/
theorem scan_append {m m' : Mode} {o o' : Open} {cs : List Char}
    (h : scan m o cs = .ok (m', o')) (ds : List Char) :
    scan m o (cs ++ ds) = scan m' o' ds := by
  induction cs generalizing m o with
  | nil =>
      cases h
      rfl
  | cons c cs ih =>
      rw [List.cons_append, scan]
      rw [scan] at h
      cases hc : step m o c with
      | error e =>
          rw [hc] at h
          cases h
      | ok a =>
          rw [hc] at h
          exact ih h

/-- Characters that go on with what is being read. -/
theorem scan_within {f : List Char → Mode} {o : Open} {cs : List Char}
    (h : ∀ c ∈ cs, ∀ chars, step (f chars) o c = .ok (f (c :: chars), o)) (chars : List Char) :
    scan (f chars) o cs = .ok (f (cs.reverse ++ chars), o) := by
  induction cs generalizing chars with
  | nil => rfl
  | cons c cs ih =>
      obtain ⟨hc, hcs⟩ := List.forall_mem_cons.1 h
      rw [scan, hc]
      show scan (f (c :: chars)) o cs = _
      rw [ih hcs, List.reverse_cons, List.append_assoc]
      rfl

/-- The items of the innermost list, with more of them at the end. -/
def Open.append (o : Open) (xs : List Sexp) : Open := ⟨xs.reverse ++ o.inner, o.outer⟩

@[simp] theorem Open.append_nil (o : Open) : o.append [] = o := rfl

@[simp] theorem Open.append_append (o : Open) (xs ys : List Sexp) :
    (o.append xs).append ys = o.append (xs ++ ys) := by
  simp [append]

/-- A list that is opened, filled and closed is one more item. -/
theorem Open.leave?_enter (o : Open) (xs : List Sexp) :
    (o.enter.append xs).leave? = .ok (o.append [list xs]) := by
  simp [enter, append, leave?]

/-- The atom that the end of the text would end. -/
def Mode.pending : Mode → List Sexp
  | .idle | .comment => []
  | .quoted _ chars | .plain chars => [atomOf chars]

theorem close_eq (m : Mode) (o : Open) : close m o = o.append m.pending := by
  cases m <;> rfl

/-- A blank or a parenthesis would end the token that is being read. -/
def Mode.loose : Mode → Bool
  | .idle | .plain _ => true
  | .comment | .quoted _ _ => false

/-- Blanks and parentheses end tokens. -/
def delimits (c : Char) : Bool := Text.isBlank c || c = '(' || c = ')'

/-- A delimiter ends the token and is looked at again. -/
theorem step_of_delimits {m : Mode} (hm : m.loose) {c : Char} (hc : delimits c) (o : Open) :
    step m o c = begin (o.append m.pending) c := by
  cases m with
  | idle => rfl
  | plain chars =>
      unfold delimits at hc
      rw [step, if_pos hc]
      rfl
  | comment => cases hm
  | quoted close chars => cases hm

/-! ## Texts that add expressions

The relation between pieces and expressions, and its laws: whole texts, separators, parentheses
and lists of pieces. -/

/-- Between tokens, reading the text adds expressions to the innermost list and ends in the
given mode. -/
def Adds (text : String) (m : Mode) (xs : List Sexp) : Prop :=
  ∀ o, scan .idle o text.toList = .ok (m, o.append xs)

/-- Between tokens, reading the text to its end adds expressions to the innermost list, and the
mode is of a kind then. -/
def ReadsTo (kind : Mode → Bool) (text : String) (xs : List Sexp) : Prop :=
  ∃ m ys, kind m ∧ Adds text m ys ∧ xs = ys ++ m.pending

/-- In a mode of the kind, the separator ends the token or comment that is being read. -/
def EndedBy (kind : Mode → Bool) (sep : String) : Prop :=
  ∀ m, kind m → ∀ o, scan m o sep.toList = .ok (.idle, o.append m.pending)

variable {s t : String} {xs ys : List Sexp}

namespace ReadsTo

variable {kind kind' : Mode → Bool}

theorem weaken (h : ReadsTo kind s xs) (hkind : ∀ m, kind m → kind' m) : ReadsTo kind' s xs := by
  obtain ⟨m, ys, hm, hs, rfl⟩ := h
  exact ⟨m, ys, hkind m hm, hs, rfl⟩

/-- A text that can be read as a whole. -/
theorem parse_eq (h : ReadsTo kind s xs) : parse s = .ok xs := by
  obtain ⟨m, us, -, hs, rfl⟩ := h
  rw [parse, run_eq_scan, hs]
  show (close m (Open.start.append us)).finish = _
  rw [close_eq, Open.append_append]
  simp [Open.append, Open.start, Open.finish]

/-- Pieces with a separator between them add their expressions one after the other. The separator
must end whatever mode the first piece leaves the reader in. -/
theorem separated {sep : String} (hsep : EndedBy kind sep) (hs : ReadsTo kind s xs)
    (ht : ReadsTo kind' t ys) : ReadsTo kind' (s ++ sep ++ t) (xs ++ ys) := by
  obtain ⟨m, us, hm, hs, rfl⟩ := hs
  obtain ⟨n, vs, hn, ht, rfl⟩ := ht
  refine ⟨n, us ++ m.pending ++ vs, hn, fun o => ?_, by simp⟩
  rw [String.toList_append, String.toList_append, List.append_assoc, scan_append (hs o),
    scan_append (hsep m hm _), Open.append_append, ht, Open.append_append]

/-- Pieces with separators between them, each in a place of its own. -/
theorem intercalate {sep : String} (hidle : kind .idle) (hsep : EndedBy kind sep)
    {texts : List String} {xss : List (List Sexp)} (h : List.Forall₂ (ReadsTo kind) texts xss) :
    ReadsTo kind (sep.intercalate texts) xss.flatten := by
  induction h with
  | nil => exact ⟨.idle, [], hidle, fun _ => rfl, rfl⟩
  | @cons s xs texts xss hs hrest ih =>
      cases hrest with
      | nil => simpa using hs
      | cons =>
          rw [String.intercalate_cons_cons, List.flatten_cons]
          exact hs.separated hsep ih

theorem map {α : Type} {sep : String} (hidle : kind .idle) (hsep : EndedBy kind sep) {l : List α}
    {text : α → String} {items : α → List Sexp} (h : ∀ a ∈ l, ReadsTo kind (text a) (items a)) :
    ReadsTo kind (sep.intercalate (l.map text)) (l.flatMap items) := by
  have hreads : List.Forall₂ (ReadsTo kind) (l.map text) (l.map items) := by
    rw [List.forall₂_map_left_iff, List.forall₂_map_right_iff, List.forall₂_same]
    exact h
  rw [List.flatMap_def]
  exact intercalate hidle hsep hreads

end ReadsTo

/-- Between tokens, reading the text up to a delimiter adds expressions to the innermost list. -/
abbrev Reads (text : String) (xs : List Sexp) : Prop := ReadsTo Mode.loose text xs

theorem reads_empty : Reads "" [] := ⟨.idle, [], rfl, fun _ => rfl, rfl⟩

/-- The texts that stand between pieces. -/
def separators : List String := [" ", "\n"]

/-- Behind a separator the reader is idle. -/
theorem endedBy_separator {sep : String} (hsep : sep ∈ separators) : EndedBy Mode.loose sep := by
  intro m hm o
  have hstep : ∀ c, c = ' ' ∨ c = '\n' → scan m o [c] = .ok (.idle, o.append m.pending) := by
    rintro c (rfl | rfl) <;> rw [scan, step_of_delimits hm (by decide)] <;> rfl
  simp only [separators, List.mem_cons, List.not_mem_nil, or_false] at hsep
  rcases hsep with rfl | rfl
  · exact hstep ' ' (Or.inl rfl)
  · exact hstep '\n' (Or.inr rfl)

/-- A piece in parentheses is one list. -/
theorem Reads.paren (hs : Reads s xs) : Reads ("(" ++ s ++ ")") [list xs] := by
  obtain ⟨m, us, hm, hs, rfl⟩ := hs
  refine ⟨.idle, [list (us ++ m.pending)], rfl, fun o => ?_, rfl⟩
  have hopen : scan .idle o ('(' :: s.toList) = .ok (m, o.enter.append us) := hs o.enter
  have hclose : scan m (o.enter.append us) [')'] =
      .ok (.idle, o.append [list (us ++ m.pending)]) := by
    rw [scan, step_of_delimits hm (by decide), Open.append_append, begin, if_neg (by decide),
      if_pos rfl, Open.leave?_enter]
    rfl
  rw [String.toList_append, String.toList_append]
  show scan .idle o ('(' :: s.toList ++ [')']) = _
  rw [scan_append hopen, hclose]

/-- Pieces of one expression each. -/
theorem reads_map {α : Type} {sep : String} (hsep : sep ∈ separators) {l : List α}
    {text : α → String} {item : α → Sexp} (h : ∀ a ∈ l, Reads (text a) [item a]) :
    Reads (sep.intercalate (l.map text)) (l.map item) := by
  have hreads := ReadsTo.map rfl (endedBy_separator hsep) h
  rwa [← List.map_eq_flatMap] at hreads

/-! ## Atoms

Which texts are read as one atom. Characters that start a token of another kind are special only
at its beginning. -/

theorem isBlank_of_isDigit {c : Char} (h : c.isDigit) : Text.isBlank c = false := by
  have hrange : 48 ≤ c.toNat ∧ c.toNat ≤ 57 := by
    simpa [Char.isDigit, UInt32.le_iff_toNat_le] using h
  simp [Text.isBlank, Text.blankRanges]
  omega

/-- The character neither ends a token nor starts one of another kind. -/
def ordinary (c : Char) : Bool := !delimits c && c ≠ ';' && c ≠ '|' && c ≠ '"'

/-- All characters of the text are ordinary. -/
def isWord (s : String) : Bool := s.toList.all ordinary

theorem isWord_iff : isWord s ↔ ∀ c ∈ s.toList, ordinary c := List.all_eq_true

theorem delimits_of_ordinary {c : Char} (hc : ordinary c) : delimits c = false := by
  simp only [ordinary, Bool.and_eq_true, Bool.not_eq_true'] at hc
  exact hc.1.1.1

/-- An ordinary character starts an atom. -/
theorem step_ordinary {c : Char} (hc : ordinary c) (o : Open) :
    step .idle o c = .ok (.plain [c], o) := by
  simp only [ordinary, delimits, Bool.and_eq_true, Bool.not_eq_true', Bool.or_eq_false_iff,
    decide_eq_true_eq, decide_eq_false_iff_not] at hc
  obtain ⟨⟨⟨⟨⟨hblank, hopen⟩, hclose⟩, hcomment⟩, hbar⟩, hquote⟩ := hc
  simp [step, begin, hblank, hopen, hclose, hcomment, hbar, hquote]

theorem step_plain {c : Char} (hc : delimits c = false) (chars : List Char) (o : Open) :
    step (.plain chars) o c = .ok (.plain (c :: chars), o) := by
  unfold delimits at hc
  rw [step, hc, if_neg Bool.false_ne_true]

/-- An atom goes on up to a delimiter. -/
theorem scan_plain {cs : List Char} (hcs : ∀ c ∈ cs, delimits c = false) (chars : List Char)
    (o : Open) : scan (.plain chars) o cs = .ok (.plain (cs.reverse ++ chars), o) :=
  scan_within (fun c hc chars => step_plain (hcs c hc) chars o) chars

/-- The text is not empty, has no delimiters in it, and its first character is ordinary. Quotes and
semicolons are special only at the beginning of a token. -/
def isSymbol (s : String) : Bool :=
  match s.toList with
  | [] => false
  | c :: cs => ordinary c && cs.all fun d => !delimits d

/-- What a symbol is, character by character. -/
theorem isSymbol_iff :
    isSymbol s ↔
      ∃ c cs, s.toList = c :: cs ∧ ordinary c ∧ ∀ d ∈ cs, delimits d = false := by
  unfold isSymbol
  cases s.toList <;> simp

theorem reads_symbol (hs : isSymbol s) : Reads s [atom s] := by
  obtain ⟨c, cs, h, hc, hcs⟩ := isSymbol_iff.1 hs
  have hatom : atomOf (cs.reverse ++ [c]) = atom s := by
    rw [atomOf, List.reverse_append, List.reverse_reverse]
    show atom (String.ofList (c :: cs)) = _
    rw [← h, String.ofList_toList]
  refine ⟨.plain (cs.reverse ++ [c]), [], rfl, fun o => ?_, by simp [Mode.pending, hatom]⟩
  rw [h, scan, step_ordinary hc o]
  exact scan_plain hcs [c] o

/-- A text of ordinary characters is a symbol, unless it is empty. -/
theorem isSymbol_of_isWord (hs : isWord s) (hne : s ≠ "") : isSymbol s := by
  cases h : s.toList with
  | nil => exact absurd (String.toList_eq_nil_iff.1 h) hne
  | cons c cs =>
      rw [isWord_iff, h] at hs
      obtain ⟨hc, hcs⟩ := List.forall_mem_cons.1 hs
      exact isSymbol_iff.2 ⟨c, cs, h, hc, fun d hd => delimits_of_ordinary (hcs d hd)⟩

theorem isWord_append (hs : isWord s) (ht : isWord t) : isWord (s ++ t) := by
  rw [isWord_iff, String.toList_append, List.forall_mem_append]
  exact ⟨isWord_iff.1 hs, isWord_iff.1 ht⟩

/-- A text that can be read can also be read with ordinary characters behind it. They go on with
its last atom, or make one of their own. -/
theorem Reads.extend (hs : Reads s xs) (ht : isWord t) : ∃ ys, Reads (s ++ t) ys := by
  obtain ⟨m, us, hm, hs, rfl⟩ := hs
  cases ht' : t.toList with
  | nil =>
      refine ⟨_, m, us, hm, fun o => ?_, rfl⟩
      rw [String.toList_append, ht', List.append_nil, hs]
  | cons c cs =>
      rw [isWord_iff, ht'] at ht
      obtain ⟨hc, hcs⟩ := List.forall_mem_cons.1 ht
      cases m with
      | idle =>
          refine ⟨_, .plain (cs.reverse ++ [c]), us, rfl, fun o => ?_, rfl⟩
          rw [String.toList_append, ht', scan_append (hs o), scan, step_ordinary hc]
          exact scan_plain (fun d hd => delimits_of_ordinary (hcs d hd)) [c] _
      | plain chars =>
          refine ⟨_, .plain ((c :: cs).reverse ++ chars), us, rfl, fun o => ?_, rfl⟩
          rw [String.toList_append, ht', scan_append (hs o)]
          exact scan_plain (fun d hd => delimits_of_ordinary (ht d hd)) chars _
      | comment => cases hm
      | quoted close chars => cases hm

/-! ## Closed texts

A run of the reader inside of lists is the run outside of any, with the lists around it put back.
It fails to be so only if the text closes one of them, which the run outside would have reported.
-/

/-- Reading the text closes no list around it, leaves none open, and ends outside quotes and
comments. -/
def closed (text : String) : Bool :=
  match scan .idle .start text.toList with
  | .ok (m, o) => m.loose && o.outer.isEmpty
  | .error _ => false

/-- The lists that are open when the reader began inside the lists `base`. -/
def Open.stack (base : Open) : (inner : List Sexp) → (outer : List (List Sexp)) → Open
  | inner, [] => ⟨inner ++ base.inner, base.outer⟩
  | inner, items :: outer =>
    ⟨inner, (stack base items outer).inner :: (stack base items outer).outer⟩

/-- The reader, begun inside the lists `base`. -/
def Open.onto (base o : Open) : Open := base.stack o.inner o.outer

namespace Open

variable (base : Open) {o o' : Open}

theorem onto_push (o : Open) (x : Sexp) : base.onto (o.push x) = (base.onto o).push x := by
  obtain ⟨inner, outer⟩ := o
  cases outer <;> rfl

theorem onto_enter (o : Open) : base.onto o.enter = (base.onto o).enter := rfl

theorem leave?_onto (h : o.leave? = .ok o') : (base.onto o).leave? = .ok (base.onto o') := by
  obtain ⟨inner, outer⟩ := o
  cases outer with
  | nil => cases h
  | cons items outer =>
      cases h
      exact congrArg Except.ok (base.onto_push ⟨items, outer⟩ (list inner.reverse)).symm

end Open

/-- The characters of the atom that is being read are the beginning of a token. -/
def Mode.Sound : Mode → Prop
  | .idle | .comment => True
  | .plain chars => ∃ c cs, chars.reverse = c :: cs ∧ ordinary c ∧ ∀ d ∈ cs, delimits d = false
  | .quoted q chars => (q = '|' ∨ q = '"') ∧ ∃ cs, chars.reverse = q :: cs ∧ q ∉ cs

/-- Between tokens a character opens a list, closes one, or leaves the lists alone. What token it
begins does not matter for the lists. -/
theorem begin_cases (c : Char) :
    (∀ o, begin o c = .ok (.idle, o.enter)) ∨
      (∀ o, begin o c = o.leave?.map fun o => (.idle, o)) ∨
      ∃ m, Mode.Sound m ∧ ∀ o, begin o c = .ok (m, o) := by
  unfold begin
  by_cases hopen : c = '('
  · exact Or.inl fun o => if_pos hopen
  simp only [if_neg hopen]
  by_cases hclose : c = ')'
  · exact Or.inr (Or.inl fun o => if_pos hclose)
  simp only [if_neg hclose]
  refine Or.inr (Or.inr ?_)
  by_cases hcomment : c = ';'
  · exact ⟨.comment, trivial, fun o => if_pos hcomment⟩
  simp only [if_neg hcomment]
  by_cases hblank : Text.isBlank c
  · exact ⟨.idle, trivial, fun o => if_pos hblank⟩
  simp only [if_neg hblank]
  by_cases hquote : c = '|' ∨ c = '"'
  · exact ⟨.quoted c [c], ⟨hquote, [], rfl, List.not_mem_nil⟩,
      fun o => if_pos (by simpa using hquote)⟩
  · have hordinary : ordinary c := by
      simpa [ordinary, delimits, hopen, hclose, hcomment, hblank] using hquote
    exact ⟨.plain [c], ⟨c, [], rfl, hordinary, List.forall_mem_nil _⟩,
      fun o => if_neg (by simpa using hquote)⟩

/-- The lists around it make no difference to the reader, as long as it closes none of them. If it
does, the reader without lists around it reports an error. -/
theorem begin_onto (base : Open) {o o' : Open} {c : Char} {m : Mode}
    (h : begin o c = .ok (m, o')) : begin (base.onto o) c = .ok (m, base.onto o') := by
  rcases begin_cases c with hc | hc | ⟨n, -, hc⟩
  · rw [hc] at h ⊢
    cases h
    rw [base.onto_enter]
  · rw [hc] at h ⊢
    cases hl : o.leave? with
    | error e =>
        rw [hl] at h
        cases h
    | ok o₁ =>
        rw [hl] at h
        cases h
        rw [base.leave?_onto hl]
        rfl
  · rw [hc] at h ⊢
    cases h
    rfl

/-- A character is read alike inside of other lists. -/
theorem step_onto (base : Open) {m m' : Mode} {o o' : Open} {c : Char}
    (h : step m o c = .ok (m', o')) : step m (base.onto o) c = .ok (m', base.onto o') := by
  cases m with
  | idle => exact begin_onto base h
  | comment =>
      cases h
      rfl
  | quoted close chars =>
      rw [step] at h ⊢
      by_cases hc : c = close
      · rw [if_pos hc] at h ⊢
        cases h
        rw [base.onto_push]
      · rw [if_neg hc] at h ⊢
        cases h
        rfl
  | plain chars =>
      by_cases hc : delimits c
      · rw [step_of_delimits rfl hc] at h ⊢
        -- the word is complete, and goes into the innermost list in both cases
        have hpush : (base.onto o).append (Mode.plain chars).pending =
            base.onto (o.append (Mode.plain chars).pending) := (base.onto_push o _).symm
        rw [hpush]
        exact begin_onto base h
      · unfold delimits at hc
        rw [step, if_neg hc] at h ⊢
        cases h
        rfl

theorem scan_onto (base : Open) {m m' : Mode} {o o' : Open} {cs : List Char}
    (h : scan m o cs = .ok (m', o')) : scan m (base.onto o) cs = .ok (m', base.onto o') := by
  induction cs generalizing m o with
  | nil =>
      cases h
      rfl
  | cons c cs ih =>
      rw [scan] at h ⊢
      cases hc : step m o c with
      | error e =>
          rw [hc] at h
          cases h
      | ok a =>
          rw [hc] at h
          rw [step_onto base hc]
          exact ih h

/-- The closed texts are those that can be read anywhere between tokens. What they are read as is
not said, and may be several expressions or none. -/
theorem closed_iff : closed s ↔ ∃ xs, Reads s xs := by
  unfold closed
  constructor
  · intro h
    split at h
    · next m o hscan =>
        obtain ⟨inner, outer⟩ := o
        obtain ⟨hm, ho⟩ := Bool.and_eq_true_iff.1 h
        cases List.isEmpty_iff.1 ho
        refine ⟨_, m, inner.reverse, hm, fun base => ?_, rfl⟩
        have hbase := scan_onto base hscan
        rwa [Open.append, List.reverse_reverse]
    · cases h
  · rintro ⟨xs, m, us, hm, hs, -⟩
    rw [hs]
    exact Bool.and_eq_true_iff.2 ⟨hm, rfl⟩

theorem Reads.closed (h : Reads s xs) : Sexp.closed s := closed_iff.2 ⟨xs, h⟩

theorem closed_of_isWord (h : isWord s) : closed s := by
  obtain ⟨ys, hys⟩ := reads_empty.extend h
  rw [String.empty_append] at hys
  exact hys.closed

/-- A word may follow a closed text directly. -/
theorem closed_append (hs : closed s) (ht : isWord t) : closed (s ++ t) := by
  obtain ⟨xs, hxs⟩ := closed_iff.1 hs
  obtain ⟨ys, hys⟩ := hxs.extend ht
  exact hys.closed

theorem closed_separated (hs : closed s) (ht : closed t) {sep : String} (hsep : sep ∈ separators) :
    closed (s ++ sep ++ t) := by
  obtain ⟨xs, hxs⟩ := closed_iff.1 hs
  obtain ⟨ys, hys⟩ := closed_iff.1 ht
  exact Reads.closed (hxs.separated (endedBy_separator hsep) hys)

theorem closed_paren (hs : closed s) : closed ("(" ++ s ++ ")") := by
  obtain ⟨xs, hxs⟩ := closed_iff.1 hs
  exact hxs.paren.closed

theorem forall₂_of_closed {texts : List String} (h : ∀ s ∈ texts, closed s) :
    ∃ xss, List.Forall₂ Reads texts xss := by
  induction texts with
  | nil => exact ⟨[], .nil⟩
  | cons s texts ih =>
      obtain ⟨hs, htexts⟩ := List.forall_mem_cons.1 h
      obtain ⟨xs, hxs⟩ := closed_iff.1 hs
      obtain ⟨xss, hxss⟩ := ih htexts
      exact ⟨xs :: xss, .cons hxs hxss⟩

theorem closed_intercalate {sep : String} (hsep : sep ∈ separators) {texts : List String}
    (h : ∀ s ∈ texts, closed s) : closed (sep.intercalate texts) := by
  obtain ⟨xss, hxss⟩ := forall₂_of_closed h
  exact Reads.closed (.intercalate rfl (endedBy_separator hsep) hxss)

end Pathwise.Smt.Sexp
