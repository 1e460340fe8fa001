import Pathwise.Proofs.Reading

/-!
# Pathwise.Proofs.Tokens

Reading and rendering of S-expressions undo each other.

An atom is a token if it is read as one atom between delimiters: a word, or a text in quotes.
Expressions whose atoms are tokens are read back from their text (`Sexp.WellFormed.reads`). The
reader builds no other expressions, with one exception. A text can end inside quotes, and then its
last atom has no closing quote. What the reader holds at any time is well-formed, and the
characters of the token that is being read are those of its beginning (`Sexp.Mode.Sound`). One
step keeps this (`Sexp.step_sound`), so all of them do (`Sexp.scan_sound`).

Because of the exception the second half is more than the first applied to what was read. The atom
without a closing quote is no token, and yet it is read back from its own text, provided that
nothing follows it. It is always the last expression of a text and stands in no list, for a list
that is still open is an error. Rendering puts it at the end again, and so the text ends inside
quotes as the first one did (`Sexp.readsTo_renderList`).

Comments and the blanks between tokens are lost when a text is read. The statement is therefore
about expressions, and says nothing about which of the texts of an expression was read.
-/

namespace Pathwise.Smt.Sexp

/-! ## Tokens

The two kinds of tokens, and that the reader takes each as one atom. -/

/-- The texts that are read as one atom between delimiters. -/
inductive Token : String → Prop where
  | plain {s : String} (hs : isSymbol s) : Token s
  /-- A text in quotes, without such quotes inside. -/
  | quoted {s : String} {q : Char} {cs : List Char} (hs : s.toList = q :: (cs ++ [q]))
      (hq : q = '|' ∨ q = '"') (hcs : q ∉ cs) : Token s

theorem step_quote {q : Char} (hq : q = '|' ∨ q = '"') (o : Open) :
    step .idle o q = .ok (.quoted q [q], o) := by
  rcases hq with hq | hq <;> subst hq <;> rfl

/-- A quoted atom goes on up to the closing quote. -/
theorem scan_quoted {q : Char} {cs : List Char} (hcs : q ∉ cs) (chars : List Char) (o : Open) :
    scan (.quoted q chars) o cs = .ok (.quoted q (cs.reverse ++ chars), o) := by
  refine scan_within (fun c hc chars => ?_) chars
  have hne : c ≠ q := fun h => hcs (h ▸ hc)
  rw [step, if_neg hne]

/-- A text that begins with a quote and has no other one ends inside quotes. No expression has
been added yet. -/
theorem adds_unfinished {s : String} {q : Char} {cs : List Char} (hs : s.toList = q :: cs)
    (hq : q = '|' ∨ q = '"') (hcs : q ∉ cs) : Adds s (.quoted q (cs.reverse ++ [q])) [] := by
  intro o
  rw [hs, scan, step_quote hq]
  exact scan_quoted hcs [q] o

/-- A text in quotes is read as one atom, whatever stands between the quotes. -/
theorem reads_quoted {s : String} {q : Char} {cs : List Char} (hs : s.toList = q :: (cs ++ [q]))
    (hq : q = '|' ∨ q = '"') (hcs : q ∉ cs) : Reads s [atom s] := by
  have hatom : atomOf (q :: (cs.reverse ++ [q])) = atom s := by
    have hreverse : (q :: (cs.reverse ++ [q])).reverse = s.toList := by simp [hs]
    rw [atomOf, hreverse, String.ofList_toList]
  refine ⟨.idle, [atom s], rfl, fun o => ?_, rfl⟩
  have hopen : scan .idle o (q :: cs) = .ok (.quoted q (cs.reverse ++ [q]), o) := by
    have hadds := adds_unfinished (String.toList_ofList (l := q :: cs)) hq hcs o
    rwa [String.toList_ofList] at hadds
  have hclose : scan (.quoted q (cs.reverse ++ [q])) o [q] = .ok (.idle, o.append [atom s]) := by
    rw [scan, step, if_pos rfl, hatom]
    rfl
  rw [hs, ← List.cons_append, scan_append hopen, hclose]

theorem Token.reads {s : String} (h : Token s) : Reads s [atom s] := by
  cases h with
  | plain hs => exact reads_symbol hs
  | quoted hs hq hcs => exact reads_quoted hs hq hcs

/-! ## Well-formed expressions

The expressions that have a text of their own. In their text each item of a list has a space
behind it or the closing parenthesis, which is enough to tell tokens from one another. -/

/-- All atoms of the expression are tokens. -/
inductive WellFormed : Sexp → Prop where
  | atom {s : String} (h : Token s) : WellFormed (.atom s)
  | list {items : List Sexp} (h : ∀ x ∈ items, WellFormed x) : WellFormed (.list items)

theorem renderList_eq_map (xs : List Sexp) : renderList xs = xs.map render := by
  induction xs with
  | nil => rfl
  | cons x xs ih => rw [renderList, ih, List.map_cons]

/-- A well-formed expression is read back from its text. A list is read from the texts of its
items, which have spaces between them and parentheses around them. -/
theorem WellFormed.reads {x : Sexp} (h : x.WellFormed) : Reads x.render [x] := by
  induction h with
  | atom h =>
      rw [render]
      exact h.reads
  | @list items _ ih =>
      have hitems : Reads (" ".intercalate (items.map render)) (items.map fun x => x) :=
        reads_map (by decide) ih
      rw [List.map_id'] at hitems
      rw [render, renderList_eq_map]
      exact hitems.paren

/-! ## What the reader holds

The invariant of the reader. It is about the lists that are open and about the unfinished token,
since the characters of a token are collected before it is known to end. -/

/-- All expressions that have been read have a property. -/
structure Open.All (P : Sexp → Prop) (o : Open) : Prop where
  inner : ∀ x ∈ o.inner, P x
  outer : ∀ items ∈ o.outer, ∀ x ∈ items, P x

namespace Open

variable {P : Sexp → Prop} {o o' : Open} {x : Sexp}

theorem All.push (h : o.All P) (hx : P x) : (o.push x).All P :=
  ⟨List.forall_mem_cons.2 ⟨hx, h.inner⟩, h.outer⟩

theorem All.enter (h : o.All P) : o.enter.All P :=
  ⟨List.forall_mem_nil _, List.forall_mem_cons.2 ⟨h.inner, h.outer⟩⟩

/-- A list that is closed is well-formed if its items are. -/
theorem All.leave? (h : o.All WellFormed) (ho : o.leave? = .ok o') : o'.All WellFormed := by
  obtain ⟨inner, outer⟩ := o
  cases outer with
  | nil => cases ho
  | cons items outer =>
      cases ho
      obtain ⟨hitems, houter⟩ := List.forall_mem_cons.1 h.outer
      have hlist : WellFormed (.list inner.reverse) :=
        .list fun x hx => h.inner x (List.mem_reverse.1 hx)
      exact ⟨List.forall_mem_cons.2 ⟨hlist, hitems⟩, houter⟩

end Open

variable {m m' : Mode} {o o' : Open} {c : Char}

/-- A word can end anywhere. -/
theorem wellFormed_plain {chars : List Char} (h : (Mode.plain chars).Sound) :
    (atomOf chars).WellFormed := by
  obtain ⟨c, cs, hchars, hc, hcs⟩ := h
  have htext : (String.ofList chars.reverse).toList = c :: cs := by
    rw [String.toList_ofList, hchars]
  exact .atom (.plain (isSymbol_iff.2 ⟨c, cs, htext, hc, hcs⟩))

/-- A quoted atom ends with its closing quote. The characters were kept newest first, so the
closing quote is put in front of them. -/
theorem wellFormed_quoted {q : Char} {chars : List Char} (h : (Mode.quoted q chars).Sound) :
    (atomOf (q :: chars)).WellFormed := by
  obtain ⟨hq, cs, hchars, hcs⟩ := h
  refine .atom (.quoted ?_ hq hcs)
  rw [String.toList_ofList, List.reverse_cons, hchars, List.cons_append]

/-- The first character of a token opens a list, closes one, or begins a token that has just this
character. -/
theorem begin_sound (ho : o.All WellFormed) (h : begin o c = .ok (m, o')) :
    m.Sound ∧ o'.All WellFormed := by
  rcases begin_cases c with hc | hc | ⟨n, hn, hc⟩
  · rw [hc] at h
    cases h
    exact ⟨trivial, ho.enter⟩
  · rw [hc] at h
    cases hl : o.leave? with
    | error e =>
        rw [hl] at h
        cases h
    | ok o₁ =>
        rw [hl] at h
        cases h
        exact ⟨trivial, ho.leave? hl⟩
  · rw [hc] at h
    cases h
    exact ⟨hn, ho⟩

/-- One character keeps what has been read well-formed. By cases on the mode, as in the definition
of a step. -/
theorem step_sound (hm : m.Sound) (ho : o.All WellFormed) (h : step m o c = .ok (m', o')) :
    m'.Sound ∧ o'.All WellFormed := by
  cases m with
  | idle => exact begin_sound ho h
  | comment =>
      cases h
      split <;> exact ⟨trivial, ho⟩
  | quoted q chars =>
      rw [step] at h
      split at h
      · next hc =>
          cases h
          subst hc
          exact ⟨trivial, ho.push (wellFormed_quoted hm)⟩
      · next hc =>
          cases h
          obtain ⟨hq, cs, hchars, hcs⟩ := hm
          refine ⟨⟨hq, cs ++ [c], ?_, ?_⟩, ho⟩
          · rw [List.reverse_cons, hchars, List.cons_append]
          · simp [hcs, Ne.symm hc]
  | plain chars =>
      by_cases hc : delimits c
      -- the delimiter ends the word, and is then read between tokens
      · rw [step_of_delimits rfl hc] at h
        exact begin_sound (ho.push (wellFormed_plain hm)) h
      · have hc : delimits c = false := Bool.eq_false_iff.2 hc
        rw [step_plain hc] at h
        cases h
        -- The token goes on, and its first character is as before.
        obtain ⟨d, cs, hchars, hd, hcs⟩ := hm
        refine ⟨⟨d, cs ++ [c], ?_, hd, ?_⟩, ho⟩
        · rw [List.reverse_cons, hchars, List.cons_append]
        · exact List.forall_mem_append.2 ⟨hcs, List.forall_mem_singleton.2 hc⟩

theorem scan_sound {cs : List Char} (hm : m.Sound) (ho : o.All WellFormed)
    (h : scan m o cs = .ok (m', o')) : m'.Sound ∧ o'.All WellFormed := by
  induction cs generalizing m o with
  | nil =>
      cases h
      exact ⟨hm, ho⟩
  | cons c cs ih =>
      rw [scan] at h
      cases hc : step m o c with
      | error e =>
          rw [hc] at h
          cases h
      | ok a =>
          rw [hc] at h
          obtain ⟨hm', ho'⟩ := step_sound hm ho hc
          exact ih hm' ho' h

/-- The expressions of a text are well-formed, up to a last atom that its end cuts short. The end
of the text closes no list, so the atom is not inside of one. -/
theorem parse_sound {t : String} {xs : List Sexp} (h : parse t = .ok xs) :
    ∃ ys m, Mode.Sound m ∧ (∀ x ∈ ys, x.WellFormed) ∧ xs = ys ++ m.pending := by
  rw [parse, run_eq_scan] at h
  cases hscan : scan .idle .start t.toList with
  | error e =>
      rw [hscan] at h
      cases h
  | ok a =>
      obtain ⟨m, o⟩ := a
      have hstart : Open.start.All WellFormed := ⟨List.forall_mem_nil _, List.forall_mem_nil _⟩
      have hidle : Mode.idle.Sound := trivial
      obtain ⟨hm, ho⟩ := scan_sound hidle hstart hscan
      rw [hscan] at h
      change (close m o).finish = .ok xs at h
      rw [close_eq, Open.finish] at h
      split at h
      · cases h
        refine ⟨o.inner.reverse, m, hm, fun x hx => ho.inner x (List.mem_reverse.1 hx), ?_⟩
        rw [Open.append, List.reverse_append, List.reverse_reverse]
      · cases h

/-! ## Reading what was rendered

The last atom of a text may be unfinished. It is kept apart from the others, as what the mode at
the end has pending. -/

variable {s : String} {xs : List Sexp}

/-- The text of an expression whose last token may be cut short. It is read as the same token,
which is cut short again. -/
theorem readsTo_pending (hm : m.Sound) {x : Sexp} (hx : x ∈ m.pending) :
    ReadsTo (fun _ => true) x.render [x] := by
  cases m with
  | idle => cases hx
  | comment => cases hx
  | plain chars =>
      rw [List.mem_singleton.1 hx]
      exact (wellFormed_plain hm).reads.weaken fun _ _ => rfl
  | quoted q chars =>
      obtain ⟨hq, cs, hchars, hcs⟩ := hm
      have htext : (String.ofList chars.reverse).toList = q :: cs := by
        rw [String.toList_ofList, hchars]
      have hreverse : cs.reverse ++ [q] = chars := by
        rw [← List.reverse_cons, ← hchars, List.reverse_reverse]
      have hadds := adds_unfinished htext hq hcs
      rw [hreverse] at hadds
      rw [List.mem_singleton.1 hx, atomOf, render]
      exact ⟨.quoted q chars, [], rfl, hadds, rfl⟩

theorem Mode.pending_cases (m : Mode) : m.pending = [] ∨ ∃ x, m.pending = [x] := by
  cases m with
  | idle | comment => exact Or.inl rfl
  | quoted _ chars | plain chars => exact Or.inr ⟨atomOf chars, rfl⟩

/-- Well-formed expressions are read back from their texts, one after the other. -/
theorem reads_renderList (h : ∀ x ∈ xs, x.WellFormed) :
    Reads (" ".intercalate (renderList xs)) xs := by
  have hreads : Reads (" ".intercalate (xs.map render)) (xs.map fun x => x) :=
    reads_map (by decide) fun x hx => (h x hx).reads
  rwa [List.map_id', ← renderList_eq_map] at hreads

/-- So are they with a token behind them that is cut short. The reader may be inside quotes at the
end, which is why the mode is left open. -/
theorem readsTo_renderList (h : ∀ x ∈ xs, x.WellFormed) (hm : m.Sound) :
    ReadsTo (fun _ => true) (" ".intercalate (renderList (xs ++ m.pending))) (xs ++ m.pending) := by
  rcases m.pending_cases with hp | ⟨y, hp⟩
  · rw [hp, List.append_nil]
    exact (reads_renderList h).weaken fun _ _ => rfl
  · have hy : ReadsTo (fun _ => true) y.render [y] := readsTo_pending hm (by simp [hp])
    have hsep := endedBy_separator (by decide : " " ∈ separators)
    rw [hp]
    -- nothing stands in front of the unfinished token, or a space does
    cases xs with
    | nil => simpa [renderList] using hy
    | cons x xs =>
        have hall := (reads_renderList h).separated hsep hy
        rw [renderList_eq_map, List.map_append, List.map_singleton,
          String.intercalate_append_of_ne_nil (by simp) (by simp), String.intercalate_singleton,
          ← renderList_eq_map]
        exact hall

end Pathwise.Smt.Sexp

namespace Pathwise.Smt

/-- Reading and rendering undo each other. Expressions over tokens are read back from their texts
with spaces between them, and so are the expressions of any text that can be read. -/
theorem rendered_expressions_read_back :
    (∀ xs : List Sexp, (∀ x ∈ xs, x.WellFormed) →
      Sexp.parse (" ".intercalate (Sexp.renderList xs)) = .ok xs) ∧
    ∀ (t : String) (xs : List Sexp), Sexp.parse t = .ok xs →
      Sexp.parse (" ".intercalate (Sexp.renderList xs)) = .ok xs := by
  constructor
  · intro xs h
    exact (Sexp.reads_renderList h).parse_eq
  · intro t xs h
    obtain ⟨ys, m, hm, hys, rfl⟩ := Sexp.parse_sound h
    exact (Sexp.readsTo_renderList hys hm).parse_eq

namespace Quoting

open Sexp

/-- A list with a quoted symbol that has a parenthesis in it, and a word with a semicolon. -/
def definition : Sexp := .list [.atom "set", .atom "|b (c|", .list [], .atom "d;e"]

theorem wellFormed_definition : definition.WellFormed := by
  have hset : Token "set" := .plain (by decide)
  have hbar : "|b (c|".toList = '|' :: (['b', ' ', '(', 'c'] ++ ['|']) := rfl
  have hquoted : Token "|b (c|" := .quoted hbar (Or.inl rfl) (by decide)
  have hword : Token "d;e" := .plain (by decide)
  refine .list ?_
  simp only [List.forall_mem_cons]
  exact ⟨.atom hset, .atom hquoted, .list (List.forall_mem_nil _), .atom hword,
    List.forall_mem_nil _⟩

/-- Tokens with no blank between them, a comment, and an end inside quotes. -/
def cut : String := "(set |b (c|()d;e);f\n\"g\"|h ("

def pieces : List Sexp := [definition, .atom "\"g\"", .atom "|h ("]

end Quoting

open Quoting

theorem rendered_expressions_read_back_cut :
    definition.WellFormed ∧
      Sexp.parse (" ".intercalate (Sexp.renderList [definition])) = .ok [definition] ∧
      Sexp.parse cut = .ok pieces ∧
      Sexp.parse (" ".intercalate (Sexp.renderList pieces)) = .ok pieces := by
  obtain ⟨hwell, hany⟩ := rendered_expressions_read_back
  have hcut : Sexp.parse cut = .ok pieces := rfl
  exact ⟨wellFormed_definition,
    hwell [definition] (List.forall_mem_singleton.2 wellFormed_definition), hcut, hany cut _ hcut⟩

end Pathwise.Smt
