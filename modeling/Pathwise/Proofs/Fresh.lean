import Pathwise.Proofs.Hygiene

/-!
# Pathwise.Proofs.Fresh

The variables that stand for the results of calls.

A fresh name says which variable it belongs to and carries a number (`freshName_inj`), so that
different calls on a path get different names. All fresh names are reserved, and a hygienic
program has none. The variables of a function together with all its fresh ones therefore form a
vocabulary (`Function.vocabulary`), and every formula that arises on a path of the function stays
within it.

An array gets a fresh length along with its fresh variable. So two things have to be shown of
names: that the decimal digits at the end determine the number, and that the name of a length,
which does not end in a digit, is never taken for that of a fresh variable.

How many fresh variables there are so far is part of the vocabulary (`Function.Speaks`). A formula
that was built before a call does not mention the fresh variables of that call, and this is what
allows their values to be chosen freely.
-/

namespace Pathwise

/-! ## Fresh names

Names are compared as lists of characters. A name is read from its end: the digits, then the
marker, and what is left is the name of the variable. -/

theorem toList_freshName (x : String) (k : Nat) :
    (freshName x k).toList = x.toList ++ "$post".toList ++ Nat.toDigits 10 k := by
  simp [freshName]

/-- The number of a fresh name is what its digits at the end say. The mark in front of them does
not end in a digit, whatever the name before it is. -/
theorem digits_freshName (x : String) (k : Nat) :
    ((freshName x k).toList.reverse.takeWhile Char.isDigit) = (Nat.toDigits 10 k).reverse := by
  have hdigits : ∀ c ∈ (Nat.toDigits 10 k).reverse, c.isDigit := fun c hc =>
    Nat.isDigit_of_mem_toDigits (by decide) (by decide) (List.mem_reverse.1 hc)
  rw [toList_freshName, List.reverse_append, List.takeWhile_append_of_pos hdigits]
  simp

/-- Nothing gets lost in a fresh name: the number is read off its digits at the end, and what is
in front of the mark is the name that it was made from. -/
theorem freshName_inj {x y : String} {j k : Nat} (h : freshName x j = freshName y k) :
    x = y ∧ j = k := by
  have hdigits : Nat.toDigits 10 j = Nat.toDigits 10 k := by
    rw [← List.reverse_inj, ← digits_freshName x, ← digits_freshName y, h]
  have hjk : j = k := by
    rw [← Nat.ofDigitChars_toDigits (b := 10) (n := j) (by decide) (by decide), hdigits,
      Nat.ofDigitChars_toDigits (by decide) (by decide)]
  refine ⟨?_, hjk⟩
  subst hjk
  have hlist := congrArg String.toList h
  rw [toList_freshName, toList_freshName, List.append_left_inj, List.append_left_inj] at hlist
  exact String.toList_inj.1 hlist

theorem lengthName_inj {x y : String} (h : Variable.lengthName x = Variable.lengthName y) :
    x = y := by
  have hlist := congrArg String.toList h
  simp only [Variable.lengthName, String.toList_append, List.append_left_inj] at hlist
  exact String.toList_inj.1 hlist

/-- A fresh name ends in a digit, so it is not the name of a length. -/
theorem freshName_ne_lengthName (x y : String) (k : Nat) :
    freshName x k ≠ Variable.lengthName y := by
  intro h
  have hdigits := digits_freshName x k
  rw [h, Variable.lengthName, String.toList_append, List.reverse_append] at hdigits
  have hnil : (Nat.toDigits 10 k).reverse = [] := by simpa [List.takeWhile] using hdigits.symm
  simp at hnil

theorem reserved_freshName (x : String) (k : Nat) : Reserved (freshName x k) := by
  refine ⟨x.toList, Nat.toDigits 10 k, ?_⟩
  rw [toList_freshName]

theorem reserved_lengthName {x : String} (h : Reserved x) : Reserved (Variable.lengthName x) := by
  unfold Reserved Variable.lengthName
  rw [String.toList_append]
  exact h.trans (List.infix_append' [] x.toList _)

/-! ## Fresh variables

The fresh variable is an array if the variable is of an array type, and then it has a length with
a reserved name. -/

namespace Variable

theorem name_fresh (v : Variable) (k : Nat) : (v.fresh k).name = freshName v.name k := by
  unfold fresh
  split <;> rfl

theorem ty_fresh (v : Variable) (k : Nat) : (v.fresh k).ty = v.ty := by
  unfold fresh
  split
  · next h => exact h.symm
  · rfl

theorem length?_fresh {v l : Variable} {k : Nat} (h : (v.fresh k).length? = some l) :
    l = .scalar (lengthName (freshName v.name k)) .int := by
  unfold fresh at h
  split at h
  · exact (Option.some.inj h).symm
  · cases h

theorem isSome_length?_fresh {v : Variable} (h : v.isArray = v.ty.isArray) (k : Nat) :
    (v.fresh k).length?.isSome = v.ty.isArray := by
  unfold isArray at h
  unfold fresh
  cases hk : v.kind <;> cases ht : v.ty <;> rw [hk, ht] at h <;> first | rfl | cases h

theorem name_of_mem_withLength_fresh {v w : Variable} {k : Nat} (h : w ∈ (v.fresh k).withLength) :
    (w = v.fresh k ∧ w.name = freshName v.name k) ∨
      (w = .scalar (lengthName (freshName v.name k)) .int ∧
        w.name = lengthName (freshName v.name k)) := by
  rcases mem_withLength.1 h with rfl | hl
  · exact Or.inl ⟨rfl, name_fresh v k⟩
  · exact Or.inr ⟨length?_fresh hl, by rw [length?_fresh hl]; rfl⟩

/-- A fresh variable has a reserved name, and so does its length. -/
theorem reserved_of_mem_withLength_fresh {v w : Variable} {k : Nat}
    (h : w ∈ (v.fresh k).withLength) : Reserved w.name := by
  rcases name_of_mem_withLength_fresh h with ⟨-, hn⟩ | ⟨-, hn⟩ <;> rw [hn]
  · exact reserved_freshName v.name k
  · exact reserved_lengthName (reserved_freshName v.name k)

/-- Fresh variables and their lengths have the same name only if they belong to the same
variable and have the same number. -/
theorem eq_of_mem_withLength_fresh {v v' w w' : Variable} {k k' : Nat}
    (h : w ∈ (v.fresh k).withLength) (h' : w' ∈ (v'.fresh k').withLength)
    (hn : w.name = w'.name) :
    v.name = v'.name ∧ k = k' ∧
      ((w = v.fresh k ∧ w' = v'.fresh k') ∨ w = w') := by
  rcases name_of_mem_withLength_fresh h with ⟨hw, hwn⟩ | ⟨hw, hwn⟩ <;>
    rcases name_of_mem_withLength_fresh h' with ⟨hw', hwn'⟩ | ⟨hw', hwn'⟩ <;>
    rw [hwn, hwn'] at hn
  · obtain ⟨hv, hk⟩ := freshName_inj hn
    exact ⟨hv, hk, Or.inl ⟨hw, hw'⟩⟩
  · exact absurd hn (freshName_ne_lengthName _ _ _)
  · exact absurd hn.symm (freshName_ne_lengthName _ _ _)
  · obtain ⟨hv, hk⟩ := freshName_inj (lengthName_inj hn)
    exact ⟨hv, hk, Or.inr (by rw [hw, hw', hv, hk])⟩

end Variable

/-! ## The vocabulary of a function

The variables of the text, with the lengths of arrays among them, and the fresh ones up to a
number. That names determine variables follows from hygiene for the text, and from the lemmas
above for fresh ones. -/

/-- The variables that formulas on a path of a function may read after `n` fresh variables have
been introduced. Fresh ones are numbered from one, and a length comes with its array. -/
def Function.Speaks (f : Function) (n : Nat) (v : Variable) : Prop :=
  v ∈ f.stateVariables ∨ ∃ t ∈ f.targets, ∃ k < n, v ∈ (t.fresh (k + 1)).withLength

namespace Function

variable {f : Function}

theorem Speaks.mono {m n : Nat} (h : m ≤ n) {v : Variable} (hv : f.Speaks m v) : f.Speaks n v :=
  hv.imp_right fun ⟨t, ht, k, hk, hvk⟩ => ⟨t, ht, k, Nat.lt_of_lt_of_le hk h, hvk⟩

/-- Without fresh variables, the vocabulary is that of the text. -/
theorem Speaks.mem_stateVariables {v : Variable} (hv : f.Speaks 0 v) : v ∈ f.stateVariables :=
  hv.resolve_right fun ⟨_, _, k, hk, _⟩ => Nat.not_lt_zero k hk

theorem stateVariables_of_mem {u v : Variable} (hu : u ∈ f.parameters ++ f.results ++ f.targets)
    (hv : v ∈ u.withLength) : v ∈ f.stateVariables :=
  List.mem_flatMap.2 ⟨u, List.mem_append_left _ hu, hv⟩

theorem stateVariables_of_reads {e : Expr} {u v : Variable} (he : e ∈ f.exprs)
    (hu : u ∈ e.reads []) (hv : v ∈ u.withLength) : v ∈ f.stateVariables :=
  List.mem_flatMap.2 ⟨u, List.mem_append_right _ (List.mem_flatMap.2 ⟨e, he, hu⟩), hv⟩

theorem stateVariables_of_targets {v : Variable} (hv : v ∈ f.targets) : v ∈ f.stateVariables :=
  stateVariables_of_mem (List.mem_append_right _ hv) v.self_mem_withLength

/-- The variables of the state are among those that a function mentions. Bound ones are mentioned
too, but are not part of the state. -/
theorem mem_mentions {v : Variable} (hv : v ∈ f.stateVariables) : v ∈ f.mentions := by
  obtain ⟨u, hu, hvu⟩ := List.mem_flatMap.1 hv
  rcases List.mem_append.1 hu with hu | hu
  · exact List.mem_append_left _ (List.mem_flatMap.2 ⟨u, hu, hvu⟩)
  · obtain ⟨e, he, hue⟩ := List.mem_flatMap.1 hu
    exact List.mem_append_right _
      (List.mem_flatMap.2 ⟨e, he, Expr.withLength_subset_mentions hue hvu⟩)

theorem length?_mem_stateVariables {v l : Variable} (hv : v ∈ f.stateVariables)
    (hl : v.length? = some l) : l ∈ f.stateVariables := by
  obtain ⟨u, hu, hvu⟩ := List.mem_flatMap.1 hv
  exact List.mem_flatMap.2 ⟨u, hu, (Variable.eq_of_mem_withLength hvu hl).2⟩

section Kinds

variable {p : Program} (hk : p.ArrayKinds) (hf : f ∈ p.functions) {v : Variable}

include hk hf

theorem kind_of_mem (hv : v ∈ f.parameters ++ f.results ++ f.targets) :
    v.isArray = v.ty.isArray :=
  hk f hf v (mem_mentions (stateVariables_of_mem hv v.self_mem_withLength))

theorem kind_of_target (hv : v ∈ f.targets) : v.isArray = v.ty.isArray :=
  kind_of_mem hk hf (List.mem_append_right _ hv)

theorem kind_of_reads {e : Expr} (he : e ∈ f.exprs) (hv : v ∈ e.reads []) :
    v.isArray = v.ty.isArray :=
  hk f hf v (mem_mentions (stateVariables_of_reads he hv v.self_mem_withLength))

end Kinds

end Function

namespace Program.Hygienic

variable {p : Program} {f : Function} (hh : p.Hygienic) (hf : f ∈ p.functions)

include hh hf

theorem not_reserved {v : Variable} (hv : v ∈ f.stateVariables) : ¬ Reserved v.name :=
  hh.reserved f hf v (Function.mem_mentions hv)

/-- Targets with the same name are the same variable. -/
theorem target_unique {t t' : Variable} (ht : t ∈ f.targets) (ht' : t' ∈ f.targets)
    (hn : t.name = t'.name) : t = t' :=
  hh.unique f hf t (Function.mem_mentions (Function.stateVariables_of_targets ht)) t'
    (Function.mem_mentions (Function.stateVariables_of_targets ht')) hn

end Program.Hygienic

namespace Function

variable {p : Program} {f : Function}

/-- A variable of a function that is not the length of an array of the function is not the length
of a fresh array either, because the length of a fresh array has a reserved name. -/
theorem Speaks.ne_length (hh : p.Hygienic) (hf : f ∈ p.functions) {n : Nat} {v w l : Variable}
    (hv : v ∈ f.stateVariables) (hn : v.name ∉ f.lengthNames) (hw : f.Speaks n w)
    (hl : w.length? = some l) : v.name ≠ l.name := by
  intro he
  rcases hw with hw | ⟨t, -, k, -, hw⟩
  · exact hn (List.mem_filterMap.2 ⟨w, mem_mentions hw, by simp [hl, he]⟩)
  · exact hh.not_reserved hf hv
      (he ▸ Variable.reserved_of_mem_withLength_fresh (Variable.eq_of_mem_withLength hw hl).2)

/-- What a function may mention, with fresh variables, is a vocabulary. Hygiene keeps the names of
the text apart from those of fresh variables, and numbers keep these apart from one another. -/
theorem vocabulary (hh : p.Hygienic) (ho : p.OwnLengths) (hf : f ∈ p.functions) (n : Nat) :
    Vocabulary (f.Speaks n) where
  unique := by
    -- each of the two is a variable of the text or a fresh one
    rintro v w (hv | ⟨t, ht, k, -, hv⟩) (hw | ⟨t', ht', k', -, hw⟩) hn
    · exact hh.unique f hf v (mem_mentions hv) w (mem_mentions hw) hn
    · exact absurd (hn ▸ Variable.reserved_of_mem_withLength_fresh hw) (hh.not_reserved hf hv)
    · exact absurd (hn ▸ Variable.reserved_of_mem_withLength_fresh hv) (hh.not_reserved hf hw)
    · obtain ⟨htt, hkk, ⟨rfl, rfl⟩ | he⟩ := Variable.eq_of_mem_withLength_fresh hv hw hn
      · rw [hh.target_unique hf ht ht' htt, hkk]
      · exact he
  closed := by
    rintro v l (hv | ⟨t, ht, k, hk, hv⟩) hl
    · exact Or.inl (length?_mem_stateVariables hv hl)
    · exact Or.inr ⟨t, ht, k, hk, (Variable.eq_of_mem_withLength hv hl).2⟩
  kinds := by
    rintro v (hv | ⟨t, ht, k, -, hv⟩) ha
    · rwa [← hh.kinds f hf v (mem_mentions hv), Variable.isArray_iff_length?] at ha
    · rcases Variable.mem_withLength.1 hv with rfl | hvt
      · rw [Variable.ty_fresh] at ha
        rwa [Variable.isSome_length?_fresh (kind_of_target hh.kinds hf ht)]
      · rw [Variable.ty_of_length? hvt] at ha
        cases ha
  own := by
    -- a length of the text is not reserved, so a shared length is either of the text for both or
    -- of fresh arrays
    rintro v w l (hv | ⟨t, ht, k, -, hv⟩) (hw | ⟨t', ht', k', -, hw⟩) hvl hwl
    · exact ho.own f hf v (mem_mentions hv) w (mem_mentions hw) (by simp [hvl])
        (by rw [hvl, hwl])
    · obtain ⟨-, hl⟩ := Variable.eq_of_mem_withLength hw hwl
      exact absurd (Variable.reserved_of_mem_withLength_fresh hl)
        (hh.not_reserved hf (length?_mem_stateVariables hv hvl))
    · obtain ⟨-, hl⟩ := Variable.eq_of_mem_withLength hv hvl
      exact absurd (Variable.reserved_of_mem_withLength_fresh hl)
        (hh.not_reserved hf (length?_mem_stateVariables hw hwl))
    · obtain ⟨rfl, hl⟩ := Variable.eq_of_mem_withLength hv hvl
      obtain ⟨rfl, hl'⟩ := Variable.eq_of_mem_withLength hw hwl
      obtain ⟨htt, hkk, -⟩ := Variable.eq_of_mem_withLength_fresh hl hl' rfl
      rw [hh.target_unique hf ht ht' htt, hkk]

end Function

end Pathwise
