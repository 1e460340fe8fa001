import Pathwise.Proofs.SubstLaws

/-!
# Pathwise.Proofs.Occurrences

Free variables in the standard sense.

A name is free in an expression if it occurs there outside of all quantifiers that bind it. Among
the occurrences are those in the lengths that go along with the arguments of a predicate.
`Expr.Occurs` lists the occurrences with the names bound around them, and `Expr.Free` is the
standard notion.

The table of free variables has every free name, but it may have more. Lengths are read on their
own, without the quantifiers around the application that passes them, so a name in a length counts
even if it is bound there. `free_variables_exact` says that the table has no others. It is the
standard notion for every expression whose quantifiers bind no variable of a length that is
passed.

The example at the end shows the difference. A predicate whose body quantifies over the length of
an update that it passes on is turned down by validation, because the bound name counts as a free
variable of the body.
-/

namespace Pathwise

namespace Expr

/-! ## Occurrences

An occurrence is a path into the expression. The relation follows the expression and not the walk
that fills the table: it knows nothing of tables, and the names bound on the way are an index of
it. -/

/-- The name `x` occurs in an expression at a place where the quantifiers around it bind the names
`ks`, the outermost first. -/
inductive Occurs (x : String) : List String → Expr → Prop where
  | var {v : Variable} (hv : v.name = x) : Occurs x [] (var v)
  /-- An occurrence in a part of an expression that binds nothing. -/
  | child {ks : List String} {e c : Expr} (he : e.plain) (hc : c ∈ e.children)
      (h : Occurs x ks c) : Occurs x ks e
  /-- An occurrence below a quantifier. -/
  | body {ks : List String} {q : Quantifier} {v : Variable} {body : Expr} (h : Occurs x ks body) :
      Occurs x (v.name :: ks) (quant q v body)
  /-- An occurrence in the length that is passed along with an argument of array type. -/
  | length {ks : List String} {p : String} {args : List Expr} {a n : Expr} (ha : a ∈ args)
      (hty : a.ty.isArray) (hn : a.arrayLength? = some n) (h : Occurs x ks n) :
      Occurs x ks (app p args)

/-- The name occurs outside of all quantifiers that bind it. Occurrences in lengths that are
passed along count. -/
def Free (e : Expr) (x : String) : Prop := ∃ ks, Occurs x ks e ∧ x ∉ ks

theorem free_var {v : Variable} : (var v).Free v.name := ⟨[], .var rfl, List.not_mem_nil⟩

theorem eq_of_free_var {v : Variable} {x : String} (h : (var v).Free x) : x = v.name := by
  obtain ⟨ks, hks, -⟩ := h
  cases hks with
  | var hv => exact hv.symm
  | child he => cases he

/-- What is free in a part is free in the whole, unless the whole is a quantifier. -/
theorem Free.child {e c : Expr} {x : String} (h : c.Free x) (he : e.plain)
    (hc : c ∈ e.children) : e.Free x := by
  obtain ⟨ks, hks, hx⟩ := h
  exact ⟨ks, .child he hc hks, hx⟩

/-- A quantifier takes away its own name only. -/
theorem free_quant {q : Quantifier} {v : Variable} {body : Expr} {x : String} :
    (quant q v body).Free x ↔ body.Free x ∧ x ≠ v.name := by
  constructor
  · rintro ⟨ks, hks, hx⟩
    cases hks with
    | child he => cases he
    | body h =>
        obtain ⟨hne, hx⟩ := not_or.1 (mt List.mem_cons.2 hx)
        exact ⟨⟨_, h, hx⟩, hne⟩
  · rintro ⟨⟨ks, hks, hx⟩, hne⟩
    exact ⟨v.name :: ks, .body hks, mt List.mem_cons.1 (not_or.2 ⟨hne, hx⟩)⟩

/-- An occurrence in a subexpression is one in the expression, below more quantifiers of it. -/
theorem Occurs.of_mem_visit {d e : Expr} (hd : d ∈ e.visit) {ks : List String} {x : String}
    (h : Occurs x ks d) : ∃ ls, ls ⊆ e.binders ∧ Occurs x (ls ++ ks) e := by
  induction e using plainInduct with
  | var v =>
      rw [List.mem_singleton.1 hd] at h
      exact ⟨[], List.nil_subset _, h⟩
  | quant q v body ih =>
      rcases List.mem_cons.1 hd with rfl | hd
      · exact ⟨[], List.nil_subset _, h⟩
      · obtain ⟨ls, hls, hbody⟩ := ih hd
        rw [binders_quant]
        exact ⟨v.name :: ls, List.cons_subset_cons v.name hls, .body hbody⟩
  | plain e he ih =>
      rw [visit_eq] at hd
      rcases List.mem_cons.1 hd with rfl | hd
      · exact ⟨[], List.nil_subset _, h⟩
      · obtain ⟨c, hc, hdc⟩ := List.mem_flatMap.1 hd
        obtain ⟨ls, hls, hchild⟩ := ih c hc hdc
        exact ⟨ls, List.Subset.trans hls (binders_subset_of_child hc), .child he hc hchild⟩

/-! ## The table has every free name

By induction on the occurrence. An occurrence in a length may be below binders of the length
itself, which are then binders of the array as well. -/

/-- A free name is exposed, or it is among the names for lengths. These are the two parts of which
the table is made. -/
theorem Occurs.mem_names {ks : List String} {e : Expr} {x : String} (h : Occurs x ks e)
    (hx : x ∉ ks) : x ∈ e.freeNames ∨ x ∈ e.passedNames := by
  induction h with
  | var hv => exact Or.inl (by simp [hv])
  | child he hc _ ih =>
      rcases ih hx with hfree | hpassed
      · exact Or.inl ((mem_freeNames_plain he).2 ⟨_, hc, hfree⟩)
      · exact Or.inr (mem_passedNames.2 (Or.inr ⟨_, hc, hpassed⟩))
  | body _ ih =>
      obtain ⟨hne, hx⟩ := not_or.1 (mt List.mem_cons.2 hx)
      rcases ih hx with hfree | hpassed
      · exact Or.inl (mem_freeNames_quant.2 ⟨hfree, hne⟩)
      · exact Or.inr (mem_passedNames.2 (Or.inr ⟨_, List.mem_singleton.2 rfl, hpassed⟩))
  | length ha hty hn _ ih =>
      rcases ih hx with hfree | hpassed
      · have hlength := mem_lengthNames.2 ⟨hty, _, hn, hfree⟩
        exact Or.inr (mem_passedNames.2 (Or.inl (List.mem_flatMap.2 ⟨_, ha, hlength⟩)))
      · exact Or.inr (mem_passedNames.2 (Or.inr ⟨_, ha, passedNames_of_arrayLength? hn hpassed⟩))

/-- The table has every free name. -/
theorem Free.hasFree {e : Expr} {x : String} (h : e.Free x) : e.hasFree x = true := by
  obtain ⟨ks, hks, hx⟩ := h
  exact hasFree_iff.2 (hks.mem_names hx)

/-! ## What else the table has

Lengths that are passed along somewhere in the expression. Their free names are in the table
without exception, and apart from names that are free anyway nothing else is. -/

/-- The lengths that the application at the root of an expression passes along. -/
def rootLengths : Expr → List Expr
  | app _ args => args.filterMap fun a => if a.ty.isArray then a.arrayLength? else none
  | _ => []

/-- All lengths that are passed along in an expression. -/
def passedLengths (e : Expr) : List Expr := e.visit.flatMap rootLengths

/-- The lengths that are passed along belong to array arguments of applications. -/
theorem mem_passedLengths {e n : Expr} :
    n ∈ e.passedLengths ↔ ∃ p args, app p args ∈ e.visit ∧
      ∃ a ∈ args, a.ty.isArray ∧ a.arrayLength? = some n := by
  unfold passedLengths
  rw [List.mem_flatMap]
  constructor
  · rintro ⟨d, hd, hn⟩
    cases d with
    | app p args =>
        obtain ⟨a, ha, hn⟩ := List.mem_filterMap.1 hn
        split at hn
        · next hty => exact ⟨p, args, hd, a, ha, hty, hn⟩
        · cases hn
    | _ => cases hn
  · rintro ⟨p, args, hd, a, ha, hty, hn⟩
    exact ⟨app p args, hd, List.mem_filterMap.2 ⟨a, ha, by rw [if_pos hty, hn]⟩⟩

/-- The names for lengths are the names in sight in the lengths that are passed along. -/
theorem mem_passedNames_iff {e : Expr} {x : String} :
    x ∈ e.passedNames ↔ ∃ n ∈ e.passedLengths, x ∈ n.freeNames := by
  unfold passedNames
  rw [List.mem_flatMap]
  constructor
  · rintro ⟨d, hd, hx⟩
    cases d with
    | app p args =>
        obtain ⟨a, ha, hx⟩ := List.mem_flatMap.1 hx
        obtain ⟨hty, n, hn, hx⟩ := mem_lengthNames.1 hx
        exact ⟨n, mem_passedLengths.2 ⟨p, args, hd, a, ha, hty, hn⟩, hx⟩
    | _ => cases hx
  · rintro ⟨n, hn, hx⟩
    obtain ⟨p, args, hd, a, ha, hty, hn⟩ := mem_passedLengths.1 hn
    exact ⟨app p args, hd, List.mem_flatMap.2 ⟨a, ha, mem_lengthNames.2 ⟨hty, n, hn, hx⟩⟩⟩

/-- Exposed variables are free. -/
theorem free_of_mem_freeNames {e : Expr} {x : String} (h : x ∈ e.freeNames) : e.Free x := by
  induction e using plainInduct with
  | var v =>
      have hx : x = v.name := by simpa using h
      exact hx ▸ free_var
  | quant q v body ih =>
      obtain ⟨hbody, hne⟩ := mem_freeNames_quant.1 h
      exact free_quant.2 ⟨ih hbody, hne⟩
  | plain e he ih =>
      obtain ⟨c, hc, hx⟩ := (mem_freeNames_plain he).1 h
      exact (ih c hc hx).child he hc

/-- A free name of a length that is passed along is an occurrence in the expression, below
quantifiers of it. -/
theorem occurs_of_passedLengths {e n : Expr} (hn : n ∈ e.passedLengths) {x : String}
    (h : n.Free x) : ∃ ls ks, ls ⊆ e.binders ∧ x ∉ ks ∧ Occurs x (ls ++ ks) e := by
  obtain ⟨p, args, hd, a, ha, hty, hlength⟩ := mem_passedLengths.1 hn
  obtain ⟨ks, hks, hx⟩ := h
  obtain ⟨ls, hls, hoccurs⟩ := Occurs.of_mem_visit hd (.length ha hty hlength hks)
  exact ⟨ls, ks, hls, hx, hoccurs⟩

/-- The names of a length that is passed along are in the table, bound or not. The length is
collected as if it stood outside of all quantifiers. -/
theorem hasFree_of_passedLengths {e n : Expr} (hn : n ∈ e.passedLengths) {x : String}
    (h : n.Free x) : e.hasFree x = true := by
  rw [hasFree_iff]
  obtain ⟨p, args, hd, a, ha, hty, hlength⟩ := mem_passedLengths.1 hn
  rcases hasFree_iff.1 h.hasFree with hfree | hpassed
  · exact Or.inr (mem_passedNames_iff.2 ⟨n, hn, hfree⟩)
  · have hroot : x ∈ (app p args).passedNames :=
      mem_passedNames.2 (Or.inr ⟨a, ha, passedNames_of_arrayLength? hlength hpassed⟩)
    obtain ⟨d, hmem, hx⟩ := List.mem_flatMap.1 hroot
    exact Or.inr (List.mem_flatMap.2 ⟨d, visit_subset_of_mem_visit hd hmem, hx⟩)

end Expr

/-- The table of free variables, compared with the standard notion. A name is in the table if and
only if it is free in the expression or in a length that is passed along somewhere in it.

Hence the table has the free variables in the standard sense, and no others, if no quantifier of
the expression binds a variable of a length that is passed along. -/
theorem free_variables_exact (e : Expr) :
    (∀ x, x ∈ e.freeVariables.keys ↔ e.Free x ∨ ∃ n ∈ e.passedLengths, n.Free x) ∧
    ((∀ n ∈ e.passedLengths, ∀ x, n.Free x → x ∉ e.binders) →
      ∀ x, x ∈ e.freeVariables.keys ↔ e.Free x) := by
  have hexact : ∀ x, x ∈ e.freeVariables.keys ↔ e.Free x ∨ ∃ n ∈ e.passedLengths, n.Free x := by
    intro x
    rw [← Expr.hasFree_iff_mem_keys]
    constructor
    · intro hx
      rcases Expr.hasFree_iff.1 hx with hfree | hpassed
      · exact Or.inl (Expr.free_of_mem_freeNames hfree)
      · obtain ⟨n, hn, hx⟩ := Expr.mem_passedNames_iff.1 hpassed
        exact Or.inr ⟨n, hn, Expr.free_of_mem_freeNames hx⟩
    · rintro (hfree | ⟨n, hn, hx⟩)
      · exact hfree.hasFree
      · exact Expr.hasFree_of_passedLengths hn hx
  refine ⟨hexact, fun h x => ?_⟩
  rw [hexact]
  refine ⟨?_, Or.inl⟩
  rintro (hfree | ⟨n, hn, hx⟩)
  · exact hfree
  · -- the quantifiers around the application do not bind the name
    obtain ⟨ls, ks, hls, hks, hoccurs⟩ := Expr.occurs_of_passedLengths hn hx
    have hls' : x ∉ ls := fun hmem => h n hn x hx (hls hmem)
    exact ⟨ls ++ ks, hoccurs, mt List.mem_append.1 (not_or.2 ⟨hls', hks⟩)⟩

/-- The length that is passed is `x`, and the quantifier binds `k`. -/
theorem free_variables_exact_bounded :
    (∀ n ∈ Measured.bounded.passedLengths, ∀ x, n.Free x → x ∉ Measured.bounded.binders) ∧
      ∀ x, x ∈ ["a", "x"] ↔ Measured.bounded.Free x := by
  have hlengths : ∀ n ∈ Measured.bounded.passedLengths, ∀ x, n.Free x →
      x ∉ Measured.bounded.binders := by
    intro n hn x hx
    rw [show Measured.bounded.passedLengths = [.var Sample.x] from rfl, List.mem_singleton] at hn
    rw [hn] at hx
    rw [Expr.eq_of_free_var hx]
    decide +kernel
  have hkeys : Measured.bounded.freeVariables.keys = ["a", "x"] := by decide +kernel
  have hfree := (free_variables_exact Measured.bounded).2 hlengths
  rw [hkeys] at hfree
  exact ⟨hlengths, hfree⟩

namespace Measured

/-- The predicate `padded(a)` says that some padding of `a` is long. -/
def padding : Predicate := ⟨"padded", 0, [Sample.a], padded⟩

/-- The program with the second predicate. -/
def paddedProgram : Program := { program with predicates := program.predicates ++ [padding] }

end Measured

/-- The length of an update may be a variable that a quantifier binds. It is in the table of free
variables, although it is not free, and a predicate with such a body is turned down. -/
theorem bound_length_counts_as_free :
    Measured.program.check Measured.padded = .ok .bool ∧
      "k" ∈ Measured.padded.freeVariables.keys ∧ ¬ Measured.padded.Free "k" ∧
      Measured.paddedProgram.validate =
        .error (.malformedPredicate "padded" (.freeVariable "k")) := by
  refine ⟨rfl, by decide +kernel, fun h => ?_, rfl⟩
  exact (Expr.free_quant.1 h).2 rfl

end Pathwise
