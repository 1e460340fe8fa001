import Pathwise.Proofs.FreeVariables

/-!
# Pathwise.Proofs.SubstLaws

Laws of substitution.

* Substitution looks at free variables only (`substitution_looks_at_free_variables`): maps that
  agree on the free variables of an expression do the same to it.
* Two substitutions are one (`substitutions_compose`), provided that no quantifier captures what
  the first one brings in.
* A replaced variable is gone (`substitution_removes_unless_hidden`), unless it is hidden. The
  length of an array is no part of an expression that passes the array to a predicate, so
  substitution does not see it; nor does it see a name that a quantifier binds, which counts as
  free all the same in the length of an update that is passed. `Expr.hiddenNames` lists both.

The first two laws are those of any calculus with binders, and hold without conditions on types.
The third would be one too, if lengths were part of the tree. As things are, hidden names are an
obstacle that cannot be removed: in a typed expression a hidden name stays, whatever it is
replaced by.

All three rest on `Expr.substUnder_congr`, by which a substitution is determined by what it does
to exposed variables, and on `Expr.hasFree_iff`, which says what the table of free variables has.
-/

namespace Pathwise

namespace Expr

/-! ## Agreement on the free variables

Exposed variables are in the table of free variables, so agreement on the table is agreement on
everything that substitution looks at. -/

/-- Maps that agree on the free variables of an expression do the same to it. What they say about
other names is never asked. -/
theorem substUnder_congr_free {σ τ : String → Option Expr} {e : Expr}
    (h : ∀ x, e.hasFree x = true → σ x = τ x) (bound : List String) :
    substUnder σ bound e = substUnder τ bound e := by
  refine substUnder_congr fun v hv => ?_
  rw [substUnder, substUnder, h v.name (hasFree_of_freeNames (mem_freeNames.2 ⟨v, hv, rfl⟩))]

end Expr

/-- Substitution looks at free variables only. Two maps that agree on the names of the free
variables of an expression give the same, and replacing a variable that is not free, by whatever
expression, gives the expression itself. -/
theorem substitution_looks_at_free_variables (e : Expr) :
    (∀ σ τ : Subst, (∀ x ∈ e.freeVariables.keys, σ.find? x = τ.find? x) →
      e.substAll σ = e.substAll τ) ∧
    ∀ (v : Variable) (r : Expr), e.hasFree v.name = false → e.subst v.name r = e := by
  constructor
  · intro σ τ h
    exact Expr.substUnder_congr_free (fun x hx => h x (Expr.hasFree_iff_mem_keys.1 hx)) []
  · intro v r hv
    have hnone : ∀ x, e.hasFree x = true → (if x = v.name then some r else none) = none := by
      intro x hx
      rw [if_neg]
      rintro rfl
      rw [hv] at hx
      cases hx
    rw [Expr.subst, Expr.substUnder_congr_free hnone, Expr.substUnder_none]

namespace Measured

open Sample (a k x y)

/-- The formula `long(a{0 <- 6}) && forall k. a[k] <= x`, where the update has `x` elements. -/
def bounded : Expr :=
  .and (.app "long" [.update (.var a) (.int 0) (.int 6) (.var x)])
    (.quant .all k (.binary .le (.read (.var a) (.var k)) (.var x)))

/-- The term `y + 1`. -/
def successor : Expr := .binary .add (.var y) (.int 1)

/-- The assignment `x := y + 1`. -/
def shift : Subst := .ofList [("x", successor)]

end Measured

/-- The quantified variable and `y` are not free in the formula. -/
theorem substitution_looks_at_free_variables_bounded :
    Measured.bounded.freeVariables.keys = ["a", "x"] ∧
      Measured.bounded.substAll (.ofList [("k", .int 5), ("x", Measured.successor)]) =
        Measured.bounded.substAll (.ofList [("x", Measured.successor), ("y", .int 0)]) ∧
      Measured.bounded.subst "k" (.int 5) = Measured.bounded := by
  have hkeys : Measured.bounded.freeVariables.keys = ["a", "x"] := by decide +kernel
  refine ⟨hkeys, (substitution_looks_at_free_variables _).1 _ _ ?_, ?_⟩
  · rw [hkeys]
    exact List.forall_mem_cons.2 ⟨rfl, List.forall_mem_singleton.2 rfl⟩
  · exact (substitution_looks_at_free_variables _).2 Sample.k _ (by decide +kernel)

/-! ## Composition

The composite of two substitutions replaces in the replacements of the first one and keeps the
replacements of the second for all other names. Bound names are not renamed, so it does the same
as both in turn only where nothing is captured on the way. -/

/-- The substitution that does what `σ` does and then what `τ` does. The replacements of `σ` are
substituted into, and `τ` counts for all other names. -/
def Subst.andThen (σ τ : Subst) : Subst :=
  σ.entries.foldr (fun entry δ => δ.insert entry.1 (entry.2.substAll τ)) τ

/-- A name that the first substitution replaces gets what the second one makes of the
replacement, and any other name what the second one replaces it by. -/
theorem Subst.find?_andThen (σ τ : Subst) (x : String) :
    (σ.andThen τ).find? x = ((σ.find? x).map (Expr.substAll τ)).or (τ.find? x) := by
  obtain ⟨entries⟩ := σ
  unfold andThen
  induction entries with
  | nil => rfl
  | cons entry rest ih =>
      rw [List.foldr_cons, SortedMap.find?_insert, ih]
      simp only [SortedMap.find?, SortedMap.lookup]
      by_cases hx : x = entry.1
      · rw [if_pos hx, if_pos hx]
        rfl
      · rw [if_neg hx, if_neg hx]

namespace Expr

/-- Neither the quantifiers in an expression nor those around it, which bind the names in `bound`,
capture a variable of a replacement. -/
def Uncaptured (σ : String → Option Expr) (bound : List String) (e : Expr) : Prop :=
  ∀ x r, σ x = some r → ∀ k ∈ bound ++ e.binders, k ∉ r.freeNames

/-- What is not captured in an expression is not captured in its parts. -/
theorem Uncaptured.child {σ : String → Option Expr} {bound : List String} {c e : Expr}
    (h : e.Uncaptured σ bound) (hc : c ∈ e.children) : c.Uncaptured σ bound := by
  intro x r hr k hk
  refine h x r hr k ?_
  rcases List.mem_append.1 hk with hk | hk
  · exact List.mem_append_left _ hk
  · exact List.mem_append_right _ (binders_subset_of_child hc hk)

/-- The name of a quantifier joins those that are bound around the body. -/
theorem Uncaptured.body {σ : String → Option Expr} {bound : List String} {q : Quantifier}
    {v : Variable} {body : Expr} (h : (quant q v body).Uncaptured σ bound) :
    body.Uncaptured σ (v.name :: bound) := by
  intro x r hr k hk
  refine h x r hr k ?_
  rw [binders_quant]
  simp only [List.cons_append, List.mem_cons, List.mem_append] at hk ⊢
  tauto

/-- Two substitutions one after the other are one, also below quantifiers. The hypothesis concerns
the first: its replacements must not come to stand below a quantifier that binds a name in them.
-/
theorem substUnder_substUnder {σ τ : String → Option Expr} {e : Expr} {bound : List String}
    (h : e.Uncaptured σ bound) :
    substUnder τ bound (substUnder σ bound e) =
      substUnder (fun x => ((σ x).map (substUnder τ [])).or (τ x)) bound e := by
  induction e generalizing bound with
  | var v =>
      by_cases hv : v.name ∈ bound
      · rw [substUnder_var_of_mem hv, substUnder_var_of_mem hv, substUnder_var_of_mem hv]
      · rw [substUnder_var_of_not_mem hv, substUnder_var_of_not_mem hv]
        cases hr : σ v.name with
        | none =>
            rw [Option.getD_none, substUnder_var_of_not_mem hv]
            rfl
        | some r =>
            -- the quantifiers around the occurrence bind nothing in the replacement
            refine substUnder_congr fun u hu => ?_
            have hub : u.name ∉ bound := fun hb =>
              h v.name r hr u.name (List.mem_append_left _ hb) (mem_freeNames.2 ⟨u, hu, rfl⟩)
            rw [substUnder_var_of_not_mem hub, substUnder_var_of_not_mem List.not_mem_nil]
  | int n => simp only [substUnder]
  | float x => simp only [substUnder]
  | bool b => simp only [substUnder]
  | unary op e ih => simp only [substUnder, ih (h.child (by simp [children]))]
  | binary op l r ihl ihr =>
      have hl := ihl (h.child (by simp [children]))
      have hr := ihr (h.child (by simp [children]))
      simp only [substUnder, hl, hr]
  | quant q v body ih => simp only [substUnder, ih h.body]
  | read a i iha ihi =>
      have ha := iha (h.child (by simp [children]))
      have hi := ihi (h.child (by simp [children]))
      simp only [substUnder, ha, hi]
  | update a i x n iha ihi ihx ihn =>
      have ha := iha (h.child (by simp [children]))
      have hi := ihi (h.child (by simp [children]))
      have hx := ihx (h.child (by simp [children]))
      have hn := ihn (h.child (by simp [children]))
      simp only [substUnder, ha, hi, hx, hn]
  | call f args t ih =>
      simp only [substUnder, substListUnder_eq_map, List.map_map]
      congr 1
      exact List.map_congr_left fun e he => ih e he (h.child he)
  | app p args ih =>
      simp only [substUnder, substListUnder_eq_map, List.map_map]
      congr 1
      exact List.map_congr_left fun e he => ih e he (h.child he)

end Expr

/-- Two substitutions one after the other are one substitution. It replaces what the first one
replaces by what the second one makes of the replacement, and all else as the second one does. No
quantifier in the expression may bind a free variable of a replacement of the first one. -/
theorem substitutions_compose {e : Expr} {σ : Subst}
    (h : ∀ x r, σ.find? x = some r → ∀ k ∈ e.binders, r.hasFree k = false) (τ : Subst) :
    (∀ x, (σ.andThen τ).find? x = ((σ.find? x).map (Expr.substAll τ)).or (τ.find? x)) ∧
      (e.substAll σ).substAll τ = e.substAll (σ.andThen τ) := by
  have huncaptured : e.Uncaptured σ.find? [] := by
    intro x r hr k hk
    exact (Expr.not_mem_of_hasFree (h x r hr k hk)).1
  have hfind : (σ.andThen τ).find? =
      fun x => ((σ.find? x).map (Expr.substUnder τ.find? [])).or (τ.find? x) := by
    funext x
    exact Subst.find?_andThen σ τ x
  refine ⟨Subst.find?_andThen σ τ, ?_⟩
  rw [Expr.substAll, Expr.substAll, Expr.substAll, Expr.substUnder_substUnder huncaptured, hfind]

/-- The second substitution may bring in a variable that the quantifier captures. -/
theorem substitutions_compose_bounded :
    (∀ x r, Measured.shift.find? x = some r →
      ∀ k ∈ Measured.bounded.binders, r.hasFree k = false) ∧
    (Measured.bounded.substAll Measured.shift).substAll
        (.ofList [("x", .int 2), ("y", .var Sample.k)]) =
      Measured.bounded.substAll (.ofList
        [("x", .binary .add (.var Sample.k) (.int 1)), ("y", .var Sample.k)]) := by
  have hentries : ∀ entry ∈ Measured.shift.entries,
      ∀ k ∈ Measured.bounded.binders, entry.2.hasFree k = false := by decide +kernel
  have huncaptured : ∀ x r, Measured.shift.find? x = some r →
      ∀ k ∈ Measured.bounded.binders, r.hasFree k = false := by
    intro x r hr
    exact hentries (x, r) (SortedMap.mem_of_lookup hr)
  exact ⟨huncaptured, (substitutions_compose huncaptured _).2⟩

/-! ## Hidden names

Names that the table of free variables has and substitution does not reach. They are read off the
arguments of predicates, by a recursion that carries the bound names. -/

namespace Expr

/-- The names that an argument of a predicate brings along hidden from substitution: the length of
an array, and what is bound from outside in the length of an update. -/
def hiddenLength (bound : List String) : Expr → List String
  | var v => v.length?.toList.map Variable.name
  | update _ _ _ length => length.freeNames.filter (· ∈ bound)
  | _ => []

mutual

/-- The names that are hidden in an expression, where the names in `bound` are bound from
outside. -/
def hiddenNames (bound : List String) : Expr → List String
  | var _ | int _ | float _ | bool _ => []
  | unary _ e => hiddenNames bound e
  | binary _ l r => hiddenNames bound l ++ hiddenNames bound r
  | quant _ v body => hiddenNames (v.name :: bound) body
  | read array index => hiddenNames bound array ++ hiddenNames bound index
  | update array index value length =>
    hiddenNames bound array ++ hiddenNames bound index ++ hiddenNames bound value ++
      hiddenNames bound length
  | call _ args _ => hiddenNamesList bound args
  | app _ args => args.flatMap (hiddenLength bound) ++ hiddenNamesList bound args

def hiddenNamesList (bound : List String) : List Expr → List String
  | [] => []
  | e :: es => hiddenNames bound e ++ hiddenNamesList bound es

end

/-- The names that are hidden in the arguments of the predicate at the root of an expression. -/
def rootHidden (bound : List String) : Expr → List String
  | app _ args => args.flatMap (hiddenLength bound)
  | _ => []

theorem mem_hiddenNamesList {bound : List String} {es : List Expr} {x : String} :
    x ∈ hiddenNamesList bound es ↔ ∃ e ∈ es, x ∈ e.hiddenNames bound := by
  induction es with
  | nil => simp [hiddenNamesList]
  | cons e es ih => simp [hiddenNamesList, ih]

/-- Outside of quantifiers a name is hidden at the root or in a part. -/
theorem mem_hiddenNames_plain {e : Expr} (h : e.plain) {bound : List String} {x : String} :
    x ∈ e.hiddenNames bound ↔
      x ∈ e.rootHidden bound ∨ ∃ c ∈ e.children, x ∈ c.hiddenNames bound := by
  cases e with
  | var v => cases h
  | quant q v body => cases h
  | call f args t => simp [hiddenNames, rootHidden, children, mem_hiddenNamesList]
  | app p args => rw [hiddenNames, List.mem_append, mem_hiddenNamesList]; rfl
  | _ => simp [hiddenNames, rootHidden, children]

/-! ## What is left after a substitution

A name that is replaced can be left in two ways: in sight, because a replacement brings it back,
or in a length that is passed along. The lemmas exclude the first for replacements without the
name, and trace the second back to a name that was hidden before. -/

variable {σ : String → Option Expr} {bound : List String} {x : String}

/-- A name in a substituted expression was there before, bound or without a replacement, or it
comes with a replacement. There is no condition on capture: a captured name is bound, and so no
longer there. -/
theorem mem_freeNames_substUnder {e : Expr} (hx : x ∈ (substUnder σ bound e).freeNames) :
    (x ∈ e.freeNames ∧ (x ∈ bound ∨ σ x = none)) ∨ ∃ y r, σ y = some r ∧ x ∈ r.freeNames := by
  induction e using plainInduct generalizing bound with
  | var u =>
      by_cases hu : u.name ∈ bound
      · rw [substUnder_var_of_mem hu] at hx
        have hxu : x = u.name := by simpa using hx
        exact Or.inl ⟨hx, Or.inl (hxu ▸ hu)⟩
      · rw [substUnder_var_of_not_mem hu] at hx
        cases hr : σ u.name with
        | none =>
            rw [hr, Option.getD_none] at hx
            have hxu : x = u.name := by simpa using hx
            exact Or.inl ⟨hx, Or.inr (hxu ▸ hr)⟩
        | some r =>
            rw [hr, Option.getD_some] at hx
            exact Or.inr ⟨u.name, r, hr, hx⟩
  | quant q u body ih =>
      rw [substUnder] at hx
      obtain ⟨hx, hne⟩ := mem_freeNames_quant.1 hx
      -- the name is not the one that this quantifier binds, so it is bound further out if at all
      refine (ih hx).imp_left ?_
      rintro ⟨hbody, hb⟩
      exact ⟨mem_freeNames_quant.2 ⟨hbody, hne⟩,
        hb.imp_left fun hmem => (List.mem_cons.1 hmem).resolve_left hne⟩
  | plain e he ih =>
      obtain ⟨c', hc', hxc⟩ := (mem_freeNames_plain (plain_substUnder he σ bound)).1 hx
      rw [children_substUnder he] at hc'
      obtain ⟨c, hc, rfl⟩ := List.mem_map.1 hc'
      refine (ih c hc hxc).imp_left ?_
      rintro ⟨hmem, hb⟩
      exact ⟨(mem_freeNames_plain he).2 ⟨c, hc, hmem⟩, hb⟩

/-- The replacements bring in a name neither in sight nor hidden in an argument. Then a name that
is replaced can remain only where it was hidden. -/
def Clears (σ : String → Option Expr) (x : String) : Prop :=
  ∀ y r, σ y = some r → r.hasFree x = false ∧ x ∉ r.hiddenLength []

/-- The length of an expression is hidden, or its names are in sight. -/
theorem mem_of_arrayLength? {e n : Expr} (hn : e.arrayLength? = some n) (hx : x ∈ n.freeNames) :
    x ∈ e.hiddenLength [] ∨ x ∈ e.freeNames := by
  cases e with
  | var v =>
      obtain ⟨l, hl, rfl⟩ := Option.map_eq_some_iff.1 hn
      exact Or.inl (by simpa [hiddenLength, hl] using hx)
  | update a i y m =>
      cases hn
      exact Or.inr ((mem_freeNames_plain rfl).2 ⟨n, by simp [children], hx⟩)
  | _ => cases hn

/-- What the length of a substituted argument depends on was hidden in the argument before. -/
theorem mem_hiddenLength_of_substUnder (hσ : Clears σ x) (hs : σ x ≠ none) {e : Expr}
    (hx : x ∈ (substUnder σ bound e).lengthNames) : x ∈ e.hiddenLength bound := by
  obtain ⟨-, n, hn, hxn⟩ := mem_lengthNames.1 hx
  cases e with
  | var v =>
      have hvar : substUnder σ bound (var v) = var v → x ∈ (var v).hiddenLength bound := by
        intro heq
        rw [heq] at hn
        obtain ⟨l, hl, rfl⟩ := Option.map_eq_some_iff.1 hn
        simpa [hiddenLength, hl] using hxn
      by_cases hv : v.name ∈ bound
      · exact hvar (substUnder_var_of_mem hv)
      · rw [substUnder_var_of_not_mem hv] at hn hvar
        cases hr : σ v.name with
        | none => exact hvar (by rw [hr, Option.getD_none])
        | some r =>
            rw [hr, Option.getD_some] at hn
            obtain ⟨hfree, hlength⟩ := hσ v.name r hr
            rcases mem_of_arrayLength? hn hxn with hx | hx
            · exact absurd hx hlength
            · exact absurd hx (not_mem_of_hasFree hfree).1
  | update a i y m =>
      rw [substUnder] at hn
      cases hn
      -- a name of the new length is bound from outside, is not replaced, or comes with a
      -- replacement
      rcases mem_freeNames_substUnder hxn with ⟨hx, hb | hnone⟩ | ⟨z, r, hr, hx⟩
      · exact List.mem_filter.2 ⟨hx, by simpa using hb⟩
      · exact absurd hnone hs
      · exact absurd hx (not_mem_of_hasFree (hσ z r hr).1).1
  | _ => cases hn

/-- Where a replaced name is not hidden, no length that is passed along depends on it any more. -/
theorem mem_hiddenNames_of_substUnder (hσ : Clears σ x) (hs : σ x ≠ none) {e : Expr}
    (hx : x ∈ (substUnder σ bound e).passedNames) : x ∈ e.hiddenNames bound := by
  induction e using plainInduct generalizing bound with
  | var u =>
      rw [substUnder] at hx
      split at hx
      · cases hx
      · cases hr : σ u.name with
        | none =>
            rw [hr, Option.getD_none] at hx
            cases hx
        | some r =>
            rw [hr, Option.getD_some] at hx
            -- no replacement brings the name in
            exact absurd hx (not_mem_of_hasFree (hσ u.name r hr).1).2
  | quant q u body ih =>
      rw [substUnder, mem_passedNames] at hx
      rcases hx with hx | ⟨c, hc, hx⟩
      · cases hx
      · rw [List.mem_singleton.1 hc] at hx
        exact ih hx
  | plain e he ih =>
      rw [mem_passedNames, children_substUnder he] at hx
      rw [mem_hiddenNames_plain he]
      rcases hx with hx | ⟨c', hc', hx⟩
      · cases e with
        | app p args =>
            rw [substUnder, substListUnder_eq_map, rootPassed, List.mem_flatMap] at hx
            obtain ⟨c', hc', hx⟩ := hx
            obtain ⟨c, hc, rfl⟩ := List.mem_map.1 hc'
            exact Or.inl (List.mem_flatMap.2 ⟨c, hc, mem_hiddenLength_of_substUnder hσ hs hx⟩)
        | var v => cases he
        | quant q v body => cases he
        | _ => cases hx
      · obtain ⟨c, hc, rfl⟩ := List.mem_map.1 hc'
        exact Or.inr ⟨c, hc, ih c hc hx⟩

/-- A name that is hidden in a typed argument is what the length of the argument depends on after
the substitution too. -/
theorem mem_lengthNames_substUnder (hσ : ∀ y, y ≠ x → σ y = none) {p : Program} {e : Expr} {t : Ty}
    (hc : p.check e = .ok t) (hu : Uniform e.mentions) (hx : x ∈ e.hiddenLength bound) :
    x ∈ (substUnder σ bound e).lengthNames := by
  cases e with
  | var v =>
      obtain ⟨l, hl, rfl⟩ := List.mem_map.1 hx
      rw [Option.mem_toList] at hl
      -- an array and its length have different types, hence different names
      have hne : v.name ≠ l.name := by
        intro hname
        have harray := hu.kinds v (by simp)
        rw [hu.ty v (by simp) l (by simp [hl]) hname, Variable.ty_of_length? hl,
          Variable.isArray_iff_length?, hl] at harray
        cases harray
      have hsubst : substUnder σ bound (var v) = var v := by
        rw [substUnder, hσ v.name hne, Option.getD_none, ite_self]
      rw [hsubst]
      exact mem_lengthNames_var (hu.kinds v (by simp)) hl
  | update a i y n =>
      obtain ⟨hxn, hb⟩ := List.mem_filter.1 hx
      rw [decide_eq_true_iff] at hb
      -- the only name that is replaced is bound, so nothing is
      have hsubst : substUnder σ bound (update a i y n) = update a i y n := by
        refine Eq.trans (substUnder_congr fun v _ => ?_) (substUnder_none bound _)
        rw [substUnder, substUnder]
        split
        · rfl
        · next hv => rw [hσ v.name fun hname => hv (hname ▸ hb)]
      obtain ⟨elem, -, -, -, -, rfl⟩ := Program.check_update_iff.1 hc
      rw [hsubst, mem_lengthNames, Program.ty_of_check hc]
      exact ⟨rfl, n, rfl, hxn⟩
  | _ => cases hx

/-- A hidden name in a typed expression stays, whatever it is replaced by. It is the length of a
variable, which does not occur in the expression, or it is bound where it occurs. -/
theorem mem_passedNames_substUnder (hσ : ∀ y, y ≠ x → σ y = none) {p : Program} {e : Expr} {t : Ty}
    (hc : p.check e = .ok t) (hu : Uniform e.mentions) (hx : x ∈ e.hiddenNames bound) :
    x ∈ (substUnder σ bound e).passedNames := by
  induction e using plainInduct generalizing bound t with
  | var u => cases hx
  | quant q u body ih =>
      have hchild : body ∈ (quant q u body).children := by simp [children]
      obtain ⟨w, hw⟩ := Program.check_of_child hc hchild
      rw [substUnder]
      exact mem_passedNames.2 (Or.inr ⟨_, List.mem_singleton.2 rfl,
        ih hw (hu.mono (mentions_subset_of_child hchild)) hx⟩)
  | plain e he ih =>
      rw [mem_passedNames, children_substUnder he]
      rcases (mem_hiddenNames_plain he).1 hx with hx | ⟨c, hchild, hx⟩
      · cases e with
        | app name args =>
            obtain ⟨c, hchild, hx⟩ := List.mem_flatMap.1 hx
            obtain ⟨w, hw⟩ := Program.check_of_child hc hchild
            have hlength := mem_lengthNames_substUnder hσ hw
              (hu.mono (mentions_subset_of_child hchild)) hx
            rw [substUnder, substListUnder_eq_map]
            exact Or.inl (List.mem_flatMap.2 ⟨_, List.mem_map_of_mem hchild, hlength⟩)
        | var v => cases he
        | quant q v body => cases he
        | _ => cases hx
      · obtain ⟨w, hw⟩ := Program.check_of_child hc hchild
        exact Or.inr ⟨_, List.mem_map_of_mem hchild,
          ih c hchild hw (hu.mono (mentions_subset_of_child hchild)) hx⟩

end Expr

/-- Substitution removes the variable that it replaces, unless the variable is hidden: it is the
length of an array that is passed to a predicate, or a quantifier binds it around an update that is
passed with this length. The replacement does not contain the variable, and is no array with this
length.

In a typed expression, where a name has one type, a hidden variable is never removed. -/
theorem substitution_removes_unless_hidden {v : Variable} {r : Expr}
    (hr : r.hasFree v.name = false) (hl : v.name ∉ r.hiddenLength []) (e : Expr) :
    (v.name ∉ e.hiddenNames [] → (e.subst v.name r).hasFree v.name = false) ∧
    ∀ (p : Program) (t : Ty), p.check e = .ok t → Uniform e.mentions →
      v.name ∈ e.hiddenNames [] → (e.subst v.name r).hasFree v.name = true := by
  constructor
  · intro hhidden
    have hclears : Expr.Clears (fun x => if x = v.name then some r else none) v.name := by
      intro y s hs
      obtain ⟨-, rfl⟩ : y = v.name ∧ r = s := by simpa using hs
      exact ⟨hr, hl⟩
    rw [← Bool.not_eq_true, Expr.hasFree_iff]
    rintro (hx | hx)
    · rcases Expr.mem_freeNames_substUnder hx with ⟨-, hb | hnone⟩ | ⟨y, s, hs, hx⟩
      · cases hb
      · simp at hnone
      · exact (Expr.not_mem_of_hasFree (hclears y s hs).1).1 hx
    · exact hhidden (Expr.mem_hiddenNames_of_substUnder hclears (by simp) hx)
  · intro p t hc hu hhidden
    exact Expr.hasFree_iff.2
      (Or.inr (Expr.mem_passedNames_substUnder (fun y hy => if_neg hy) hc hu hhidden))

namespace Measured

open Sample (a k long)

def program : Program where
  types := ⟨[.predicate [.array .int]], by decide⟩
  functions := []
  predicates := [long]

/-- The formula `long(a)`. -/
def passed : Expr := .app "long" [.var a]

/-- The formula `exists k. long(a{0 <- 1})`, where the update has `k` elements. -/
def padded : Expr :=
  .quant .any k (.app "long" [.update (.var a) (.int 0) (.int 1) (.var k)])

/-- An array `a` with the length `b`. -/
def sized : Expr := .var ⟨"a", .array .int, .array "b"⟩

end Measured

/-- The length of the update is in sight, and that of an array is not. -/
theorem substitution_removes_unless_hidden_bounded :
    (Measured.successor.hasFree "x" = false ∧ "x" ∉ Measured.successor.hiddenLength [] ∧
      "x" ∉ Measured.bounded.hiddenNames [] ∧ Measured.bounded.hasFree "x" = true ∧
      (Measured.bounded.subst "x" Measured.successor).hasFree "x" = false) ∧
    Measured.program.check Measured.passed = .ok .bool ∧ Uniform Measured.passed.mentions ∧
      "a$length" ∈ Measured.passed.hiddenNames [] ∧
      (Measured.passed.subst "a$length" Measured.successor).hasFree "a$length" = true := by
  have hr : Measured.successor.hasFree Sample.x.name = false := by decide +kernel
  have hl : Sample.x.name ∉ Measured.successor.hiddenLength [] := by decide +kernel
  have hr' : Measured.successor.hasFree (Sample.length Sample.a).name = false := by
    decide +kernel
  have hl' : (Sample.length Sample.a).name ∉ Measured.successor.hiddenLength [] := by
    decide +kernel
  have hseen : Sample.x.name ∉ Measured.bounded.hiddenNames [] := by decide +kernel
  have hc : Measured.program.check Measured.passed = .ok .bool := rfl
  have hu : Uniform Measured.passed.mentions := by decide +kernel
  have hhidden : (Sample.length Sample.a).name ∈ Measured.passed.hiddenNames [] := by
    decide +kernel
  exact ⟨⟨hr, hl, hseen, by decide +kernel,
      (substitution_removes_unless_hidden hr hl _).1 hseen⟩, hc, hu, hhidden,
    (substitution_removes_unless_hidden hr' hl' _).2 _ _ hc hu hhidden⟩

/-- A replaced variable is still there where it is the length of an array that is passed, and where
a quantifier binds it around the length of an update that is passed. It is there again where the
replacement is an array with this length. Nothing is captured. -/
theorem replaced_variables_stay :
    ((∀ k ∈ Measured.passed.binders, (Expr.int 0).hasFree k = false) ∧
      (Expr.int 0).hasFree "a$length" = false ∧
      (Measured.passed.subst "a$length" (.int 0)).hasFree "a$length" = true) ∧
    ((∀ k ∈ Measured.padded.binders, (Expr.int 5).hasFree k = false) ∧
      (Expr.int 5).hasFree "k" = false ∧
      (Measured.padded.subst "k" (.int 5)).hasFree "k" = true) ∧
    (∀ k ∈ (Expr.app "long" [.var Sample.b]).binders, Measured.sized.hasFree k = false) ∧
      Measured.sized.hasFree "b" = false ∧
      ((Expr.app "long" [.var Sample.b]).subst "b" Measured.sized).hasFree "b" = true := by
  decide +kernel

end Pathwise
