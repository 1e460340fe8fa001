import Pathwise.Proofs.Reads

/-!
# Pathwise.Proofs.Substitution

Substitution in an expression and assignment to the state.

A substitution makes up for the difference between two states if what each variable becomes stands
for the variable in the other state, also under quantifiers (`Expr.Relates`). In particular, the
value of an expression after a substitution is its value in the state where every replaced name
holds the value of its replacement (`Expr.holds_substUnder`). Three things could go wrong there,
and `Expr.Admits` excludes them.

* A replacement has another type than the variable it stands for.
* An array is replaced without its length, or a length without its array. A predicate application
  passes lengths along that are no subexpressions, so substitution does not reach them.
* A quantifier captures a variable of a replacement, since bound names are not renamed.

There is one induction over expressions here, `Expr.Relates.sameItem`, about any relation between
states. Assignment is one such relation. Agreement on the variables that an expression reads is
another, with the substitution that replaces nothing (`Expr.sameItem_of_agreeOn`), and so is what
a call does to the state of a callee, later on.

The last section is about names. It says what a substituted expression reads and binds, so that
substitutions can be applied one after the other.
-/

namespace Pathwise

namespace Expr

/-! ## Related states

The relation is between the state in which the substituted expression is looked at and the one in
which the expression itself is. It has to survive quantifiers, which set the same integer in
both. -/

/-- The substitution `σ` in `e` makes up for the difference between states that `R`
relates. -/
structure Relates {M : Meaning} (R : State M → State M → Prop) (σ : String → Option Expr)
    (bound : List String) (e : Expr) : Prop where
  /-- What a variable becomes stands for what the variable stands for in the other state. -/
  items : ∀ {s t}, R s t → ∀ v ∈ e.reads bound, SameItem M ((σ v.name).getD (var v)) s (var v) t
  /-- Quantifiers keep the states related. -/
  sets : ∀ k ∈ e.binders, ∀ {s t}, R s t → ∀ n, R (s.set k (.int n)) (t.set k (.int n))
  /-- Bound names are not replaced. -/
  keys : ∀ k ∈ e.binders, σ k = none

section Relates

variable {M : Meaning} {R : State M → State M → Prop} {σ : String → Option Expr}
  {bound : List String}

theorem Relates.child {c e : Expr} (h : Relates R σ bound e) (hc : c ∈ e.children)
    (he : e.plain) : Relates R σ bound c where
  items hst v hv := h.items hst v ((mem_reads_plain he).2 ⟨c, hc, hv⟩)
  sets k hk := h.sets k (binders_subset_of_child hc hk)
  keys k hk := h.keys k (binders_subset_of_child hc hk)

theorem Relates.body {q : Quantifier} {v : Variable} {body : Expr}
    (h : Relates R σ bound (quant q v body)) : Relates R σ (v.name :: bound) body where
  items := h.items
  sets k hk := h.sets k (binders_subset_of_child (by simp [children]) hk)
  keys k hk := h.keys k (binders_subset_of_child (by simp [children]) hk)

/-- A substituted expression stands for what the expression stands for in the other state. By
induction on the expression; under a quantifier both states are changed in the same way. -/
theorem Relates.sameItem {e : Expr} (h : Relates R σ bound e) {s t : State M} (hst : R s t)
    (hb : ∀ k ∈ bound, σ k = none ∧ s.read k .int = t.read k .int) :
    SameItem M (substUnder σ bound e) s e t := by
  induction e generalizing bound s t with
  | var v =>
      -- a bound occurrence stays, and its name is not replaced either
      have hsub : substUnder σ bound (var v) = (σ v.name).getD (var v) := by
        rw [substUnder]
        split
        · next hv => rw [(hb v.name hv).1]; rfl
        · rfl
      rw [hsub]
      by_cases hv : v.name ∈ bound ∧ v.ty = .int
      · obtain ⟨hnone, hread⟩ := hb v.name hv.1
        rw [hnone]
        refine ⟨by rw [Option.getD_none, value, value, hv.2, hread], fun ha => ?_⟩
        simp [Expr.ty, hv.2, Ty.isArray] at ha
      · exact h.items hst v (by simp [reads, hv])
  | int n => exact .of_value (by simp [substUnder, value]) rfl rfl
  | float x => exact .of_value (by simp [substUnder, value]) rfl rfl
  | bool b => exact .of_value (by simp [substUnder, value]) rfl rfl
  | unary op e ih =>
      have he := ih (h.child (by simp [children]) rfl) hst hb
      exact .of_value (by rw [substUnder, value, value, he.value]) rfl rfl
  | binary op l r ihl ihr =>
      have hl := ihl (h.child (by simp [children]) rfl) hst hb
      have hr := ihr (h.child (by simp [children]) rfl) hst hb
      exact .of_value (by rw [substUnder, value, value, hl.value, hr.value]) rfl rfl
  | quant q v body ih =>
      have hv : v.name ∈ (quant q v body).binders := by simp [binders_quant]
      -- the bound integer is the same in both states, and all others are as before
      have hb' : ∀ n, ∀ k ∈ v.name :: bound, σ k = none ∧
          (s.set v.name (.int n)).read k .int = (t.set v.name (.int n)).read k .int := by
        intro n k hk
        rw [State.read_set, State.read_set]
        rcases List.mem_cons.1 hk with rfl | hk
        · exact ⟨h.keys v.name hv, by rw [if_pos ⟨rfl, rfl⟩, if_pos ⟨rfl, rfl⟩]⟩
        · exact ⟨(hb k hk).1, by rw [(hb k hk).2]⟩
      refine .of_value ?_ rfl rfl
      rw [substUnder, value, value]
      congr 2
      funext n
      rw [(ih h.body (h.sets v.name hv hst n) (hb' n)).value]
  | read a i iha ihi =>
      have ha := iha (h.child (by simp [children]) rfl) hst hb
      have hi := ihi (h.child (by simp [children]) rfl) hst hb
      exact .of_value (by rw [substUnder, value, value, ha.value, hi.value]) rfl rfl
  | update a i x n iha ihi ihx ihn =>
      have ha := iha (h.child (by simp [children]) rfl) hst hb
      have hi := ihi (h.child (by simp [children]) rfl) hst hb
      have hx := ihx (h.child (by simp [children]) rfl) hst hb
      have hn := ihn (h.child (by simp [children]) rfl) hst hb
      refine ⟨by rw [substUnder, value, value, ha.value, hi.value, hx.value], fun _ => ?_⟩
      rw [substUnder, lengthValue?, lengthValue?, hn.value]
  | call f args ty ih =>
      have hargs : ∀ e ∈ args, SameItem M (substUnder σ bound e) s e t := fun e he =>
        ih e he (h.child he rfl) hst hb
      refine .of_value ?_ rfl rfl
      rw [substUnder, substListUnder_eq_map, value, value, values_map hargs]
  | app p args ih =>
      -- a predicate is given the lengths of its arguments too
      have hargs : ∀ e ∈ args, SameItem M (substUnder σ bound e) s e t := fun e he =>
        ih e he (h.child he rfl) hst hb
      refine .of_value ?_ rfl rfl
      rw [substUnder, substListUnder_eq_map, value, value, values_map hargs, lengths_map hargs]

/-- A formula after the substitution is true in one state where the formula is true in the other.
-/
theorem Relates.holds {e : Expr} (h : Relates R σ [] e) {s t : State M} (hst : R s t) :
    (substUnder σ [] e).Holds M s ↔ e.Holds M t := by
  unfold Holds
  rw [(h.sameItem hst (by simp)).value]

end Relates

/-- A substitution that replaces nothing changes nothing. -/
theorem substUnder_none (bound : List String) (e : Expr) :
    substUnder (fun _ => none) bound e = e := by
  induction e generalizing bound with
  | call f args t ih =>
      rw [substUnder, substListUnder_eq_map, List.map_congr_left fun e he => ih e he bound]
      simp
  | app p args ih =>
      rw [substUnder, substListUnder_eq_map, List.map_congr_left fun e he => ih e he bound]
      simp
  | _ => simp_all [substUnder]

/-- An expression stands for the same in states that agree on what it reads. It is the case of a
substitution that replaces nothing. -/
theorem sameItem_of_agreeOn (e : Expr) {M : Meaning} {s t : State M}
    (h : ∀ v ∈ e.reads [], AgreeOn s t v) : SameItem M e s e t := by
  have hrelates : Relates (fun s t : State M => ∀ v ∈ e.reads [], AgreeOn s t v)
      (fun _ => none) [] e := {
    items := fun hst v hv => (hst v hv).sameItem
    sets := fun k _ _ _ hst n v hv => (hst v hv).set k (.int n)
    keys := fun _ _ => rfl }
  have hsame := hrelates.sameItem h (by simp)
  rwa [substUnder_none] at hsame

/-- The truth of a formula depends on the variables that it reads, and on the lengths of the
arrays among them. -/
theorem holds_congr {M : Meaning} {e : Expr} {s t : State M}
    (h : ∀ v ∈ e.reads [], AgreeOn s t v) : e.Holds M s ↔ e.Holds M t := by
  unfold Holds
  rw [(sameItem_of_agreeOn e h).value]

end Expr

/-! ## Substitution as assignment

The state after the assignments of a substitution, all at once. It is defined from the values of
the replacements in the old state, so that no replacement sees another. -/

/-- The state in which the names of a substitution hold the values of their
replacements. -/
noncomputable def State.under {M : Meaning} (s : State M) (σ : String → Option Expr) :
    State M where
  read x t :=
    match σ x with
    | some r => if r.ty = t then r.value M s else s.read x t
    | none => s.read x t
  typed x t := by
    cases σ x with
    | none => exact s.typed x t
    | some r =>
        dsimp only
        split
        · next h => rw [Expr.ty_value, h]
        · exact s.typed x t

namespace State

variable {M : Meaning} {s : State M} {σ : String → Option Expr}

theorem read_under_none {x : String} (h : σ x = none) (t : Ty) :
    (s.under σ).read x t = s.read x t := by
  simp [under, h]

theorem read_under_some {x : String} {r : Expr} (h : σ x = some r) :
    (s.under σ).read x r.ty = r.value M s := by
  simp [under, h]

/-- What a variable becomes has the value that the variable gets. -/
theorem value_getD_eq_read {v : Variable} (h : ∀ r, σ v.name = some r → r.ty = v.ty) :
    ((σ v.name).getD (.var v)).value M s = (s.under σ).read v.name v.ty := by
  cases hr : σ v.name with
  | none => rw [read_under_none hr, Option.getD_none, Expr.value]
  | some r => rw [← h r hr, read_under_some hr, Option.getD_some]

end State

namespace Expr

/-- The names of the cells that the value of an expression depends on. Lengths are included, as a
predicate is given the lengths of its arguments. -/
def cellNames (e : Expr) : List String :=
  (e.reads []).flatMap fun v => v.withLength.map Variable.name

theorem mem_cellNames {e : Expr} {v w : Variable} (hv : v ∈ e.reads []) (hw : w ∈ v.withLength) :
    w.name ∈ e.cellNames :=
  List.mem_flatMap.2 ⟨v, hv, List.mem_map_of_mem hw⟩

theorem mem_cellNames_var {v : Variable} {x : String} :
    x ∈ (var v).cellNames ↔ ∃ w ∈ v.withLength, w.name = x := by
  simp [cellNames, reads]

/-- The length of an array depends on nothing that the array does not depend on. -/
theorem cellNames_of_arrayLength? {e r : Expr} (h : e.arrayLength? = some r) :
    r.cellNames ⊆ e.cellNames := by
  intro x hx
  obtain ⟨v, hv, hxv⟩ := List.mem_flatMap.1 hx
  obtain ⟨w, hw, rfl⟩ := List.mem_map.1 hxv
  obtain ⟨u, hu, hvu⟩ := mem_reads_of_arrayLength? h hv
  exact mem_cellNames hu (Variable.withLength_subset hvu hw)

/-- A name that an expression does not depend on may be set. This is what lets a replacement be
moved below a quantifier. -/
theorem sameItem_set {M : Meaning} {e : Expr} {x : String} (h : x ∉ e.cellNames)
    (s : State M) (d : Datum M.Num) : SameItem M e (s.set x d) e s := by
  have agree : ∀ v ∈ e.reads [], AgreeOn (s.set x d) s v := fun v hv w hw =>
    s.read_set_of_ne d w.ty fun he => h (he ▸ mem_cellNames hv hw)
  exact sameItem_of_agreeOn e agree

/-- Substituting `σ` below quantifiers that bind the names in `bound` has the effect of an
assignment. -/
structure Admits (σ : String → Option Expr) (bound : List String) (e : Expr) : Prop where
  /-- Variables and lengths are replaced by expressions of their type. -/
  types : ∀ v ∈ e.reads bound, ∀ w ∈ v.withLength, ∀ r, σ w.name = some r → r.ty = w.ty
  /-- The length of what an array becomes is what its length becomes. -/
  lengths : ∀ v ∈ e.reads bound, v.ty.isArray →
    ((σ v.name).getD (var v)).arrayLength? = v.length?.map fun l => (σ l.name).getD (var l)
  /-- Bound names are not replaced. -/
  keys : ∀ k ∈ e.binders, σ k = none
  /-- Bound names do not occur in replacements. -/
  apart : ∀ k ∈ e.binders, ∀ x r, σ x = some r → k ∉ r.cellNames

end Expr

/-- Substitution does not interfere with a quantifier whose name it neither replaces nor
brings in. -/
theorem State.under_set {M : Meaning} (s : State M) {σ : String → Option Expr} {k : String}
    (hk : σ k = none) (ha : ∀ x r, σ x = some r → k ∉ r.cellNames) (d : Datum M.Num) :
    (s.set k d).under σ = (s.under σ).set k d := by
  ext x t
  rw [read_set]
  -- a name that is replaced is not the bound one, and its replacement does not read the bound one
  cases hx : σ x with
  | none => rw [read_under_none hx, read_under_none hx, read_set]
  | some r =>
      have hne : x ≠ k := fun he => by rw [he, hk] at hx; cases hx
      rw [if_neg fun hc => hne hc.1]
      simp only [under, hx, (Expr.sameItem_set (ha x r hx) s d).value, read_set_of_ne s d t hne]

namespace Expr

variable {M : Meaning} {σ : String → Option Expr}

/-- A substitution that is admitted makes up for the assignment. The relation is a function here:
one state determines the other. -/
theorem Admits.relates {e : Expr} {bound : List String} (h : e.Admits σ bound) :
    Relates (fun s t : State M => t = s.under σ) σ bound e where
  items := by
    rintro s _ rfl v hv
    refine ⟨State.value_getD_eq_read (h.types v hv v v.self_mem_withLength), fun ha => ?_⟩
    rw [lengthValue?_eq, h.lengths v hv ha, lengthValue?]
    cases hl : v.length? with
    | none => rfl
    | some l =>
        simp only [Option.map_some]
        rw [State.value_getD_eq_read (h.types v hv l (by simp [hl]))]
  sets := by
    -- no replacement mentions the bound name, so it may be set before or after
    rintro k hk s _ rfl n
    exact (State.under_set s (h.keys k hk) (h.apart k hk) _).symm
  keys := h.keys

/-- A substitution makes up for every difference in the variables of an expression, if no
quantifier gets in the way. -/
theorem relates_of_not_mem {e : Expr} (hk : ∀ k ∈ e.binders, σ k = none)
    (hv : ∀ k ∈ e.binders, ∀ v ∈ e.reads [],
      k ∉ (var v).cellNames ∧ k ∉ ((σ v.name).getD (var v)).cellNames) :
    Relates (fun s t : State M => ∀ v ∈ e.reads [],
      SameItem M ((σ v.name).getD (var v)) s (var v) t) σ [] e where
  items hst := hst
  sets k hkb s t hst n v hvr := by
    obtain ⟨hvar, hsub⟩ := hv k hkb v hvr
    exact (sameItem_set hsub s _).trans ((hst v hvr).trans (sameItem_set hvar t _).symm)
  keys := hk

/-- A formula after a substitution is true where the formula is true after the
assignment. -/
theorem holds_substUnder {M : Meaning} {σ : String → Option Expr} {e : Expr}
    (h : e.Admits σ []) (s : State M) :
    (substUnder σ [] e).Holds M s ↔ e.Holds M (s.under σ) :=
  h.relates.holds rfl

/-! ## What a substituted expression mentions

Variables and binders of a substituted expression come from the expression or from a replacement.
These lemmas keep track of which, so that a result of substitution can be substituted in again. -/

theorem plain_substUnder {e : Expr} (h : e.plain) (σ : String → Option Expr)
    (bound : List String) : (substUnder σ bound e).plain := by
  cases e with
  | var v => cases h
  | quant q v body => cases h
  | _ => rfl

theorem children_substUnder {e : Expr} (h : e.plain) (σ : String → Option Expr)
    (bound : List String) :
    (substUnder σ bound e).children = e.children.map (substUnder σ bound) := by
  cases e with
  | var v => cases h
  | quant q v body => cases h
  | call f args t => exact substListUnder_eq_map σ bound args
  | app p args => exact substListUnder_eq_map σ bound args
  | _ => simp [substUnder, children]

/-- A variable that a substituted expression reads was there before and has no
replacement, or it comes with the replacement of one that was. -/
theorem mem_reads_substUnder {σ : String → Option Expr} {e : Expr} {bound : List String}
    (hk : ∀ k ∈ e.binders, σ k = none) (hb : ∀ k ∈ bound, σ k = none) {v : Variable}
    (hv : v ∈ (substUnder σ bound e).reads bound) :
    (v ∈ e.reads bound ∧ σ v.name = none) ∨
      ∃ u ∈ e.reads bound, ∃ r, σ u.name = some r ∧ v ∈ r.reads [] := by
  induction e using plainInduct generalizing bound with
  | var u =>
      rw [substUnder] at hv
      split at hv
      · next hu =>
          -- the name is bound, so it has no replacement
          have hvu : v = u := by
            rw [reads] at hv
            split at hv
            · cases hv
            · exact List.mem_singleton.1 hv
          exact Or.inl ⟨hv, hvu ▸ hb u.name hu⟩
      · next hu =>
          have hmem : u ∈ (var u).reads bound := by simp [reads, hu]
          cases hr : σ u.name with
          | none =>
              rw [hr, Option.getD_none] at hv
              have hvu : v = u := by simpa [reads, hu] using hv
              exact Or.inl ⟨hv, hvu ▸ hr⟩
          | some r =>
              rw [hr, Option.getD_some] at hv
              exact Or.inr ⟨u, hmem, r, hr, reads_anti (List.nil_subset bound) hv⟩
  | quant q u body ih =>
      have hb' : ∀ k ∈ u.name :: bound, σ k = none := by
        intro k hkb
        rcases List.mem_cons.1 hkb with rfl | hkb
        · exact hk u.name (by simp [binders_quant])
        · exact hb k hkb
      exact ih (fun k hkb => hk k (by simp [binders_quant, hkb])) hb' hv
  | plain e he ih =>
      obtain ⟨c', hc', hvc⟩ := (mem_reads_plain (plain_substUnder he σ bound)).1 hv
      rw [children_substUnder he] at hc'
      obtain ⟨c, hc, rfl⟩ := List.mem_map.1 hc'
      have hkc : ∀ k ∈ c.binders, σ k = none := fun k hkb => hk k (binders_subset_of_child hc hkb)
      rcases ih c hc hkc hb hvc with ⟨hmem, hnone⟩ | ⟨u, hu, r, hr⟩
      · exact Or.inl ⟨(mem_reads_plain he).2 ⟨c, hc, hmem⟩, hnone⟩
      · exact Or.inr ⟨u, (mem_reads_plain he).2 ⟨c, hc, hu⟩, r, hr⟩

/-- A binder of a substituted expression was there before, or comes with a replacement. -/
theorem mem_binders_substUnder {σ : String → Option Expr} {e : Expr} {bound : List String}
    {k : String} (hk : k ∈ (substUnder σ bound e).binders) :
    k ∈ e.binders ∨ ∃ x r, σ x = some r ∧ k ∈ r.binders := by
  induction e using plainInduct generalizing bound with
  | var u =>
      rw [substUnder] at hk
      split at hk
      · exact Or.inl hk
      · cases hr : σ u.name with
        | none => exact Or.inl (by rwa [hr, Option.getD_none] at hk)
        | some r => exact Or.inr ⟨u.name, r, hr, by rwa [hr, Option.getD_some] at hk⟩
  | quant q u body ih =>
      rw [substUnder, binders_quant] at hk
      rw [binders_quant]
      rcases List.mem_cons.1 hk with rfl | hk
      · exact Or.inl List.mem_cons_self
      · exact (ih hk).imp_left (List.mem_cons_of_mem _)
  | plain e he ih =>
      obtain ⟨c', hc', hkc⟩ := (mem_binders_plain (plain_substUnder he σ bound)).1 hk
      rw [children_substUnder he] at hc'
      obtain ⟨c, hc, rfl⟩ := List.mem_map.1 hc'
      exact (ih c hc hkc).imp_left fun h => binders_subset_of_child hc h

end Expr

end Pathwise
