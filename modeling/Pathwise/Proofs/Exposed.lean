import Pathwise.Proofs.Substitution

/-!
# Pathwise.Proofs.Exposed

What a substitution acts on.

Substitution goes by name and acts on the occurrences of a name outside of the quantifiers that
bind it (`Expr.exposed`). What it does to an expression is settled by what it does to these
(`Expr.substUnder_congr`), whatever quantifiers stand around the expression. After a substitution,
what is exposed was so before or came with a replacement (`Expr.mem_exposed_substUnder`).

`Expr.exposed` and `Expr.reads` are close but not the same. A quantifier hides every occurrence of
its name from substitution, also one at another type; the state that a quantifier sets keeps its
cells of other types, so that such an occurrence is still read from it. For expressions that use a
name at one type there is no difference.
-/

namespace Pathwise.Expr

/-! ## Exposed variables

The recursion carries the names bound so far, as `Expr.substUnder` does. `mem_exposed_iff` takes
them out again: what is bound from outside is removed from what is exposed, and nothing else
changes. -/

mutual

/-- The variables that occur outside of quantifiers binding their name, where the names in `bound`
are bound from outside. Types play no part, as in substitution. -/
def exposed (bound : List String) : Expr → List Variable
  | var v => if v.name ∈ bound then [] else [v]
  | int _ | float _ | bool _ => []
  | unary _ e => exposed bound e
  | binary _ l r => exposed bound l ++ exposed bound r
  | quant _ v body => exposed (v.name :: bound) body
  | read array index => exposed bound array ++ exposed bound index
  | update array index value length =>
    exposed bound array ++ exposed bound index ++ exposed bound value ++ exposed bound length
  | call _ args _ => exposedList bound args
  | app _ args => exposedList bound args

def exposedList (bound : List String) : List Expr → List Variable
  | [] => []
  | e :: es => exposed bound e ++ exposedList bound es

end

theorem mem_exposedList {bound : List String} {es : List Expr} {v : Variable} :
    v ∈ exposedList bound es ↔ ∃ e ∈ es, v ∈ e.exposed bound := by
  induction es with
  | nil => simp [exposedList]
  | cons e es ih => simp [exposedList, ih]

/-- An expression that is neither a variable nor a quantifier exposes what its parts expose. -/
theorem mem_exposed_plain {e : Expr} (h : e.plain) {bound : List String} {v : Variable} :
    v ∈ e.exposed bound ↔ ∃ c ∈ e.children, v ∈ c.exposed bound := by
  cases e with
  | var v => cases h
  | quant q v body => cases h
  | call f args t => exact mem_exposedList
  | app p args => exact mem_exposedList
  | _ => simp [exposed, children]

/-- Names bound from outside are taken out, and nothing else. So it is enough to know what is
exposed with no name bound. -/
theorem mem_exposed_iff {e : Expr} {bound : List String} {v : Variable} :
    v ∈ e.exposed bound ↔ v ∈ e.exposed [] ∧ v.name ∉ bound := by
  induction e using plainInduct generalizing bound with
  | var u =>
      by_cases hu : u.name ∈ bound
      · simp only [exposed, hu, if_true, List.not_mem_nil, if_false, List.mem_singleton, false_iff]
        rintro ⟨rfl, hv⟩
        exact hv hu
      · simp only [exposed, hu, if_false, List.not_mem_nil, List.mem_singleton]
        exact ⟨fun h => ⟨h, h ▸ hu⟩, fun h => h.1⟩
  | quant q u body ih =>
      have hbody : v ∈ body.exposed [u.name] ↔ v ∈ body.exposed [] ∧ v.name ∉ [u.name] := ih
      -- the bound name joins the names from outside, on one side before they are taken out and on
      -- the other after
      rw [exposed, exposed, ih, hbody]
      simp [and_assoc]
  | plain e he ih =>
      rw [mem_exposed_plain he, mem_exposed_plain he]
      constructor
      · rintro ⟨c, hc, hv⟩
        obtain ⟨hv, hb⟩ := (ih c hc).1 hv
        exact ⟨⟨c, hc, hv⟩, hb⟩
      · rintro ⟨⟨c, hc, hv⟩, hb⟩
        exact ⟨c, hc, (ih c hc).2 ⟨hv, hb⟩⟩

theorem mem_mentions_of_exposed {e : Expr} {bound : List String} {v : Variable}
    (hv : v ∈ e.exposed bound) : v ∈ e.mentions := by
  induction e using plainInduct generalizing bound with
  | var u =>
      rw [exposed] at hv
      split at hv
      · cases hv
      · rw [List.mem_singleton.1 hv, mentions_var]
        exact u.self_mem_withLength
  | quant q u body ih => exact mentions_subset_of_child (by simp [children]) (ih hv)
  | plain e he ih =>
      obtain ⟨c, hc, hvc⟩ := (mem_exposed_plain he).1 hv
      exact mentions_subset_of_child hc (ih c hc hvc)

/-- A quantifier hides occurrences of every type, and the state only those of integers. So
whatever is exposed is read from the state, and the converse may fail. -/
theorem mem_reads_of_exposed {e : Expr} {bound : List String} {v : Variable}
    (hv : v ∈ e.exposed bound) : v ∈ e.reads bound := by
  induction e using plainInduct generalizing bound with
  | var u =>
      rw [exposed] at hv
      split at hv
      · cases hv
      · next hu => simpa [reads, hu] using hv
  | quant q u body ih => exact ih hv
  | plain e he ih =>
      obtain ⟨c, hc, hvc⟩ := (mem_exposed_plain he).1 hv
      exact (mem_reads_plain he).2 ⟨c, hc, ih c hc hvc⟩

/-! ## Substitutions that do the same

Two substitutions, below two lists of bound names, are compared on single variables. That covers
three uses at once: other replacements, other names bound around the expression, and no
replacement at all. -/

theorem substUnder_var_of_mem {σ : String → Option Expr} {bound : List String} {v : Variable}
    (hv : v.name ∈ bound) : substUnder σ bound (var v) = var v := by
  rw [substUnder, if_pos hv]

theorem substUnder_var_of_not_mem {σ : String → Option Expr} {bound : List String} {v : Variable}
    (hv : v.name ∉ bound) : substUnder σ bound (var v) = (σ v.name).getD (var v) := by
  rw [substUnder, if_neg hv]

/-- Substitutions that do the same to each exposed variable do the same to the expression, also if
they are carried out below different quantifiers. The comparison on variables is by the
substitutions themselves, so that bound names are covered. -/
theorem substUnder_congr {σ τ : String → Option Expr} {e : Expr} {bound bound' : List String}
    (h : ∀ v ∈ e.exposed [], substUnder σ bound (var v) = substUnder τ bound' (var v)) :
    substUnder σ bound e = substUnder τ bound' e := by
  induction e generalizing bound bound' with
  | var v => exact h v (by simp [exposed])
  | int n => rw [substUnder, substUnder]
  | float x => rw [substUnder, substUnder]
  | bool b => rw [substUnder, substUnder]
  | unary op e ih => rw [substUnder, substUnder, ih h]
  | binary op l r ihl ihr =>
      simp only [exposed, List.forall_mem_append] at h
      rw [substUnder, substUnder, ihl h.1, ihr h.2]
  | quant q k body ih =>
      -- the bound name stays in both, and the others do not notice the quantifier
      have hbody : ∀ v ∈ body.exposed [],
          substUnder σ (k.name :: bound) (var v) = substUnder τ (k.name :: bound') (var v) := by
        intro v hv
        by_cases hk : v.name = k.name
        · rw [substUnder_var_of_mem (by simp [hk]), substUnder_var_of_mem (by simp [hk])]
        · have hexposed : v ∈ body.exposed [k.name] := mem_exposed_iff.2 ⟨hv, by simpa using hk⟩
          simpa only [substUnder, List.mem_cons, hk, false_or] using h v hexposed
      rw [substUnder, substUnder, ih hbody]
  | read a i iha ihi =>
      simp only [exposed, List.forall_mem_append] at h
      rw [substUnder, substUnder, iha h.1, ihi h.2]
  | update a i x n iha ihi ihx ihn =>
      simp only [exposed, List.forall_mem_append] at h
      rw [substUnder, substUnder, iha h.1.1.1, ihi h.1.1.2, ihx h.1.2, ihn h.2]
  | call f args t ih =>
      rw [substUnder, substUnder, substListUnder_eq_map, substListUnder_eq_map]
      congr 1
      exact List.map_congr_left fun e he =>
        ih e he fun v hv => h v (mem_exposedList.2 ⟨e, he, hv⟩)
  | app p args ih =>
      rw [substUnder, substUnder, substListUnder_eq_map, substListUnder_eq_map]
      congr 1
      exact List.map_congr_left fun e he =>
        ih e he fun v hv => h v (mem_exposedList.2 ⟨e, he, hv⟩)

/-! ## What a substituted expression holds

Exposed and mentioned variables after a substitution, traced back to the expression or to a
replacement. A replacement counts only if the variable it stands for was exposed. -/

/-- What is exposed after a substitution was so before and has no replacement, or it comes
with the replacement of a variable that was. -/
theorem mem_exposed_substUnder {σ : String → Option Expr} {e : Expr} {bound : List String}
    {v : Variable} (hv : v ∈ (substUnder σ bound e).exposed bound) :
    (v ∈ e.exposed bound ∧ σ v.name = none) ∨
      ∃ u ∈ e.exposed bound, ∃ r, σ u.name = some r ∧ v ∈ r.exposed [] := by
  induction e using plainInduct generalizing bound with
  | var u =>
      rw [substUnder] at hv
      split at hv
      · next hu => simp [exposed, hu] at hv
      · next hu =>
          have hmem : u ∈ (var u).exposed bound := by simp [exposed, hu]
          cases hr : σ u.name with
          | none =>
              rw [hr, Option.getD_none] at hv
              have hvu : v = u := by simpa [exposed, hu] using hv
              exact Or.inl ⟨hv, hvu ▸ hr⟩
          | some r =>
              rw [hr, Option.getD_some] at hv
              exact Or.inr ⟨u, hmem, r, hr, (mem_exposed_iff.1 hv).1⟩
  | quant q u body ih => exact ih hv
  | plain e he ih =>
      obtain ⟨c', hc', hvc⟩ := (mem_exposed_plain (plain_substUnder he σ bound)).1 hv
      rw [children_substUnder he] at hc'
      obtain ⟨c, hc, rfl⟩ := List.mem_map.1 hc'
      rcases ih c hc hvc with ⟨hmem, hnone⟩ | ⟨u, hu, hr⟩
      · exact Or.inl ⟨(mem_exposed_plain he).2 ⟨c, hc, hmem⟩, hnone⟩
      · exact Or.inr ⟨u, (mem_exposed_plain he).2 ⟨c, hc, hu⟩, hr⟩

/-- What a substituted expression mentions was mentioned before, or comes with the replacement of
an exposed variable. Unlike for exposed variables, a variable that was replaced everywhere may be
mentioned still, as one that a quantifier binds. -/
theorem mem_mentions_substUnder {σ : String → Option Expr} {e : Expr} {bound : List String}
    {v : Variable} (hv : v ∈ (substUnder σ bound e).mentions) :
    v ∈ e.mentions ∨ ∃ u ∈ e.exposed bound, ∃ r, σ u.name = some r ∧ v ∈ r.mentions := by
  induction e using plainInduct generalizing bound with
  | var u =>
      rw [substUnder] at hv
      split at hv
      · exact Or.inl hv
      · next hu =>
          cases hr : σ u.name with
          | none => exact Or.inl (by rwa [hr, Option.getD_none] at hv)
          | some r =>
              rw [hr, Option.getD_some] at hv
              exact Or.inr ⟨u, by simp [exposed, hu], r, hr, hv⟩
  | quant q u body ih =>
      rw [substUnder, mentions_eq] at hv
      rcases List.mem_append.1 hv with hv | hv
      · rw [mentions_eq]
        exact Or.inl (List.mem_append_left _ hv)
      · have hbody : v ∈ (substUnder σ (u.name :: bound) body).mentions := by
          simpa [children] using hv
        exact (ih hbody).imp_left fun h => mentions_subset_of_child (by simp [children]) h
  | plain e he ih =>
      have hroot : (substUnder σ bound e).rootMentions = [] := by
        cases e with
        | var v => cases he
        | quant q v body => cases he
        | _ => rfl
      rw [mentions_eq, hroot, List.nil_append, children_substUnder he] at hv
      obtain ⟨c', hc', hvc⟩ := List.mem_flatMap.1 hv
      obtain ⟨c, hc, rfl⟩ := List.mem_map.1 hc'
      rcases ih c hc hvc with hmem | ⟨u, hu, hr⟩
      · exact Or.inl (mentions_subset_of_child hc hmem)
      · exact Or.inr ⟨u, (mem_exposed_plain he).2 ⟨c, hc, hu⟩, hr⟩

end Pathwise.Expr
