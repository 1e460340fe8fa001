import Pathwise.Proofs.SortedMap
import Pathwise.Proofs.Typing

/-!
# Pathwise.Proofs.FreeNames

The tables of free variables and function symbols.

Both tables are filled by a walk through the expression that inserts one entry after the other.
`SortedMap.Extends` says what such a walk does to a table: the order of the entries is kept, no
key is lost, and what is new comes from a given list. Hence an entry of the table of free
variables is a variable of the expression at its type (`Expr.extends_collectFree`), and the table
of function symbols has an entry for each symbol (`Expr.find?_functionSymbols`). The list of
predicates that an expression applies is complete (`Expr.mem_predicateNames`).

This module is about entries, with their types. Which names are in the table of free variables is
a finer question, because lengths are involved, and has a module of its own
(`Pathwise.Proofs.FreeVariables`).

The walks carry their table along, so every statement about them is about an arbitrary table to
begin with. `Extends` is reflexive and transitive and has a lemma for each way to change a table,
and a walk is then a chain of such steps.
-/

namespace Pathwise

/-! ## Tables

Look-up in a list without repeated keys, and the relation between a table and what a walk makes of
it. -/

namespace SortedMap

variable {α : Type} {l l' : List (String × α)} {m m₁ m' n : SortedMap String α} {x : String} {a : α}

/-- Where no key is repeated, an entry is what look-up finds. -/
theorem lookup_of_mem (hn : (l.map Prod.fst).Nodup) (h : (x, a) ∈ l) : lookup x l = some a := by
  induction l with
  | nil => cases h
  | cons e rest ih =>
      obtain ⟨k, b⟩ := e
      obtain ⟨hk, hrest⟩ := List.nodup_cons.1 hn
      rw [lookup]
      rcases List.mem_cons.1 h with he | h
      · cases he
        exact if_pos rfl
      · have hne : x ≠ k := fun hx => hk (List.mem_map.2 ⟨(x, a), h, hx⟩)
        rw [if_neg hne, ih hrest h]

theorem Sorted.nodup_keys (h : m.Sorted) : (m.entries.map Prod.fst).Nodup :=
  List.pairwise_map.2 (h.imp fun hlt => String.ne_of_lt hlt)

/-- In a sorted map the entries are what look-up finds. -/
theorem Sorted.mem_entries_iff (h : m.Sorted) : (x, a) ∈ m.entries ↔ m.find? x = some a :=
  ⟨lookup_of_mem h.nodup_keys, mem_of_lookup⟩

/-- The table `m'` is the table `m` with entries of the list `l` put in. Entries may be put in
several times, and an entry may take the place of another one. -/
structure Extends (l : List (String × α)) (m m' : SortedMap String α) : Prop where
  /-- The entries stay in order. -/
  sorted : m.Sorted → m'.Sorted
  /-- No key is lost. -/
  keeps : ∀ {x}, (m.find? x).isSome → (m'.find? x).isSome
  /-- What is new comes from the list. -/
  origin : ∀ {x a}, m'.find? x = some a → m.find? x = some a ∨ (x, a) ∈ l

namespace Extends

theorem refl (l : List (String × α)) (m : SortedMap String α) : Extends l m m :=
  ⟨id, id, Or.inl⟩

theorem trans (h : Extends l m m₁) (h' : Extends l m₁ m') : Extends l m m' where
  sorted hs := h'.sorted (h.sorted hs)
  keeps hx := h'.keeps (h.keeps hx)
  origin hx := (h'.origin hx).elim h.origin Or.inr

theorem mono (h : Extends l m m') (hl : l ⊆ l') : Extends l' m m' :=
  ⟨h.sorted, h.keeps, fun hx => (h.origin hx).imp_right fun hm => hl hm⟩

theorem insert (hl : (x, a) ∈ l) (m : SortedMap String α) : Extends l m (m.insert x a) where
  sorted hs := sorted_insert hs x a
  keeps hy := by
    rw [find?_insert]
    split
    · rfl
    · exact hy
  origin hy := by
    rw [find?_insert] at hy
    split at hy
    · next hyx =>
        cases hy
        exact Or.inr (hyx ▸ hl)
    · exact Or.inl hy

theorem insertIfNew (hl : (x, a) ∈ l) (m : SortedMap String α) :
    Extends l m (m.insertIfNew x a) := by
  unfold SortedMap.insertIfNew
  split
  · exact refl l m
  · exact insert hl m

theorem insertMany (hl : l' ⊆ l) (m : SortedMap String α) : Extends l m (m.insertMany l') := by
  induction l' generalizing m with
  | nil => exact refl l m
  | cons e rest ih =>
      obtain ⟨he, hrest⟩ := List.cons_subset.1 hl
      exact (insert he m).trans (ih hrest _)

theorem union (h : Extends l empty n) (m : SortedMap String α) : Extends l m (m.union n) := by
  refine insertMany (fun e he => ?_) m
  obtain ⟨x, a⟩ := e
  have hfind := (h.sorted sorted_empty).mem_entries_iff.1 he
  rcases h.origin hfind with hnone | hmem
  · cases hnone
  · exact hmem

end Extends

end SortedMap

namespace Expr

open SortedMap

/-! ## Free variables

The walk through an expression and the one through its length are mutually recursive, so they are
treated in one induction. Entries come from the variables of the expression, as a list of names
with types. -/

/-- The names in a list of variables, with their types. -/
def typings (vs : List Variable) : List (String × Ty) := vs.map fun v => (v.name, v.ty)

theorem mem_typings {vs : List Variable} {v : Variable} (hv : v ∈ vs) :
    (v.name, v.ty) ∈ typings vs := List.mem_map_of_mem hv

theorem typings_mono {vs ws : List Variable} (h : vs ⊆ ws) : typings vs ⊆ typings ws :=
  List.map_subset _ h

/-- The walk through a list of expressions, of which each adds entries of its own. -/
theorem extends_collectFreeList {l : List (String × Ty)} {bound : List String} {es : List Expr}
    (h : ∀ e ∈ es, ∀ out, Extends l out (collectFree bound out e)) (out : SortedMap String Ty) :
    Extends l out (collectFreeList bound out es) := by
  induction es generalizing out with
  | nil => exact .refl l out
  | cons e es ih =>
      obtain ⟨he, hes⟩ := List.forall_mem_cons.1 h
      exact (he out).trans (ih hes _)

/-- The walk through the arguments of a predicate, where the names of lengths are put in as well.
-/
theorem extends_collectFreeArgs {l : List (String × Ty)} {bound : List String} {es : List Expr}
    (h : ∀ e ∈ es, ∀ out, Extends l out (collectFree bound out e))
    (hl : ∀ e ∈ es, Extends l empty (collectLength e)) (out : SortedMap String Ty) :
    Extends l out (collectFreeArgs bound out es) := by
  induction es generalizing out with
  | nil => exact .refl l out
  | cons e es ih =>
      obtain ⟨he, hes⟩ := List.forall_mem_cons.1 h
      obtain ⟨hle, hles⟩ := List.forall_mem_cons.1 hl
      have hout : Extends l out (if e.ty.isArray then (collectFree bound out e).union
          (collectLength e) else collectFree bound out e) := by
        split
        · exact (he out).trans (hle.union _)
        · exact he out
      exact hout.trans (ih hes hles _)

/-- The walk through an expression, and that through its length, put in variables of the
expression. -/
theorem extends_collectFree (e : Expr) :
    (∀ bound out, Extends (typings e.mentions) out (collectFree bound out e)) ∧
      Extends (typings e.mentions) empty (collectLength e) := by
  induction e using childInduct with
  | step e ih =>
      have hchild : ∀ c ∈ e.children, ∀ bound out,
          Extends (typings e.mentions) out (collectFree bound out c) := fun c hc bound out =>
        ((ih c hc).1 bound out).mono (typings_mono (mentions_subset_of_child hc))
      have hlength : ∀ c ∈ e.children, Extends (typings e.mentions) empty (collectLength c) :=
        fun c hc => (ih c hc).2.mono (typings_mono (mentions_subset_of_child hc))
      -- from here on the parts count as parts of `e`
      clear ih
      constructor
      · intro bound out
        cases e with
        | var v =>
            rw [collectFree]
            split
            · exact .refl _ out
            · exact .insert (mem_typings (by simp)) out
        | int n => exact .refl _ out
        | float x => exact .refl _ out
        | bool b => exact .refl _ out
        | unary op e => exact hchild e (by simp [children]) bound out
        | binary op l r =>
            simp only [children, List.forall_mem_cons] at hchild
            exact (hchild.1 bound out).trans (hchild.2.1 bound _)
        | quant q v body => exact hchild body (by simp [children]) (v.name :: bound) out
        | read a i =>
            simp only [children, List.forall_mem_cons] at hchild
            exact (hchild.1 bound out).trans (hchild.2.1 bound _)
        | update a i x n =>
            simp only [children, List.forall_mem_cons] at hchild
            exact (((hchild.1 bound out).trans (hchild.2.1 bound _)).trans
              (hchild.2.2.1 bound _)).trans (hchild.2.2.2.1 bound _)
        | call f args t => exact extends_collectFreeList (fun c hc => hchild c hc bound) out
        | app p args => exact extends_collectFreeArgs (fun c hc => hchild c hc bound) hlength out
      · cases e with
        | var v =>
            rw [collectLength]
            split
            · next l hl => exact .insert (mem_typings (by simp [hl])) empty
            · exact .refl _ empty
        | update a i x n => exact hchild n (by simp [children]) [] empty
        | _ => exact .refl _ empty

/-- The free variables are listed in the order of their names. -/
theorem sorted_freeVariables (e : Expr) : e.freeVariables.Sorted :=
  ((extends_collectFree e).1 [] empty).sorted sorted_empty

/-- The free variables are variables of the expression, at their types. They may be lengths, which
an expression mentions along with an array. -/
theorem exists_of_freeVariables {e : Expr} {x : String} {t : Ty}
    (h : e.freeVariables.find? x = some t) : ∃ v ∈ e.mentions, v.name = x ∧ v.ty = t := by
  rcases ((extends_collectFree e).1 [] empty).origin h with hnone | hmem
  · cases hnone
  · obtain ⟨v, hv, he⟩ := List.mem_map.1 hmem
    cases he
    exact ⟨v, hv, rfl, rfl⟩

/-! ## Function symbols

The table of symbols is a fold over all subexpressions. A symbol that is used at two signatures
has one entry, that of the first use, so the table gives the signature of a symbol only where
there is one. -/

/-- The function symbol at the root of an expression, with the types of this use. -/
def rootSymbol? : Expr → Option (String × SymbolTypes)
  | call f args ty => some (f, args.map Expr.ty, ty)
  | _ => none

/-- The uses of function symbols in an expression. -/
def symbols (e : Expr) : List (String × SymbolTypes) := e.visit.filterMap rootSymbol?

theorem symbols_eq (e : Expr) :
    e.symbols = e.rootSymbol?.toList ++ e.children.flatMap symbols := by
  rw [symbols, visit_eq, List.filterMap_cons, List.filterMap_flatMap]
  cases e.rootSymbol? <;> rfl

theorem symbols_subset_of_child {c e : Expr} (hc : c ∈ e.children) : c.symbols ⊆ e.symbols := by
  intro a ha
  rw [symbols_eq e]
  exact List.mem_append_right _ (List.mem_flatMap.2 ⟨c, hc, ha⟩)

/-- Put the symbol at the root of an expression into a table, unless it is there. -/
def addSymbol (out : SortedMap String SymbolTypes) (e : Expr) : SortedMap String SymbolTypes :=
  match e with
  | call f args ty => out.insertIfNew f (args.map Expr.ty, ty)
  | _ => out

theorem functionSymbols_eq (e : Expr) : e.functionSymbols = e.visit.foldl addSymbol empty := rfl

theorem extends_addSymbols {l : List (String × SymbolTypes)} {es : List Expr}
    (h : es.filterMap rootSymbol? ⊆ l) (out : SortedMap String SymbolTypes) :
    Extends l out (es.foldl addSymbol out) := by
  induction es generalizing out with
  | nil => exact .refl l out
  | cons e es ih =>
      rw [List.foldl_cons]
      cases e with
      | call f args t =>
          have hroot : rootSymbol? (call f args t) = some (f, args.map Expr.ty, t) := rfl
          rw [List.filterMap_cons_some hroot] at h
          obtain ⟨he, hes⟩ := List.cons_subset.1 h
          exact (Extends.insertIfNew he out).trans (ih hes _)
      | _ => exact ih (by rwa [List.filterMap_cons_none rfl] at h) out

/-- A symbol that is used has an entry, whatever was in the table before. -/
theorem isSome_addSymbols {es : List Expr} {a : String × SymbolTypes}
    (ha : a ∈ es.filterMap rootSymbol?) (out : SortedMap String SymbolTypes) :
    ((es.foldl addSymbol out).find? a.1).isSome := by
  induction es generalizing out with
  | nil => cases ha
  | cons e es ih =>
      rw [List.foldl_cons]
      rcases List.mem_filterMap.1 ha with ⟨d, hd, hroot⟩
      rcases List.mem_cons.1 hd with rfl | hd
      · cases d with
        | call f args t =>
            cases hroot
            -- it is put in here, unless it is there, and the rest of the walk keeps it
            refine (extends_addSymbols (List.Subset.refl _) _).keeps ?_
            rw [addSymbol, SortedMap.insertIfNew]
            split
            · next hc => exact hc
            · rw [find?_insert, if_pos rfl]
              rfl
        | _ => cases hroot
      · exact ih (List.mem_filterMap.2 ⟨d, hd, hroot⟩) _

theorem sorted_functionSymbols (e : Expr) : e.functionSymbols.Sorted := by
  rw [functionSymbols_eq]
  exact (extends_addSymbols (List.Subset.refl e.symbols) empty).sorted sorted_empty

/-- An entry of the table of symbols is a use of the symbol. -/
theorem mem_symbols_of_functionSymbols {e : Expr} {f : String} {types : SymbolTypes}
    (h : e.functionSymbols.find? f = some types) : (f, types) ∈ e.symbols := by
  rw [functionSymbols_eq] at h
  rcases (extends_addSymbols (List.Subset.refl e.symbols) empty).origin h with hnone | hmem
  · cases hnone
  · exact hmem

/-- Where each symbol has one signature, the table gives it. Otherwise it gives one of them, and
the use with another one is not declared. -/
theorem find?_functionSymbols {e : Expr}
    (hs : ∀ a ∈ e.symbols, ∀ b ∈ e.symbols, a.1 = b.1 → a = b) {a : String × SymbolTypes}
    (ha : a ∈ e.symbols) : e.functionSymbols.find? a.1 = some a.2 := by
  have hsome := isSome_addSymbols ha empty
  rw [← functionSymbols_eq] at hsome
  obtain ⟨types, htypes⟩ := Option.isSome_iff_exists.1 hsome
  have heq := hs _ (mem_symbols_of_functionSymbols htypes) a ha rfl
  rw [htypes, ← heq]

/-! ## Predicates

The names of the applied predicates, also by a fold. Their order does not matter here, and
membership is all that is said. -/

/-- Put the predicate that an expression applies at its root into a list, unless it is there. -/
def addPredicate (out : List String) (e : Expr) : List String :=
  match e with
  | app p _ => if p ∈ out then out else out ++ [p]
  | _ => out

theorem predicateNames_eq (e : Expr) : e.predicateNames = e.visit.foldl addPredicate [] := rfl

theorem mem_addPredicate {out : List String} {e : Expr} {x : String} :
    x ∈ addPredicate out e ↔ x ∈ out ∨ ∃ args, e = app x args := by
  cases e with
  | app p args =>
      rw [addPredicate]
      split
      · next hp => exact ⟨Or.inl, by rintro (hx | ⟨_, ⟨⟩⟩) <;> assumption⟩
      · simp [eq_comm]
  | _ => simp [addPredicate]

/-- The list has the names of the predicates that are applied somewhere in the expression, below
quantifiers and inside of arguments too. -/
theorem mem_predicateNames {e : Expr} {x : String} :
    x ∈ e.predicateNames ↔ ∃ args, app x args ∈ e.visit := by
  have hfold : ∀ (es : List Expr) (out : List String),
      x ∈ es.foldl addPredicate out ↔ x ∈ out ∨ ∃ args, app x args ∈ es := by
    intro es
    induction es with
    | nil => simp
    | cons e es ih =>
        intro out
        rw [List.foldl_cons, ih, mem_addPredicate, or_assoc, ← exists_or]
        simp only [List.mem_cons, eq_comm]
  rw [predicateNames_eq, hfold]
  simp

theorem predicateNames_subset_of_child {c e : Expr} (hc : c ∈ e.children) :
    c.predicateNames ⊆ e.predicateNames := by
  intro x hx
  obtain ⟨args, hargs⟩ := mem_predicateNames.1 hx
  exact mem_predicateNames.2 ⟨args, visit_subset_of_child hc hargs⟩

end Expr

namespace Program

variable {p : Program} {e : Expr} {t : Ty} {x : String}

/-- The predicates that a well-typed expression applies are predicates of the program. -/
theorem exists_predicate? (hc : p.check e = .ok t) (hx : x ∈ e.predicateNames) :
    ∃ q, p.predicate? x = some q := by
  obtain ⟨args, hargs⟩ := Expr.mem_predicateNames.1 hx
  obtain ⟨u, hu⟩ := check_of_mem_visit hc hargs
  obtain ⟨-, q, hq, -⟩ := check_app_iff.1 hu
  exact ⟨q, hq⟩

theorem mem_names_of_check (hc : p.check e = .ok t) (hx : x ∈ e.predicateNames) :
    x ∈ p.predicates.map Predicate.name := by
  obtain ⟨q, hq⟩ := exists_predicate? hc hx
  obtain ⟨hmem, rfl⟩ := mem_of_predicate? hq
  exact List.mem_map_of_mem hmem

end Program

end Pathwise
