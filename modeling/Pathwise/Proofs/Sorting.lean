import Pathwise.Smt.Encode
import Pathwise.Proofs.FreeVariables
import Pathwise.Proofs.Validation

/-!
# Pathwise.Proofs.Sorting

Typed expressions become well-sorted terms.

`Smt.Term.sort?` computes the sort of a term over the symbols that a script declares, as the
standard does: the operands of every operator and the arguments of every application must have the
sorts that its rank asks for. The encoding of an expression relies on four walks through the
expression that do not know of each other: the type checker, the static type, the tables of free
names and the encoder itself. `Expr.sortedAs_of_check` says that they agree: if the free constants
of the term are declared at the types of their variables, the term has the sort of the
expression's type. That they are declared is shown by `Expr.isSome_collectFree`.

The induction is over expressions under binders. A bound variable is an integer, so the sorts of
bound names are given by a list of names alone. Lengths take part in it, because a predicate is
applied to its arguments and then to the lengths of the arrays among them, and the encoder finds a
length in a place of its own.

What has to be assumed about names is collected in `Program.WellNamed`. A script has one table for
all symbols. A variable, a function symbol and a predicate of one name would therefore be declared
twice, and the solver would refuse the script. Type checking does not notice this, since it keeps
the three kinds apart.
-/

namespace Pathwise

namespace Smt

/-! ## Sorts of terms

The sort system of the target language, as a function. Both the sort and the free constants of a
term are defined by recursion on terms, with a function for lists of operands beside each. -/

/-- The sorts of the arguments and of the result of a symbol. -/
structure Rank where
  params : List SortExpr
  result : SortExpr
  deriving DecidableEq

/-- The symbol that a command declares or defines. -/
def Command.symbol? : Command → Option (String × Rank)
  | declareConst name sort => some (name, ⟨[], sort⟩)
  | declareFun name params result => some (name, ⟨params, result⟩)
  | defineFun name params result _ => some (name, ⟨params.map Prod.snd, result⟩)
  | _ => none

def Script.symbols (s : Script) : List (String × Rank) := s.filterMap Command.symbol?

/-- The sort of a symbol applied to arguments of some sorts. -/
def applied? (sig : List (String × Rank)) (f : String) (args : List SortExpr) : Option SortExpr :=
  match SortedMap.lookup f sig with
  | some rank => if rank.params = args then some rank.result else none
  | none => none

/-- The sort of a name that stands alone: that of a bound variable or of a constant. -/
def constant? (sig : List (String × Rank)) (bound : List SortedVar) (x : String) :
    Option SortExpr :=
  match SortedMap.lookup x bound with
  | some sort => some sort
  | none => applied? sig x []

/-- Whether arithmetic applies to terms of the sort. -/
def SortExpr.isNumeric : SortExpr → Bool
  | int | real => true
  | _ => false

/-- The sort of an operation on operands of some sorts. Equality applies to all sorts and
arithmetic to both sorts of numbers, where the operands must agree. -/
def Op.sort? (op : Op) (l r : SortExpr) : Option SortExpr :=
  match op with
  | .implies | .iff => if l = .bool ∧ r = .bool then some .bool else none
  | .eq => if l = r then some .bool else none
  | .add | .sub | .mul => if l = r ∧ l.isNumeric then some l else none
  | .intDiv | .intMod => if l = .int ∧ r = .int then some .int else none
  | .realDiv => if l = .real ∧ r = .real then some .real else none
  | .lt | .le | .gt | .ge => if l = r ∧ l.isNumeric then some .bool else none
  | .select => match l with
    | .array index elem => if r = index then some elem else none
    | _ => none

namespace Term

mutual

/-- The sort of a term over some symbols, where the variables in `bound` are bound from
outside. An application without arguments is written as a name that stands alone. -/
def sort? (sig : List (String × Rank)) (bound : List SortedVar) : Term → Option SortExpr
  | bool _ => some .bool
  | int _ => some .int
  | real _ => some .real
  | const x => constant? sig bound x
  | not t => if sort? sig bound t = some .bool then some .bool else none
  | neg t => (sort? sig bound t).bind fun s => if s.isNumeric then some s else none
  | and ts | or ts =>
    (sorts? sig bound ts).bind fun ss => if ss.all (· = .bool) then some .bool else none
  | distinct ts =>
    (sorts? sig bound ts).bind fun ss => match ss with
      | [] => none
      | s :: rest => if rest.all (· = s) then some .bool else none
  | ite c t e =>
    if sort? sig bound c = some .bool ∧ sort? sig bound t = sort? sig bound e then
      sort? sig bound t
    else none
  | binary op l r => (sort? sig bound l).bind fun s => (sort? sig bound r).bind (op.sort? s)
  | store array index value =>
    match sort? sig bound array, sort? sig bound index, sort? sig bound value with
    | some (.array i e), some i', some e' =>
      if i = i' ∧ e = e' then some (.array i e) else none
    | _, _, _ => none
  | quant _ vars body =>
    if sort? sig (vars ++ bound) body = some .bool then some .bool else none
  | app f args =>
    (sorts? sig bound args).bind fun ss =>
      if ss = [] then constant? sig bound f else applied? sig f ss

def sorts? (sig : List (String × Rank)) (bound : List SortedVar) :
    List Term → Option (List SortExpr)
  | [] => some []
  | t :: ts => (sort? sig bound t).bind fun s => (sorts? sig bound ts).map (s :: ·)

end

mutual

/-- The constants of a term that are free under the names `bound`. -/
def freeConsts (bound : List String) : Term → List String
  | bool _ | int _ | real _ => []
  | const x => if x ∈ bound then [] else [x]
  | not t | neg t => freeConsts bound t
  | and ts | or ts | distinct ts => freeConstsList bound ts
  | ite c t e => freeConsts bound c ++ freeConsts bound t ++ freeConsts bound e
  | binary _ l r => freeConsts bound l ++ freeConsts bound r
  | store array index value =>
    freeConsts bound array ++ freeConsts bound index ++ freeConsts bound value
  | quant _ vars body => freeConsts (vars.map Prod.fst ++ bound) body
  | app _ args => freeConstsList bound args

def freeConstsList (bound : List String) : List Term → List String
  | [] => []
  | t :: ts => freeConsts bound t ++ freeConstsList bound ts

end

variable {sig : List (String × Rank)} {bound : List SortedVar}

theorem sorts?_append {ts us : List Term} {ss rs : List SortExpr}
    (ht : sorts? sig bound ts = some ss) (hu : sorts? sig bound us = some rs) :
    sorts? sig bound (ts ++ us) = some (ss ++ rs) := by
  induction ts generalizing ss with
  | nil =>
      cases ht
      exact hu
  | cons t ts ih =>
      simp only [sorts?, Option.bind_eq_some_iff, Option.map_eq_some_iff] at ht
      obtain ⟨s, hs, rest, hrest, rfl⟩ := ht
      simp [sorts?, hs, ih hrest]

theorem freeConstsList_append (bound : List String) (ts us : List Term) :
    freeConstsList bound (ts ++ us) = freeConstsList bound ts ++ freeConstsList bound us := by
  induction ts with
  | nil => rfl
  | cons t ts ih => simp [freeConstsList, ih]

/-- Induction over terms, with the hypothesis for every item of a list of operands. -/
theorem induct {motive : Term → Prop}
    (bool : ∀ b, motive (.bool b)) (int : ∀ n, motive (.int n)) (real : ∀ x, motive (.real x))
    (const : ∀ x, motive (.const x)) (not : ∀ t, motive t → motive (.not t))
    (neg : ∀ t, motive t → motive (.neg t))
    (and : ∀ ts, (∀ t ∈ ts, motive t) → motive (.and ts))
    (or : ∀ ts, (∀ t ∈ ts, motive t) → motive (.or ts))
    (distinct : ∀ ts, (∀ t ∈ ts, motive t) → motive (.distinct ts))
    (ite : ∀ c t e, motive c → motive t → motive e → motive (.ite c t e))
    (binary : ∀ op l r, motive l → motive r → motive (.binary op l r))
    (store : ∀ a i x, motive a → motive i → motive x → motive (.store a i x))
    (quant : ∀ q vars body, motive body → motive (.quant q vars body))
    (app : ∀ f ts, (∀ t ∈ ts, motive t) → motive (.app f ts)) (t : Term) : motive t :=
  @Term.rec motive (fun ts => ∀ t ∈ ts, motive t) bool int real const not neg and or distinct ite
    binary store quant app (fun _ h => nomatch h)
    (fun _ _ ht hts _ h => (List.mem_cons.1 h).elim (fun h => h ▸ ht) (hts _)) t

theorem mem_freeConstsList {bound : List String} {ts : List Term} {x : String} :
    x ∈ freeConstsList bound ts ↔ ∃ t ∈ ts, x ∈ t.freeConsts bound := by
  induction ts with
  | nil => simp [freeConstsList]
  | cons t ts ih => simp [freeConstsList, ih]

theorem freeConstsList_subset {bound bound' : List String} {ts : List Term} {x : String}
    (h : ∀ t ∈ ts, x ∈ t.freeConsts bound → x ∈ t.freeConsts bound')
    (hx : x ∈ freeConstsList bound ts) : x ∈ freeConstsList bound' ts := by
  obtain ⟨t, ht, hxt⟩ := mem_freeConstsList.1 hx
  exact mem_freeConstsList.2 ⟨t, ht, h t ht hxt⟩

/-- A free constant stays free under all bound names but its own. Bound names are added on the way
down, so the statement is about two lists of them. -/
theorem mem_freeConsts_of_bound {t : Term} {bound bound' : List String} {x : String}
    (hb : x ∉ bound → x ∉ bound') (hx : x ∈ t.freeConsts bound) : x ∈ t.freeConsts bound' := by
  induction t using induct generalizing bound bound' with
  | bool b => cases hx
  | int n => cases hx
  | real y => cases hx
  | const y =>
      rw [freeConsts] at hx ⊢
      split at hx
      · cases hx
      · next hy =>
          rw [List.mem_singleton.1 hx] at hb
          rwa [if_neg (hb hy)]
  | not t ih => exact ih hb hx
  | neg t ih => exact ih hb hx
  | and ts ih => exact freeConstsList_subset (fun t ht => ih t ht hb) hx
  | or ts ih => exact freeConstsList_subset (fun t ht => ih t ht hb) hx
  | distinct ts ih => exact freeConstsList_subset (fun t ht => ih t ht hb) hx
  | app f ts ih => exact freeConstsList_subset (fun t ht => ih t ht hb) hx
  | ite c t e ihc iht ihe =>
      simp only [freeConsts, List.mem_append] at hx ⊢
      exact hx.imp (Or.imp (ihc hb) (iht hb)) (ihe hb)
  | binary op l r ihl ihr =>
      simp only [freeConsts, List.mem_append] at hx ⊢
      exact hx.imp (ihl hb) (ihr hb)
  | store a i v iha ihi ihv =>
      simp only [freeConsts, List.mem_append] at hx ⊢
      exact hx.imp (Or.imp (iha hb) (ihi hb)) (ihv hb)
  | quant q vars body ih =>
      refine ih (fun h => ?_) hx
      simp only [List.mem_append, not_or] at h ⊢
      exact ⟨h.1, hb h.2⟩

end Term

/-- The variables with the given names are declared at the sorts of their types. -/
def Declares (sig : List (String × Rank)) (vs : List Variable) (names : List String) : Prop :=
  ∀ v ∈ vs, v.name ∈ names → applied? sig v.name [] = some v.ty.sort

theorem Declares.mono {sig : List (String × Rank)} {vs : List Variable} {names names' : List String}
    (h : Declares sig vs names') (hn : names ⊆ names') : Declares sig vs names :=
  fun v hv hx => h v hv (hn hx)

end Smt

open Smt

@[simp] theorem ScalarTy.sort_toTy (s : ScalarTy) : s.toTy.sort = s.sort := by cases s <;> rfl

/-- The rank of a predicate: its parameters, then the lengths of its arrays. -/
def Predicate.rank (q : Predicate) : Rank :=
  ⟨q.parameters.map (·.ty.sort) ++ (q.parameters.filterMap Variable.length?).map fun _ => .int,
    .bool⟩

/-- A predicate is defined with its rank. -/
theorem Predicate.symbol?_definition (q : Predicate) :
    q.definition.symbol? = some (q.name, q.rank) := by
  rw [definition, Command.symbol?, rank, List.map_append, List.map_map, List.map_map]
  rfl

/-! ## Operators

The encoder chooses the operator by the type of the left operand. This is where integer and real
arithmetic are told apart. -/

namespace BinOp

/-- Operands of a type that the operator applies to give a term of the sort of its result. -/
theorem sort?_encode {sig : List (String × Rank)} {bound : List SortedVar} {op : BinOp} {u : Ty}
    (h : op.appliesTo u) {l r : Term} (hl : l.sort? sig bound = some u.sort)
    (hr : r.sort? sig bound = some u.sort) :
    (op.encode u l r).sort? sig bound = some (op.result u).sort := by
  cases op <;> cases u <;> cases h <;>
    simp [encode, result, isArithmetic, Term.sort?, Term.sorts?, hl, hr, Op.sort?, Ty.sort,
      SortExpr.isNumeric]

theorem freeConsts_encode (op : BinOp) (u : Ty) (l r : Term) (bound : List String) :
    (op.encode u l r).freeConsts bound = l.freeConsts bound ++ r.freeConsts bound := by
  cases op <;> simp [encode, Term.freeConsts, Term.freeConstsList]

end BinOp

namespace Expr

/-! ## The free constants are collected

One inclusion between two walks. The encoder and the collector of free variables treat bound names
alike except for the lengths of arrays, which are collected as if they stood outside of all
quantifiers. -/

theorem mem_freeConstsList_encodeList {bound : List String} {es : List Expr} {x : String} :
    x ∈ Term.freeConstsList bound (encodeList es) ↔ ∃ e ∈ es, x ∈ e.encode.freeConsts bound := by
  induction es with
  | nil => simp [encodeList, Term.freeConstsList]
  | cons e es ih => simp [encodeList, Term.freeConstsList, ih]

theorem mem_freeConstsList_encodeLengths {bound : List String} {es : List Expr} {x : String} :
    x ∈ Term.freeConstsList bound (encodeLengths es) ↔
      ∃ e ∈ es, e.ty.isArray ∧ x ∈ Term.freeConstsList bound e.encodeLength := by
  induction es with
  | nil => simp [encodeLengths, Term.freeConstsList]
  | cons e es ih =>
      rw [encodeLengths, Term.freeConstsList_append, List.mem_append, ih, List.exists_mem_cons_iff]
      split
      · next ha => simp [ha]
      · next ha => simp [ha, Term.freeConstsList]

/-- The free constants of the encoded expression are collected, and so are those of its encoded
length as a part of the length. -/
theorem collects_of_freeConsts (e : Expr) :
    (∀ {bound : List String} {x}, x ∈ e.encode.freeConsts bound → e.Collects bound x) ∧
    ∀ {bound : List String} {x}, x ∈ Term.freeConstsList bound e.encodeLength →
      ∃ n, e.arrayLength? = some n ∧ n.Collects [] x := by
  induction e using childInduct with
  | step e ih =>
      have hchild : e.plain → ∀ {c : Expr} {bound : List String} {x : String}, c ∈ e.children →
          x ∈ c.encode.freeConsts bound → e.Collects bound x := by
        intro he c bound x hc hx
        exact (collects_plain he).2 (Or.inr ⟨c, hc, (ih c hc).1 hx⟩)
      constructor
      · intro bound x hx
        cases e with
        | var v =>
            rw [encode, Term.freeConsts] at hx
            split at hx
            · cases hx
            · next hv =>
                rw [List.mem_singleton] at hx
                exact Or.inl ⟨by simp [hx], hx ▸ hv⟩
        | int n => cases hx
        | float y => cases hx
        | bool b => cases hx
        | unary op e =>
            have harg : x ∈ e.encode.freeConsts bound := by cases op <;> exact hx
            exact hchild rfl (by simp [children]) harg
        | binary op l r =>
            rw [encode, BinOp.freeConsts_encode, List.mem_append] at hx
            rcases hx with hx | hx <;> exact hchild rfl (by simp [children]) hx
        | quant q v body => exact collects_quant.2 ((ih body (by simp [children])).1 hx)
        | read a i =>
            rw [encode, Term.freeConsts, List.mem_append] at hx
            rcases hx with hx | hx <;> exact hchild rfl (by simp [children]) hx
        | update a i y n =>
            rw [encode, Term.freeConsts, List.mem_append, List.mem_append] at hx
            rcases hx with (hx | hx) | hx <;> exact hchild rfl (by simp [children]) hx
        | call f args t =>
            rw [encode, Term.freeConsts] at hx
            obtain ⟨c, hc, hx⟩ := mem_freeConstsList_encodeList.1 hx
            exact hchild rfl hc hx
        | app p args =>
            rw [encode, Term.freeConsts, Term.freeConstsList_append, List.mem_append] at hx
            rcases hx with hx | hx
            · obtain ⟨c, hc, hx⟩ := mem_freeConstsList_encodeList.1 hx
              exact hchild rfl hc hx
            · obtain ⟨c, hc, ha, hx⟩ := mem_freeConstsList_encodeLengths.1 hx
              rcases collects_argument.1 (Or.inr ⟨ha, (ih c hc).2 hx⟩) with hx | hx
              · exact (collects_plain rfl).2 (Or.inl (List.mem_flatMap.2 ⟨c, hc, hx⟩))
              · exact (collects_plain rfl).2 (Or.inr ⟨c, hc, hx⟩)
      · intro bound x hx
        cases e with
        | var v =>
            rw [encodeLength] at hx
            cases hl : v.length? with
            | none => simp [hl, Term.freeConstsList] at hx
            | some l =>
                rw [hl] at hx
                simp only [Option.map_some, Option.toList_some, Term.freeConstsList,
                  Term.freeConsts, List.append_nil] at hx
                split at hx
                · cases hx
                · exact ⟨var l, by simp [arrayLength?, hl], Or.inl ⟨by simpa using hx, by simp⟩⟩
        | update a i y n =>
            rw [encodeLength, Term.freeConstsList, Term.freeConstsList, List.append_nil] at hx
            -- the length of an update is a part of it, and is collected as if nothing were bound
            exact ⟨n, rfl, ((ih n (by simp [children])).1 hx).anti (List.nil_subset bound)⟩
        | _ => cases hx

/-- The free constants of the encoded expression are among the free variables, and those of
its encoded length among the free variables of the length. -/
theorem isSome_collectFree (e : Expr) :
    (∀ {bound bound' : List String}, bound ⊆ bound' → ∀ {x}, x ∈ e.encode.freeConsts bound' →
      ∀ out, ((collectFree bound out e).find? x).isSome) ∧
    ∀ {bound : List String} {x}, x ∈ Term.freeConstsList bound e.encodeLength →
      ((collectLength e).find? x).isSome := by
  obtain ⟨hfree, hlength⟩ := collects_of_freeConsts e
  obtain ⟨hadds, haddsLength⟩ := adds_collectFree e
  constructor
  · intro bound bound' hb x hx out
    exact (hadds bound out x).2 (Or.inr ((hfree hx).anti hb))
  · intro bound x hx
    exact (haddsLength x).2 (Or.inr (hlength hx))

/-- A free constant of the encoded expression is a free variable at the type of its name. The
table has one type for a name, which is the only one if names are uniform. -/
theorem find?_freeVariables {e : Expr} (hu : Uniform e.mentions) {v : Variable}
    (hv : v ∈ e.mentions) (hx : v.name ∈ e.encode.freeConsts []) :
    e.freeVariables.find? v.name = some v.ty := by
  obtain ⟨t, ht⟩ := Option.isSome_iff_exists.1
    ((isSome_collectFree e).1 (List.Subset.refl []) hx .empty)
  obtain ⟨u, hmem, hname, rfl⟩ := exists_of_freeVariables ht
  rw [hu.ty v hv u hmem hname.symm]
  exact ht

end Expr

/-! ## The sort of an encoded expression

The induction over the expression, with one lemma for each constructor. It is about any table of
symbols that has what is needed. -/

theorem SortedMap.lookup_map_int (x : String) (bound : List String) :
    lookup x (bound.map fun y => (y, SortExpr.int)) = if x ∈ bound then some .int else none := by
  induction bound with
  | nil => rfl
  | cons y bound ih =>
      rw [List.map_cons, lookup, ih]
      by_cases hx : x = y <;> simp [hx]

/-- Some symbols have the ranks that the variables `vs`, the function symbols `fs` and the
predicates of a program need, and the names of all these are apart. -/
structure Program.Ranked (p : Program) (sig : List (String × Rank)) (vs : List Variable)
    (fs : List (String × Expr.SymbolTypes)) : Prop where
  /-- A name has one type, and arrays have lengths. -/
  uniform : Uniform vs
  /-- Function symbols have the rank of their signature. -/
  functions : ∀ a ∈ fs, SortedMap.lookup a.1 sig = some ⟨a.2.1.map Ty.sort, a.2.2.sort⟩
  /-- So have predicates. -/
  predicates : ∀ q ∈ p.predicates, SortedMap.lookup q.name sig = some q.rank
  /-- The arrays among the parameters of predicates have lengths. -/
  kinds : ∀ q ∈ p.predicates, ∀ v ∈ q.parameters, v.isArray = v.ty.isArray
  /-- No variable is named like a function symbol. -/
  apart : ∀ v ∈ vs, ∀ a ∈ fs, v.name ≠ a.1
  /-- No variable is named like a predicate. -/
  apart' : ∀ v ∈ vs, ∀ q ∈ p.predicates, v.name ≠ q.name

namespace Expr

variable {p : Program} {sig : List (String × Rank)} {vs : List Variable}
  {fs : List (String × SymbolTypes)} {bound : List String}

theorem sorts?_encodeList {bound : List SortedVar} {es : List Expr} {ts : List Ty}
    (h : List.Forall₂ (fun t e => e.encode.sort? sig bound = some t.sort) ts es) :
    Term.sorts? sig bound (encodeList es) = some (ts.map Ty.sort) := by
  induction h with
  | nil => rfl
  | cons he _ ih => simp [encodeList, Term.sorts?, he, ih]

/-- A predicate has a parameter for each length that is passed to it. The encoder decides by the
types of the arguments, the definition by the kinds of the parameters. -/
theorem sorts?_encodeLengths {bound : List SortedVar} {params : List Variable} {es : List Expr}
    (hk : ∀ v ∈ params, v.isArray = v.ty.isArray)
    (h : List.Forall₂ (fun v e => e.ty = v.ty ∧
      (e.ty.isArray → Term.sorts? sig bound e.encodeLength = some [.int])) params es) :
    Term.sorts? sig bound (encodeLengths es) =
      some ((params.filterMap Variable.length?).map fun _ => .int) := by
  induction h with
  | nil => rfl
  | @cons v e params es hve _ ih =>
      obtain ⟨hv, hrest⟩ := List.forall_mem_cons.1 hk
      obtain ⟨hty, hlength⟩ := hve
      rw [encodeLengths]
      cases hl : v.length? with
      | none =>
          have ha : e.ty.isArray = false := by
            rw [hty, ← hv, Variable.isArray_iff_length?, hl]
            rfl
          rw [ha, List.filterMap_cons_none hl]
          exact ih hrest
      | some l =>
          have ha : e.ty.isArray = true := by
            rw [hty, ← hv, Variable.isArray_iff_length?, hl]
            rfl
          rw [if_pos ha, List.filterMap_cons_some hl]
          exact Term.sorts?_append (hlength ha) (ih hrest)

/-- An application whose symbol is not bound goes by the rank of the symbol. Without arguments it
is a name that stands alone, which a bound variable could hide. -/
theorem sort?_app {f : String} {args : List Term} {rank : Rank} (hf : f ∉ bound)
    (hr : SortedMap.lookup f sig = some rank)
    (ha : Term.sorts? sig (bound.map fun y => (y, .int)) args = some rank.params) :
    (Term.app f args).sort? sig (bound.map fun y => (y, .int)) = some rank.result := by
  rw [Term.sort?, ha, Option.bind_some]
  split
  · next hnil => simp [constant?, SortedMap.lookup_map_int, hf, applied?, hr, hnil]
  · simp [applied?, hr]

/-- A variable is bound to an integer or declared. A bound name has the type of its variable,
because a name has one type. -/
theorem sort?_const (hr : p.Ranked sig vs fs) (hb : ∀ x ∈ bound, ∃ v ∈ vs, v.name = x ∧ v.ty = .int)
    {v : Variable} (hv : v ∈ vs) (hd : Declares sig vs ((Term.const v.name).freeConsts bound)) :
    (Term.const v.name).sort? sig (bound.map fun y => (y, .int)) = some v.ty.sort := by
  rw [Term.sort?, constant?, SortedMap.lookup_map_int]
  by_cases hvb : v.name ∈ bound
  · obtain ⟨u, hu, hn, ht⟩ := hb v.name hvb
    rw [if_pos hvb, hr.uniform.ty v hv u hu hn.symm, ht]
    rfl
  · rw [if_neg hvb]
    exact hd v hv (by simp [Term.freeConsts, hvb])

/-- An expression over some variables and function symbols. -/
structure Within (vs : List Variable) (fs : List (String × SymbolTypes)) (e : Expr) : Prop where
  /-- Its variables, bound ones and lengths included. -/
  mentions : e.mentions ⊆ vs
  /-- Its function symbols with the types of their uses. -/
  symbols : e.symbols ⊆ fs

theorem Within.child {c e : Expr} (h : e.Within vs fs) (hc : c ∈ e.children) : c.Within vs fs where
  mentions _ hv := h.mentions (mentions_subset_of_child hc hv)
  symbols _ ha := h.symbols (symbols_subset_of_child hc ha)

/-! ### One constructor at a time

`Expr.SortedAs` is what the induction is about, and the lemmas below are its cases. It is about
the length of an array as well, which is passed to predicates although it is no operand, and
about terms under binders. Every bound variable is an integer. -/

/-- If its free constants are declared at the types of their variables, an encoded expression
has the sort of a type, and an encoded length is one integer. -/
structure SortedAs (sig : List (String × Rank)) (vs : List Variable) (bound : List String)
    (e : Expr) (t : Ty) : Prop where
  value : Declares sig vs (e.encode.freeConsts bound) →
    e.encode.sort? sig (bound.map fun y => (y, .int)) = some t.sort
  length : t.isArray → Declares sig vs (Term.freeConstsList bound e.encodeLength) →
    Term.sorts? sig (bound.map fun y => (y, .int)) e.encodeLength = some [.int]

namespace SortedAs

variable {t u : Ty}

theorem of_scalar {e : Expr} (ht : t.isArray = false)
    (h : Declares sig vs (e.encode.freeConsts bound) →
      e.encode.sort? sig (bound.map fun y => (y, .int)) = some t.sort) :
    SortedAs sig vs bound e t := by
  refine ⟨h, fun ha => ?_⟩
  rw [ht] at ha
  cases ha

/-- A variable is of its own type. Its length, if it is an array, is a variable as well. -/
theorem var (hr : p.Ranked sig vs fs) (hb : ∀ x ∈ bound, ∃ v ∈ vs, v.name = x ∧ v.ty = .int)
    {v : Variable} (hmem : ∀ w ∈ v.withLength, w ∈ vs) :
    SortedAs sig vs bound (.var v) v.ty := by
  have hv := hmem v v.self_mem_withLength
  refine ⟨sort?_const hr hb hv, fun ha hd => ?_⟩
  -- an array variable has a length because its kind says so
  rw [← hr.uniform.kinds v hv, Variable.isArray_iff_length?] at ha
  obtain ⟨l, hl⟩ := Option.isSome_iff_exists.1 ha
  rw [encodeLength, hl] at hd ⊢
  have hsort := sort?_const hr hb (hmem l (by simp [hl]))
    (hd.mono (by simp [Term.freeConstsList]))
  rw [Variable.ty_of_length? hl] at hsort
  simp [Term.sorts?, hsort, Ty.sort]

theorem unary {op : UnOp} {e : Expr} (he : SortedAs sig vs bound e u)
    (hres : op.result? u = some t) : SortedAs sig vs bound (.unary op e) t := by
  refine .of_scalar (UnOp.isArray_of_result? hres) fun hd => ?_
  cases op with
  | neg =>
      cases u <;> cases hres <;>
        simp [encode, Term.sort?, he.value hd, Ty.sort, SortExpr.isNumeric]
  | not =>
      cases u <;> cases hres
      simp [encode, Term.sort?, he.value hd, Ty.sort]

theorem binary {op : BinOp} {l r : Expr} (hl : SortedAs sig vs bound l u)
    (hr : SortedAs sig vs bound r u) (hty : l.ty = u) (ha : op.appliesTo u) :
    SortedAs sig vs bound (.binary op l r) (op.result u) := by
  refine .of_scalar (BinOp.isArray_result ha) fun hd => ?_
  rw [encode, BinOp.freeConsts_encode] at hd
  rw [encode, hty]
  exact BinOp.sort?_encode ha (hl.value (hd.mono (by simp))) (hr.value (hd.mono (by simp)))

/-- The body is a term with one more bound name. -/
theorem quant {q : Quantifier} {v : Variable} {body : Expr}
    (hbody : SortedAs sig vs (v.name :: bound) body .bool) :
    SortedAs sig vs bound (.quant q v body) .bool := by
  refine .of_scalar rfl fun hd => ?_
  rw [encode, Term.sort?]
  exact if_pos (hbody.value hd)

theorem read {a i : Expr} {elem : ScalarTy} (ha : SortedAs sig vs bound a (.array elem))
    (hi : SortedAs sig vs bound i .int) : SortedAs sig vs bound (.read a i) elem.toTy := by
  refine .of_scalar (Ty.isArray_toTy elem) fun hd => ?_
  rw [encode, Term.freeConsts] at hd
  rw [encode, Term.sort?, ha.value (hd.mono (by simp)), hi.value (hd.mono (by simp)),
    ScalarTy.sort_toTy]
  rfl

theorem update {a i x n : Expr} {elem : ScalarTy} (ha : SortedAs sig vs bound a (.array elem))
    (hi : SortedAs sig vs bound i .int) (hx : SortedAs sig vs bound x elem.toTy)
    (hn : SortedAs sig vs bound n .int) :
    SortedAs sig vs bound (.update a i x n) (.array elem) := by
  refine ⟨fun hd => ?_, fun _ hd => ?_⟩
  · rw [encode, Term.freeConsts] at hd
    have hsx := hx.value (hd.mono (by simp))
    rw [ScalarTy.sort_toTy] at hsx
    rw [encode, Term.sort?, ha.value (hd.mono (by simp)), hi.value (hd.mono (by simp)), hsx]
    exact if_pos ⟨rfl, rfl⟩
  · rw [encodeLength] at hd ⊢
    have hsn := hn.value (hd.mono (by simp [Term.freeConstsList]))
    simp [Term.sorts?, hsn, Ty.sort]

/-- A function symbol is not bound, since no variable has its name. -/
theorem call (hr : p.Ranked sig vs fs) (hb : ∀ x ∈ bound, ∃ v ∈ vs, v.name = x ∧ v.ty = .int)
    {f : String} {args : List Expr} (hu : u.isArray = false)
    (hmem : (f, args.map Expr.ty, u) ∈ fs) (hargs : ∀ a ∈ args, SortedAs sig vs bound a a.ty) :
    SortedAs sig vs bound (.call f args u) u := by
  refine .of_scalar hu fun hd => ?_
  -- a bound name is that of a variable, and the function symbol is not named like one
  have hf : f ∉ bound := by
    intro hfb
    obtain ⟨v, hv, hn, -⟩ := hb f hfb
    exact hr.apart v hv _ hmem hn
  rw [encode] at hd ⊢
  refine sort?_app hf (hr.functions _ hmem) (sorts?_encodeList ?_)
  rw [List.forall₂_map_left_iff, List.forall₂_same]
  intro a ha
  refine (hargs a ha).value (hd.mono fun x hx => ?_)
  exact mem_freeConstsList_encodeList.2 ⟨a, ha, hx⟩

/-- A predicate is given the arguments first and then the lengths of the arrays among them, in
the order of its parameters. -/
theorem app (hr : p.Ranked sig vs fs) (hb : ∀ x ∈ bound, ∃ v ∈ vs, v.name = x ∧ v.ty = .int)
    {name : String} {args : List Expr} {q : Predicate} (hq : p.predicate? name = some q)
    (hargs : List.Forall₂ (fun v a => a.ty = v.ty ∧ SortedAs sig vs bound a v.ty)
      q.parameters args) : SortedAs sig vs bound (.app name args) .bool := by
  refine .of_scalar rfl fun hd => ?_
  obtain ⟨hmem, hname⟩ := Program.mem_of_predicate? hq
  -- predicates and variables have different names, so no quantifier captures the symbol
  have hf : q.name ∉ bound := by
    intro hfb
    obtain ⟨v, hv, hn, -⟩ := hb q.name hfb
    exact hr.apart' v hv q hmem hn
  rw [encode, Term.freeConsts, Term.freeConstsList_append] at hd
  rw [encode, ← hname]
  refine sort?_app hf (hr.predicates q hmem) (Term.sorts?_append ?_ ?_)
  · have hparams : List.Forall₂ (fun t a => a.encode.sort? sig
        (bound.map fun y => (y, .int)) = some t.sort) (q.parameters.map Variable.ty) args := by
      rw [List.forall₂_map_left_iff, List.forall₂_iff_zip]
      refine ⟨hargs.length_eq, fun {v a} hva => ?_⟩
      refine (List.forall₂_zip hargs hva).2.value (hd.mono fun x hx => ?_)
      exact List.mem_append_left _
        (mem_freeConstsList_encodeList.2 ⟨a, (List.of_mem_zip hva).2, hx⟩)
    have hsorts := sorts?_encodeList hparams
    rwa [List.map_map] at hsorts
  · refine sorts?_encodeLengths (hr.kinds q hmem) ?_
    rw [List.forall₂_iff_zip]
    refine ⟨hargs.length_eq, fun {v a} hva => ?_⟩
    obtain ⟨hty, ha⟩ := List.forall₂_zip hargs hva
    refine ⟨hty, fun harr => ha.length (hty ▸ harr) (hd.mono fun x hx => ?_)⟩
    exact List.mem_append_right _
      (mem_freeConstsList_encodeLengths.2 ⟨a, (List.of_mem_zip hva).2, harr, hx⟩)

end SortedAs

/-- A typed expression is encoded as a term of the sort of its type. The names bound around it are
those of integer variables, which is what the check of quantifiers makes sure of. -/
theorem sortedAs_of_check (hr : p.Ranked sig vs fs) {e : Expr} {t : Ty} (hc : p.check e = .ok t)
    (he : e.Within vs fs) (hb : ∀ x ∈ bound, ∃ v ∈ vs, v.name = x ∧ v.ty = .int) :
    SortedAs sig vs bound e t := by
  induction e generalizing bound t with
  | var v =>
      cases Except.ok.inj hc
      exact .var hr hb fun w hw => he.mentions (by rwa [mentions_var])
  | int n =>
      cases Except.ok.inj hc
      exact .of_scalar rfl fun _ => rfl
  | float x =>
      cases Except.ok.inj hc
      exact .of_scalar rfl fun _ => rfl
  | bool b =>
      cases Except.ok.inj hc
      exact .of_scalar rfl fun _ => rfl
  | unary op e ih =>
      obtain ⟨u, hu, hres⟩ := Program.check_unary_iff.1 hc
      exact (ih hu (he.child (by simp [children])) hb).unary hres
  | binary op l r ihl ihr =>
      obtain ⟨u, hl, hr', ha, rfl⟩ := Program.check_binary_iff.1 hc
      exact (ihl hl (he.child (by simp [children])) hb).binary
        (ihr hr' (he.child (by simp [children])) hb) (Program.ty_of_check hl) ha
  | quant q v body ih =>
      obtain ⟨-, hvt, hbody, rfl⟩ := Program.check_quant_iff.1 hc
      have hv : v ∈ vs := he.mentions (by
        rw [mentions_eq]
        exact List.mem_append_left _ v.self_mem_withLength)
      -- the name of the quantifier joins the bound ones, and is the name of an integer too
      have hb' : ∀ x ∈ v.name :: bound, ∃ u ∈ vs, u.name = x ∧ u.ty = .int :=
        List.forall_mem_cons.2 ⟨⟨v, hv, rfl, hvt⟩, hb⟩
      exact .quant (ih hbody (he.child (by simp [children])) hb')
  | read a i iha ihi =>
      obtain ⟨elem, ha, rfl, hi⟩ := Program.check_read_iff.1 hc
      exact (iha ha (he.child (by simp [children])) hb).read
        (ihi hi (he.child (by simp [children])) hb)
  | update a i x n iha ihi ihx ihn =>
      obtain ⟨elem, ha, hi, hn, hx, rfl⟩ := Program.check_update_iff.1 hc
      exact (iha ha (he.child (by simp [children])) hb).update
        (ihi hi (he.child (by simp [children])) hb) (ihx hx (he.child (by simp [children])) hb)
        (ihn hn (he.child (by simp [children])) hb)
  | call f args u ih =>
      obtain ⟨hargs, rfl, harr⟩ := Program.check_call_iff.1 hc
      refine .call hr hb harr (he.symbols ?_) fun a ha => ?_
      · rw [symbols_eq]
        exact List.mem_append_left _ (by simp [rootSymbol?])
      · obtain ⟨w, hw⟩ := hargs a ha
        rw [Program.ty_of_check hw]
        exact ih a ha hw (he.child ha) hb
  | app name args ih =>
      obtain ⟨rfl, q, hq, hargs⟩ := Program.check_app_iff.1 hc
      refine .app hr hb hq (List.forall₂_iff_zip.2 ⟨hargs.length_eq, ?_⟩)
      intro v a hva
      have ha : a ∈ args := (List.of_mem_zip hva).2
      have hca := List.forall₂_zip hargs hva
      exact ⟨Program.ty_of_check hca, ih a ha hca (he.child ha) hb⟩

end Expr

/-! ## Declarations

The table of a script has it. Tables are lists of pairs, and a lookup finds the entry that was
made because no name is entered twice. -/

/-- The names of an expression, and of the predicates of a program, are in order. A script has one
table for names of all kinds, so the kinds must not overlap. -/
structure Program.WellNamed (p : Program) (e : Expr) : Prop where
  /-- A name has one type, and arrays have lengths. -/
  uniform : Uniform e.mentions
  /-- The arrays among the parameters of predicates have lengths. -/
  kinds : ∀ q ∈ p.predicates, ∀ v ∈ q.parameters, v.isArray = v.ty.isArray
  /-- A function symbol has one signature. -/
  signatures : ∀ a ∈ e.symbols, ∀ b ∈ e.symbols, a.1 = b.1 → a = b
  /-- No variable is named like a function symbol. -/
  functions : ∀ v ∈ e.mentions, ∀ a ∈ e.symbols, v.name ≠ a.1
  /-- No variable is named like a predicate. -/
  predicates : ∀ v ∈ e.mentions, ∀ q ∈ p.predicates, v.name ≠ q.name
  /-- No function symbol is named like a predicate. -/
  symbols : ∀ a ∈ e.symbols, ∀ q ∈ p.predicates, a.1 ≠ q.name

instance (p : Program) (e : Expr) : Decidable (p.WellNamed e) :=
  decidable_of_iff
    (Uniform e.mentions ∧ (∀ q ∈ p.predicates, ∀ v ∈ q.parameters, v.isArray = v.ty.isArray) ∧
      (∀ a ∈ e.symbols, ∀ b ∈ e.symbols, a.1 = b.1 → a = b) ∧
      (∀ v ∈ e.mentions, ∀ a ∈ e.symbols, v.name ≠ a.1) ∧
      (∀ v ∈ e.mentions, ∀ q ∈ p.predicates, v.name ≠ q.name) ∧
      ∀ a ∈ e.symbols, ∀ q ∈ p.predicates, a.1 ≠ q.name)
    ⟨fun ⟨h₁, h₂, h₃, h₄, h₅, h₆⟩ => ⟨h₁, h₂, h₃, h₄, h₅, h₆⟩,
      fun ⟨h₁, h₂, h₃, h₄, h₅, h₆⟩ => ⟨h₁, h₂, h₃, h₄, h₅, h₆⟩⟩

/-- The symbols that the declarations for an expression and the definitions of all predicates
introduce. -/
def Program.symbols (p : Program) (e : Expr) : List (String × Rank) :=
  Script.symbols (e.declarations ++ p.predicates.map Predicate.definition)

namespace Program

variable {p : Program} {e : Expr}

theorem symbols_of_map {α : Type} {g : α → Command} {h : α → String × Rank}
    (hg : ∀ a, (g a).symbol? = some (h a)) (l : List α) : Script.symbols (l.map g) = l.map h := by
  have heq : Command.symbol? ∘ g = some ∘ h := funext hg
  rw [Script.symbols, List.filterMap_map, heq, List.filterMap_eq_map]

/-- The table has three parts, one for each kind of name. -/
theorem symbols_eq (p : Program) (e : Expr) :
    p.symbols e = (e.freeVariables.entries.map fun a => (a.1, ⟨[], a.2.sort⟩)) ++
      (e.functionSymbols.entries.map fun a => (a.1, ⟨a.2.1.map Ty.sort, a.2.2.sort⟩)) ++
      p.predicates.map fun q => (q.name, q.rank) := by
  unfold symbols Script.symbols Expr.declarations
  rw [List.filterMap_append, List.filterMap_append]
  congr 1
  · congr 1
    · exact symbols_of_map (fun _ => rfl) _
    · exact symbols_of_map (fun _ => rfl) _
  · exact symbols_of_map Predicate.symbol?_definition _

/-- No symbol is declared twice. Each part of the table has no repetitions, and no name is in two
parts. -/
theorem nodup_symbols (hv : p.validate = .ok ()) (hn : p.WellNamed e) :
    ((p.symbols e).map Prod.fst).Nodup := by
  have hvars := e.sorted_freeVariables
  have hsyms := e.sorted_functionSymbols
  have hpreds := nodup_predicates hv
  -- the keys of the tables are names of variables and of function symbols
  have hvar : ∀ x ∈ e.freeVariables.entries.map Prod.fst, ∃ v ∈ e.mentions, v.name = x := by
    intro x hx
    obtain ⟨a, ha, rfl⟩ := List.mem_map.1 hx
    obtain ⟨v, hv, hvx, -⟩ := Expr.exists_of_freeVariables (hvars.mem_entries_iff.1 ha)
    exact ⟨v, hv, hvx⟩
  have hsym : ∀ x ∈ e.functionSymbols.entries.map Prod.fst, ∃ a ∈ e.symbols, a.1 = x := by
    intro x hx
    obtain ⟨a, ha, rfl⟩ := List.mem_map.1 hx
    exact ⟨_, Expr.mem_symbols_of_functionSymbols (hsyms.mem_entries_iff.1 ha), rfl⟩
  rw [symbols_eq, List.map_append, List.map_append, List.map_map, List.map_map, List.map_map]
  refine List.nodup_append.2 ⟨List.nodup_append.2 ⟨hvars.nodup_keys, hsyms.nodup_keys, ?_⟩,
    hpreds, ?_⟩
  · intro x hx y hy
    obtain ⟨v, hv, rfl⟩ := hvar x hx
    obtain ⟨a, ha, rfl⟩ := hsym y hy
    exact hn.functions v hv a ha
  · intro x hx y hy
    obtain ⟨q, hq, rfl⟩ := List.mem_map.1 hy
    rcases List.mem_append.1 hx with hx | hx
    · obtain ⟨v, hv, rfl⟩ := hvar x hx
      exact hn.predicates v hv q hq
    · obtain ⟨a, ha, rfl⟩ := hsym x hx
      exact hn.symbols a ha q hq

/-- The declarations of an expression and the definitions of the predicates are what the
expression needs. -/
theorem ranked (hv : p.validate = .ok ()) (hn : p.WellNamed e) :
    p.Ranked (p.symbols e) e.mentions e.symbols where
  uniform := hn.uniform
  functions a ha := by
    refine SortedMap.lookup_of_mem (nodup_symbols hv hn) ?_
    have hmem := e.sorted_functionSymbols.mem_entries_iff.2
      (Expr.find?_functionSymbols hn.signatures ha)
    rw [symbols_eq]
    exact List.mem_append_left _ (List.mem_append_right _ (List.mem_map.2 ⟨a, hmem, rfl⟩))
  predicates q hq := by
    refine SortedMap.lookup_of_mem (nodup_symbols hv hn) ?_
    rw [symbols_eq]
    exact List.mem_append_right _ (List.mem_map.2 ⟨q, hq, rfl⟩)
  kinds := hn.kinds
  apart := hn.functions
  apart' := hn.predicates

/-- The free constants of the term are in the first part of the table, at the types of their
variables. -/
theorem declares (hv : p.validate = .ok ()) (hn : p.WellNamed e) :
    Declares (p.symbols e) e.mentions (e.encode.freeConsts []) := by
  intro v hvm hx
  have hmem := e.sorted_freeVariables.mem_entries_iff.2 (Expr.find?_freeVariables hn.uniform hvm hx)
  have hlookup : SortedMap.lookup v.name (p.symbols e) = some ⟨[], v.ty.sort⟩ := by
    refine SortedMap.lookup_of_mem (nodup_symbols hv hn) ?_
    rw [symbols_eq]
    exact List.mem_append_left _ (List.mem_append_left _ (List.mem_map.2 ⟨_, hmem, rfl⟩))
  rw [applied?, hlookup]
  exact if_pos rfl

end Program

/-- The encoding of an expression that has a type is a term of the sort of this type over the
symbols that its declarations and the definitions of the predicates introduce. Its free
constants are declared by its own declarations, and no symbol is declared twice. -/
theorem encoding_well_sorted {p : Program} {e : Expr} {t : Ty} (hv : p.validate = .ok ())
    (hc : p.check e = .ok t) (hn : p.WellNamed e) :
    e.encode.sort? (p.symbols e) [] = some t.sort ∧
      (∀ x ∈ e.encode.freeConsts [], ∃ s, .declareConst x s ∈ e.declarations) ∧
      ((p.symbols e).map Prod.fst).Nodup := by
  refine ⟨?_, fun x hx => ?_, Program.nodup_symbols hv hn⟩
  · exact (Expr.sortedAs_of_check (Program.ranked hv hn) hc ⟨fun _ h => h, fun _ h => h⟩
      (List.forall_mem_nil _)).value (Program.declares hv hn)
  · obtain ⟨s, hs⟩ := Option.isSome_iff_exists.1
      ((Expr.isSome_collectFree e).1 (List.Subset.refl []) hx .empty)
    have hmem := e.sorted_freeVariables.mem_entries_iff.2 hs
    exact ⟨s.sort, List.mem_append_left _ (List.mem_map.2 ⟨_, hmem, rfl⟩)⟩

namespace Bounds

open Sample (a c m length)

def xs : Variable := .array "xs" .int
def ys : Variable := .array "ys" .int
def b : Variable := .scalar "b" .int
def i : Variable := .quantified "i"

/-- The elements of `xs` exceed those of `ys` by at most `b`. -/
def close : Predicate := ⟨"close", 0, [xs, b, ys],
  .quant .all i (.implies
    (.and (.binary .le (.int 0) (.var i))
      (.and (.binary .lt (.var i) (.var (length xs))) (.binary .lt (.var i) (.var (length ys)))))
    (.binary .le (.read (.var xs) (.var i)) (.binary .add (.read (.var ys) (.var i)) (.var b))))⟩

def program : Program where
  types := .ofList [.predicate [.array .int, .int, .array .int]]
  functions := []
  predicates := [close]

/-- The formula `close(a{m <- f(m)}, 2, c) && a[m] <= f(m)`. -/
def formula : Expr :=
  .and
    (.app "close"
      [.update (.var a) (.var m) (.call "f" [.var m] .int) (.var (length a)), .int 2, .var c])
    (.binary .le (.read (.var a) (.var m)) (.call "f" [.var m] .int))

end Bounds

/-- The predicate is given three arguments and the two lengths of the arrays among them. -/
theorem encoding_well_sorted_close :
    Bounds.program.validate = .ok () ∧ Bounds.program.check Bounds.formula = .ok .bool ∧
      Bounds.program.WellNamed Bounds.formula ∧
      SortedMap.lookup "close" (Bounds.program.symbols Bounds.formula) =
        some ⟨[.array .int .int, .int, .array .int .int, .int, .int], .bool⟩ ∧
      Bounds.formula.encode.sort? (Bounds.program.symbols Bounds.formula) [] = some .bool ∧
      "a$length" ∈ Bounds.formula.encode.freeConsts [] ∧
      (∃ s, .declareConst "a$length" s ∈ Bounds.formula.declarations) ∧
      ((Bounds.program.symbols Bounds.formula).map Prod.fst).Nodup := by
  have hv : Bounds.program.validate = .ok () := rfl
  have hc : Bounds.program.check Bounds.formula = .ok .bool := rfl
  have hn : Bounds.program.WellNamed Bounds.formula := by decide +kernel
  have hx : "a$length" ∈ Bounds.formula.encode.freeConsts [] := by decide +kernel
  obtain ⟨hsort, hconsts, hnodup⟩ := encoding_well_sorted hv hc hn
  exact ⟨hv, hc, hn, by decide +kernel, hsort, hx, hconsts _ hx, hnodup⟩

end Pathwise
