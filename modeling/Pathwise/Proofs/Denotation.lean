import Mathlib.Order.WellFoundedSet
import Pathwise.Proofs.Sorting

/-!
# Pathwise.Proofs.Denotation

What terms denote.

A `Smt.Structure` fixes what the theories of SMT-LIB leave open: the reals, the quotient by zero,
the constants and the function symbols. Integers have no bounds, and `div` and `mod` are known by
the law that the standard gives for them (`Smt.Structure.div_eq` says which division that is). Of
the reals nothing is said at all. Quantified integers range over a domain that is part of the
structure as well.

A definition of a function is a condition on structures (`Smt.Structure.Defines`). The definitions
of the predicates of a program can refer to each other, and a structure for them exists if the
references have no cycle (`Program.exists_interprets`).

Terms are interpreted in the same data as expressions, so the two can be compared without a
translation of values. Arrays are functions from integers there, and two of them are equal if they
have the same elements, as the theory of arrays says. Denotation is total: terms of the wrong sort
denote something, and what it is does not matter where terms come from checked expressions.

The domain is a parameter because the evaluator tries out finitely many integers, while the
standard quantifies over all. Results for one domain or the other are instances.
-/

namespace Pathwise

open Classical in
/-- A quantifier over the items with some property. -/
noncomputable def Quantifier.among {α : Type} (q : Quantifier) (P : α → Prop)
    (holds : α → Bool) : Bool :=
  match q with
  | .all => ∀ a, P a → holds a
  | .any => ∃ a, P a ∧ holds a

/-- Quotient and remainder are determined by the bounds of the remainder. -/
theorem euclidean_iff {m k q r : Int} (hk : k ≠ 0) :
    (m = k * q + r ∧ 0 ≤ r ∧ r < k.natAbs) ↔ q = m / k ∧ r = m % k := by
  constructor
  · rintro ⟨heq, hnonneg, hlt⟩
    rcases Int.lt_or_gt_of_ne hk with hneg | hpos
    · obtain ⟨hq, hr⟩ := (Int.ediv_emod_unique' (a := m) (q := q) (r := r) hneg).2
        ⟨by omega, hnonneg, by omega⟩
      exact ⟨hq.symm, hr.symm⟩
    · obtain ⟨hq, hr⟩ := (Int.ediv_emod_unique (a := m) (q := q) (r := r) hpos).2
        ⟨by omega, hnonneg, by omega⟩
      exact ⟨hq.symm, hr.symm⟩
  · rintro ⟨rfl, rfl⟩
    exact ⟨(Int.mul_ediv_add_emod m k).symm, Int.emod_nonneg m hk, Int.emod_lt m hk⟩

namespace Smt

/-! ## Structures

Everything that a solver is free to choose, and the one law that binds it. -/

/-- A fixed choice of everything that the theories leave open: the reals, division by zero, the
range of quantifiers, and all symbols that a script declares. -/
structure Structure where
  /-- The reals. -/
  Num : Type
  /-- Some real. -/
  zero : Num
  literal : Float → Num
  negate : Num → Num
  /-- Arithmetic and order of the reals. -/
  onReals : Op → Num → Num → Datum Num
  /-- The quotient of integers. -/
  div : Int → Int → Int
  /-- The remainder of integers. -/
  mod : Int → Int → Int
  /-- Quotient and remainder by anything but zero are Euclidean. -/
  division : ∀ m n, n ≠ 0 → m = n * div m n + mod m n ∧ 0 ≤ mod m n ∧ mod m n < n.natAbs
  /-- The integers that quantifiers range over. -/
  Domain : Int → Prop
  const : String → Datum Num
  symbol : String → List (Datum Num) → Datum Num

namespace Structure

/-- The law of division leaves no choice but for the divisor zero. So quotient and remainder of a
structure are those of integers. -/
theorem div_eq (S : Structure) (m : Int) {n : Int} (hn : n ≠ 0) :
    S.div m n = m / n ∧ S.mod m n = m % n :=
  (euclidean_iff hn).1 (S.division m n hn)

/-- The structure with other function symbols. -/
abbrev withSymbols (S : Structure) (g : String → List (Datum S.Num) → Datum S.Num) : Structure :=
  { S with symbol := g }

/-- The values of a bound variable: those of its sort, and of the integers only the domain. A
structure may take any set of integers for it, and evaluation takes an interval. -/
def Ranges (S : Structure) (sort : SortExpr) (d : Datum S.Num) : Prop :=
  d.ty.sort = sort ∧ (sort = .int → S.Domain d.asInt)

end Structure

/-! ## Denotations

By recursion over terms. Names that stand alone are looked up in an assignment, which starts with
the constants of the structure and is changed by quantifiers and by parameters. -/

/-- An operator on integers. -/
def Op.onIntegers (S : Structure) (op : Op) (a b : Int) : Datum S.Num :=
  match op with
  | .add => .int (a + b)
  | .sub => .int (a - b)
  | .mul => .int (a * b)
  | .intDiv => .int (S.div a b)
  | .intMod => .int (S.mod a b)
  | .lt => .bool (a < b)
  | .le => .bool (a ≤ b)
  | .gt => .bool (b < a)
  | .ge => .bool (b ≤ a)
  | _ => .int a

open Classical in
/-- An operator on two values. Where its operands are not of the sorts it is for, the left one is
given back, so that every term denotes something. -/
noncomputable def Op.denote (S : Structure) (op : Op) (l r : Datum S.Num) : Datum S.Num :=
  match op, l, r with
  | .implies, l, r => .bool (!l.asBool || r.asBool)
  | .iff, l, r => .bool (l = r)
  | .eq, l, r => .bool (l = r)
  | .select, l, r => l.select r
  | op, .int a, .int b => op.onIntegers S a b
  | op, .float x, .float y => S.onReals op x y
  | _, l, _ => l

theorem Op.denote_withSymbols (S : Structure) (g : String → List (Datum S.Num) → Datum S.Num)
    (op : Op) (l r : Datum S.Num) : op.denote (S.withSymbols g) l r = op.denote S l r := by
  cases op <;> cases l <;> cases r <;> rfl

/-- The opposite of a number. -/
def Structure.opposite (S : Structure) : Datum S.Num → Datum S.Num
  | .int n => .int (-n)
  | .float x => .float (S.negate x)
  | d => d

/-- The values of names after the given variables have been bound. -/
def assign {N : Type} (ρ : String → Datum N) (vars : List SortedVar) (ds : List (Datum N)) :
    String → Datum N :=
  fun x => (SortedMap.lookup x ((vars.map Prod.fst).zip ds)).getD (ρ x)

namespace Term

open Classical in
mutual

/-- What a term denotes, where `ρ` gives the values of the names that stand alone. -/
noncomputable def denote (S : Structure) : Term → (ρ : String → Datum S.Num) → Datum S.Num
  | bool b, _ => .bool b
  | int n, _ => .int n
  | real x, _ => .float (S.literal x)
  | const x, ρ => ρ x
  | not t, ρ => .bool !(denote S t ρ).asBool
  | neg t, ρ => S.opposite (denote S t ρ)
  | and ts, ρ => .bool ((denoteList S ts ρ).all Datum.asBool)
  | or ts, ρ => .bool ((denoteList S ts ρ).any Datum.asBool)
  | distinct ts, ρ => .bool (denoteList S ts ρ).Nodup
  | ite c t e, ρ => if (denote S c ρ).asBool then denote S t ρ else denote S e ρ
  | binary op l r, ρ => op.denote S (denote S l ρ) (denote S r ρ)
  | store array index value, ρ =>
    (denote S array ρ).store S.zero (denote S index ρ) (denote S value ρ)
  | quant q vars body, ρ =>
    .bool (q.among (List.Forall₂ (fun x d => S.Ranges x.2 d) vars) fun ds =>
      (denote S body (assign ρ vars ds)).asBool)
  | app f args, ρ => S.symbol f (denoteList S args ρ)

/-- What the terms of a list denote. -/
noncomputable def denoteList (S : Structure) :
    List Term → (ρ : String → Datum S.Num) → List (Datum S.Num)
  | [], _ => []
  | t :: ts, ρ => denote S t ρ :: denoteList S ts ρ

end

variable {S : Structure} {ρ : String → Datum S.Num}

theorem denoteList_append (ts us : List Term) :
    denoteList S (ts ++ us) ρ = denoteList S ts ρ ++ denoteList S us ρ := by
  induction ts with
  | nil => rw [List.nil_append, denoteList, List.nil_append]
  | cons t ts ih => rw [List.cons_append, denoteList, denoteList, ih, List.cons_append]

/-- A quantified integer takes the values of the domain. -/
theorem denote_quant_int (q : Quantifier) (x : String) (body : Term) :
    (quant q [(x, .int)] body).denote S ρ =
      .bool (q.among S.Domain fun n => (body.denote S (assign ρ [(x, .int)] [.int n])).asBool) := by
  -- a list of values for one integer variable is one integer of the domain
  have hranges : ∀ ds, List.Forall₂ (fun x d => S.Ranges x.2 d) [(x, SortExpr.int)] ds ↔
      ∃ n, S.Domain n ∧ ds = [.int n] := by
    intro ds
    constructor
    · intro h
      obtain ⟨d, rest, hd, hrest, rfl⟩ := List.forall₂_cons_left_iff.1 h
      cases hrest
      obtain ⟨hsort, hdomain⟩ := hd
      cases d with
      | int n => exact ⟨n, hdomain rfl, rfl⟩
      | _ => cases hsort
    · rintro ⟨n, hn, rfl⟩
      exact .cons ⟨rfl, fun _ => hn⟩ .nil
  rw [denote]
  congr 1
  cases q with
  | all =>
      simp only [Quantifier.among, hranges, decide_eq_decide]
      exact ⟨fun h n hn => h _ ⟨n, hn, rfl⟩, fun h _ ⟨n, hn, hds⟩ => hds ▸ h n hn⟩
  | any =>
      simp only [Quantifier.among, hranges, decide_eq_decide]
      exact ⟨fun ⟨_, ⟨n, hn, hds⟩, h⟩ => ⟨n, hn, hds ▸ h⟩, fun ⟨n, hn, h⟩ => ⟨_, ⟨n, hn, rfl⟩, h⟩⟩

end Term

/-- A variable that is bound once has the value that it is bound to. With repeated names the first
one would count. -/
theorem assign_of_mem {N : Type} {ρ : String → Datum N} {vars : List SortedVar}
    {ds : List (Datum N)} (hn : (vars.map Prod.fst).Nodup) (hlen : vars.length = ds.length)
    {x : String} {d : Datum N} (h : (x, d) ∈ (vars.map Prod.fst).zip ds) :
    assign ρ vars ds x = d := by
  have hkeys : (((vars.map Prod.fst).zip ds).map Prod.fst).Nodup := by
    rwa [List.map_fst_zip (by rw [List.length_map, hlen])]
  rw [assign, SortedMap.lookup_of_mem hkeys h, Option.getD_some]

theorem assign_singleton {N : Type} (ρ : String → Datum N) (x : String) (s : SortExpr)
    (d : Datum N) (y : String) : assign ρ [(x, s)] [d] y = if y = x then d else ρ y := by
  simp only [assign, List.map_cons, List.map_nil, List.zip_cons_cons, List.zip_nil_left,
    SortedMap.lookup]
  by_cases hy : y = x <;> simp [hy]

/-- A structure interprets a function as it is defined: on arguments of the right sorts it
gives the value of the body. Other commands define nothing. -/
def Structure.Defines (S : Structure) : Command → Prop
  | .defineFun f params _ body =>
    ∀ ds, List.Forall₂ (fun x d => d.ty.sort = x.2) params ds →
      S.symbol f ds = body.denote S (assign S.const params ds)
  | _ => True

end Smt

open Smt

/-! ## Definitions that do not run in circles

A structure for the predicates of a program is found by recursion along the references between
them, one symbol after the other. What is needed of the encoding is that the value of a body
depends on the symbols that occur in it, and on no others. -/

/-- A structure interprets the predicates of a program as they are defined. For recursive
predicates there may be no such structure, or several. -/
def Program.Interprets (p : Program) (S : Structure) : Prop :=
  ∀ q ∈ p.predicates, S.Defines q.definition

/-- The body of the predicate `x` applies the predicate `y`. -/
def Program.Refers (p : Program) (x y : String) : Prop :=
  ∃ q ∈ p.predicates, q.name = x ∧ y ∈ q.body.predicateNames

instance (p : Program) (x y : String) : Decidable (p.Refers x y) :=
  inferInstanceAs (Decidable (∃ q ∈ p.predicates, q.name = x ∧ y ∈ q.body.predicateNames))

/-- No predicate refers to itself, not even through others. -/
def Program.Acyclic (p : Program) : Prop := ∀ x, ¬ Relation.TransGen p.Refers x x

/-- A relation without cycles that only finitely many items relate to something is well-founded
towards what they relate to. -/
theorem wellFounded_of_acyclic {α : Type} {r : α → α → Prop} {l : List α}
    (hl : ∀ x y, r x y → x ∈ l) (h : ∀ x, ¬ Relation.TransGen r x x) :
    WellFounded fun y x => r x y := by
  have : IsStrictOrder α (Relation.TransGen fun y x => r x y) :=
    { irrefl := fun x hx => h x (Relation.transGen_swap.1 hx)
      trans := fun _ _ _ => Relation.TransGen.trans }
  have hwf := Set.wellFoundedOn_iff.1
    ((List.finite_toSet l).wellFoundedOn (r := Relation.TransGen fun y x => r x y))
  refine ⟨fun x => hwf.induction x fun x ih => ⟨x, fun y hxy => ?_⟩⟩
  by_cases hy : y ∈ l
  · exact ih y ⟨.single hxy, hy, hl x y hxy⟩
  · exact ⟨y, fun z hyz => absurd (hl y z hyz) hy⟩

/-- The variables that the definition of a predicate binds: the parameters, then the lengths
of the arrays among them. -/
def Predicate.formals (q : Predicate) : List Variable :=
  q.parameters ++ q.parameters.filterMap Variable.length?

/-- A predicate is defined over its formals, each with the sort of its type. -/
theorem Predicate.definition_eq (q : Predicate) :
    q.definition = .defineFun q.name (q.formals.map fun v => (v.name, v.ty.sort)) .bool
      q.body.encode := by
  have hlengths : (q.parameters.filterMap Variable.length?).map (fun l => (l.name, SortExpr.int)) =
      (q.parameters.filterMap Variable.length?).map fun l => (l.name, l.ty.sort) := by
    refine List.map_congr_left fun l hl => ?_
    obtain ⟨v, -, hv⟩ := List.mem_filterMap.1 hl
    rw [Variable.ty_of_length? hv]
    rfl
  rw [definition, formals, List.map_append, hlengths]

namespace Expr

section Congruence

variable {S : Structure} {g : String → List (Datum S.Num) → Datum S.Num} {ρ : String → Datum S.Num}

theorem denoteList_encodeList_congr (es : List Expr)
    (h : ∀ e ∈ es, e.encode.denote (S.withSymbols g) ρ = e.encode.denote S ρ) :
    Term.denoteList (S.withSymbols g) (encodeList es) ρ = Term.denoteList S (encodeList es) ρ := by
  induction es with
  | nil => rfl
  | cons e es ih =>
      obtain ⟨he, hes⟩ := List.forall_mem_cons.1 h
      rw [encodeList, Term.denoteList, Term.denoteList, he, ih hes]

theorem denoteList_encodeLengths_congr (es : List Expr)
    (h : ∀ e ∈ es, Term.denoteList (S.withSymbols g) e.encodeLength ρ =
      Term.denoteList S e.encodeLength ρ) :
    Term.denoteList (S.withSymbols g) (encodeLengths es) ρ =
      Term.denoteList S (encodeLengths es) ρ := by
  induction es with
  | nil => rfl
  | cons e es ih =>
      obtain ⟨he, hes⟩ := List.forall_mem_cons.1 h
      rw [encodeLengths, Term.denoteList_append, Term.denoteList_append, ih hes]
      split
      · rw [he]
      · rfl

theorem denote_encode_binary_congr (op : BinOp) (t : Ty) {l r : Term}
    (hl : l.denote (S.withSymbols g) ρ = l.denote S ρ)
    (hr : r.denote (S.withSymbols g) ρ = r.denote S ρ) :
    (op.encode t l r).denote (S.withSymbols g) ρ = (op.encode t l r).denote S ρ := by
  cases op <;>
    simp only [BinOp.encode, Term.denote, Term.denoteList, Op.denote_withSymbols, hl, hr]

/-- Only the symbols that occur in an expression matter to it. The lengths that it passes along
are included. -/
theorem denote_encode_congr {e : Expr} (hs : ∀ a ∈ e.symbols, g a.1 = S.symbol a.1)
    (hp : ∀ x ∈ e.predicateNames, g x = S.symbol x) :
    e.encode.denote (S.withSymbols g) ρ = e.encode.denote S ρ ∧
      Term.denoteList (S.withSymbols g) e.encodeLength ρ = Term.denoteList S e.encodeLength ρ := by
  induction e using childInduct generalizing ρ with
  | step e ih =>
      have ih : ∀ c ∈ e.children, ∀ ρ : String → Datum S.Num,
          c.encode.denote (S.withSymbols g) ρ = c.encode.denote S ρ ∧
            Term.denoteList (S.withSymbols g) c.encodeLength ρ =
              Term.denoteList S c.encodeLength ρ := fun c hc _ =>
        ih c hc (fun a ha => hs a (symbols_subset_of_child hc ha))
          fun x hx => hp x (predicateNames_subset_of_child hc hx)
      cases e with
      | var v =>
          refine ⟨rfl, ?_⟩
          rw [encodeLength]
          cases v.length? <;> rfl
      | int n => exact ⟨rfl, rfl⟩
      | float x => exact ⟨rfl, rfl⟩
      | bool b => exact ⟨rfl, rfl⟩
      | unary op e =>
          have he := (ih e List.mem_cons_self ρ).1
          refine ⟨?_, rfl⟩
          cases op with
          | neg =>
              rw [encode, Term.denote, Term.denote, he]
              cases e.encode.denote S ρ <;> rfl
          | not => rw [encode, Term.denote, Term.denote, he]
      | binary op l r =>
          simp only [children, List.forall_mem_cons] at ih
          exact ⟨denote_encode_binary_congr op l.ty (ih.1 ρ).1 (ih.2.1 ρ).1, rfl⟩
      | quant q v body =>
          refine ⟨?_, rfl⟩
          rw [encode, Term.denote_quant_int, Term.denote_quant_int]
          simp only [ih body List.mem_cons_self]
      | read a i =>
          simp only [children, List.forall_mem_cons] at ih
          refine ⟨?_, rfl⟩
          rw [encode, Term.denote, Term.denote, (ih.1 ρ).1, (ih.2.1 ρ).1, Op.denote_withSymbols]
      | update a i x n =>
          simp only [children, List.forall_mem_cons] at ih
          obtain ⟨iha, ihi, ihx, ihn, -⟩ := ih
          refine ⟨?_, ?_⟩
          · rw [encode, Term.denote, Term.denote, (iha ρ).1, (ihi ρ).1, (ihx ρ).1]
          · rw [encodeLength, Term.denoteList, Term.denoteList, (ihn ρ).1]
            rfl
      | call f args t =>
          -- the symbol at the root is one of the symbols of the expression
          have hf : g f = S.symbol f := hs (f, args.map Expr.ty, t) (by
            rw [symbols_eq]
            exact List.mem_append_left _ (by simp [rootSymbol?]))
          refine ⟨?_, rfl⟩
          have hargs := denoteList_encodeList_congr args fun c hc => (ih c hc ρ).1
          rw [encode, Term.denote, Term.denote, hargs]
          exact congrFun hf _
      | app name args =>
          have hname : g name = S.symbol name :=
            hp name (mem_predicateNames.2 ⟨args, self_mem_visit _⟩)
          have hargs := denoteList_encodeList_congr args fun c hc => (ih c hc ρ).1
          have hlengths := denoteList_encodeLengths_congr args fun c hc => (ih c hc ρ).2
          refine ⟨?_, rfl⟩
          rw [encode, Term.denote, Term.denote, Term.denoteList_append, Term.denoteList_append,
            hargs, hlengths]
          exact congrFun hname _

end Congruence

end Expr

namespace Program

variable {p : Program}

/-- References that go down some numbering of the names have no cycle. -/
theorem acyclic_of_rank (rank : String → Nat)
    (h : ∀ q ∈ p.predicates, ∀ y ∈ q.body.predicateNames, rank y < rank q.name) : p.Acyclic := by
  have hstep : ∀ x y, p.Refers x y → rank y < rank x := by
    rintro x y ⟨q, hq, rfl, hy⟩
    exact h q hq y hy
  intro x hx
  have hlt : ∀ y, Relation.TransGen p.Refers x y → rank y < rank x := by
    intro y hy
    induction hy with
    | single hxy => exact hstep _ _ hxy
    | tail _ hyz ih => exact (hstep _ _ hyz).trans ih
  exact Nat.lt_irrefl _ (hlt x hx)

/-- What the definition of a predicate says of its symbol, given the symbols that its body
refers to. Other symbols are as in the structure. -/
noncomputable def symbolFrom (p : Program) (S : Structure) (x : String)
    (others : ∀ y, p.Refers x y → List (Datum S.Num) → Datum S.Num) :
    List (Datum S.Num) → Datum S.Num :=
  match p.predicate? x with
  | none => S.symbol x
  | some q => fun ds =>
    q.body.encode.denote
      (S.withSymbols fun y => if h : p.Refers x y then others y h else S.symbol y)
      (assign S.const (q.formals.map fun v => (v.name, v.ty.sort)) ds)

/-- Without cycles, following references comes to an end. The names are those of predicates, of
which there are finitely many. -/
theorem Acyclic.wellFounded (h : p.Acyclic) : WellFounded fun y x => p.Refers x y := by
  refine wellFounded_of_acyclic (l := p.predicates.map Predicate.name) ?_ h
  rintro x y ⟨q, hq, rfl, -⟩
  exact List.mem_map.2 ⟨q, hq, rfl⟩

/-- Without cycles the definitions of the predicates have a solution, whatever the rest of the
structure is. No function in the body of a predicate may have the name of a predicate. -/
theorem exists_interprets (hn : (p.predicates.map Predicate.name).Nodup) (ha : p.Acyclic)
    (hs : ∀ q ∈ p.predicates, ∀ a ∈ q.body.symbols, ∀ r ∈ p.predicates, a.1 ≠ r.name)
    (S : Structure) :
    ∃ g, (∀ f, (∀ q ∈ p.predicates, q.name ≠ f) → g f = S.symbol f) ∧
      p.Interprets (S.withSymbols g) := by
  let g := ha.wellFounded.fix (p.symbolFrom S)
  have hg : ∀ x, g x = p.symbolFrom S x fun y _ => g y := ha.wellFounded.fix_eq _
  have hother : ∀ f, (∀ q ∈ p.predicates, q.name ≠ f) → g f = S.symbol f := by
    intro f hf
    have hnone : p.predicate? f = none := by
      rw [predicate?, List.find?_eq_none]
      exact fun q hq => by simpa using hf q hq
    rw [hg, symbolFrom, hnone]
  refine ⟨g, hother, fun q hq => ?_⟩
  rw [Predicate.definition_eq]
  intro ds _
  have hsome : p.predicate? q.name = some q := predicate?_of_mem hn hq
  -- the body sees the symbols that it refers to, and no other is the symbol of a predicate
  have hbody := Expr.denote_encode_congr (S := S.withSymbols g)
    (g := fun y => if p.Refers q.name y then g y else S.symbol y) (e := q.body)
    (ρ := assign S.const (q.formals.map fun v => (v.name, v.ty.sort)) ds)
    (fun a hsym => ?_) fun y hy => if_pos ⟨q, hq, rfl, hy⟩
  · show g q.name ds = _
    rw [hg, symbolFrom, hsome]
    exact hbody.1
  · dsimp only
    split
    · rfl
    · exact (hother a.1 fun r hr hra => hs q hq a hsym r hr hra.symm).symm

end Program

end Pathwise
