import Pathwise.Proofs.EvalSubst
import Pathwise.Smt.Encode

/-!
# Pathwise.Proofs.EncodeSubst

Substitution and encoding.

Weakest preconditions replace variables in a formula, and the solver gets the term of the result.
`encoding_after_substitution` says that this term is the one of the formula itself, with the
constants of the variables replaced by the terms of what replaces the variables.

Three things in an encoding depend on more than the parts of an expression. Which division is
meant is told by the type of an operand, so a replacement must have the type of its variable
(`Expr.ty_substUnder`). An array as an argument of a predicate brings the constant of its length
along, so that a replacement must bring the right one (`Expr.KeepsLength`). And the term of an
update has no part for the length. `Expr.encode_substUnder` is the induction, with the length of
an expression next to the expression.

Replacement in terms knows nothing of arrays and lengths. It replaces constants, except where a
quantifier binds their names, and nothing is renamed. So capture is no concern here: if a
quantifier captures a constant of a replacement, it does so on both sides alike.

The conditions that remain are about lengths that are bound, or replaced as if they were variables
of their own. Two examples at the end show that neither can be left out.
-/

namespace Pathwise

/-! ## Replacing constants in terms

The counterpart of substitution for terms, with the names that are bound on the way down. -/

namespace Smt.Term

mutual

/-- Replace the constants that `τ` has a term for, where the names in `bound` are bound from
outside. -/
def replace (τ : String → Option Term) (bound : List String) : Term → Term
  | bool b => bool b
  | int n => int n
  | real x => real x
  | const name => if name ∈ bound then const name else (τ name).getD (const name)
  | not t => not (replace τ bound t)
  | neg t => neg (replace τ bound t)
  | and ts => and (replaceList τ bound ts)
  | or ts => or (replaceList τ bound ts)
  | distinct ts => distinct (replaceList τ bound ts)
  | ite c t e => ite (replace τ bound c) (replace τ bound t) (replace τ bound e)
  | binary op l r => binary op (replace τ bound l) (replace τ bound r)
  | store array index value =>
    store (replace τ bound array) (replace τ bound index) (replace τ bound value)
  | quant q vars body => quant q vars (replace τ (vars.map Prod.fst ++ bound) body)
  | app name args => app name (replaceList τ bound args)

def replaceList (τ : String → Option Term) (bound : List String) : List Term → List Term
  | [] => []
  | t :: ts => replace τ bound t :: replaceList τ bound ts

end

theorem replaceList_eq_map (τ : String → Option Term) (bound : List String) (ts : List Term) :
    replaceList τ bound ts = ts.map (replace τ bound) := by
  induction ts with
  | nil => rfl
  | cons t ts ih => simp [replaceList, ih]

end Smt.Term

open Smt

/-- An operation is encoded in one way, whatever its operands are. The type decides which, and a
substitution does not change it. -/
theorem BinOp.replace_encode (op : BinOp) (t : Ty) (l r : Term) (τ : String → Option Term)
    (bound : List String) :
    (op.encode t l r).replace τ bound = op.encode t (l.replace τ bound) (r.replace τ bound) := by
  cases op <;> simp [BinOp.encode, Term.replace, Term.replaceList]

namespace Expr

/-! ## Encodings of lists and lengths

The encoding of the arguments of a predicate: first all arguments, and then the lengths of the
arrays among them. -/

theorem encodeList_eq_map (es : List Expr) : encodeList es = es.map encode := by
  induction es with
  | nil => rfl
  | cons e es ih => simp [encodeList, ih]

/-- Only arguments of array types bring a length along. -/
theorem encodeLengths_eq_flatMap (es : List Expr) :
    encodeLengths es = es.flatMap fun e => if e.ty.isArray then encodeLength e else [] := by
  induction es with
  | nil => rfl
  | cons e es ih => simp [encodeLengths, ih]

/-- The term of a length is the encoding of the length. -/
theorem encodeLength_eq (e : Expr) : e.encodeLength = (e.arrayLength?.map encode).toList := by
  cases e with
  | var v => cases hl : v.length? <;> simp [encodeLength, arrayLength?, hl, encode]
  | _ => rfl

/-! ## The induction

What is asked of a substitution is asked for all parts at once (`Expr.Conforms`) and passed on
from an expression to its parts. -/

variable {σ : String → Option Expr} {bound : List String}

/-- Replacements of the right types keep the types of expressions. The encoder looks at types in a
few places, and this is why substitution does not disturb it there. -/
theorem ty_substUnder {e : Expr}
    (h : ∀ v ∈ e.mentions, ∀ r, σ v.name = some r → r.ty = v.ty) :
    (substUnder σ bound e).ty = e.ty := by
  induction e with
  | var v =>
      rw [substUnder]
      split
      · rfl
      · cases hr : σ v.name with
        | none => rfl
        | some r => exact h v (by simp) r hr
  | unary op e ih =>
      have hty := ih fun v hv => h v (mentions_subset_of_child (by simp [children]) hv)
      cases op <;> simp [substUnder, ty, hty]
  | binary op l r ihl _ =>
      have hty := ihl fun v hv => h v (mentions_subset_of_child (by simp [children]) hv)
      simp [substUnder, ty, hty]
  | read a i iha _ =>
      have hty := iha fun v hv => h v (mentions_subset_of_child (by simp [children]) hv)
      simp [substUnder, ty, hty]
  | update a i x n iha _ _ _ =>
      have hty := iha fun v hv => h v (mentions_subset_of_child (by simp [children]) hv)
      simp [substUnder, ty, hty]
  | int _ | float _ | bool _ | quant _ _ _ _ | call _ _ _ _ | app _ _ _ => simp [substUnder, ty]

/-- A substitution in an expression shows in its term as a replacement of constants. The names in
`bound` are bound from outside. -/
structure Conforms (σ : String → Option Expr) (bound : List String) (e : Expr) : Prop where
  /-- Replacements have the types of the variables. -/
  types : ∀ v ∈ e.mentions, ∀ r, σ v.name = some r → r.ty = v.ty
  /-- Lengths go along with arrays. -/
  lengths : ∀ v ∈ e.mentions, v.ty.isArray → KeepsLength σ v
  /-- No quantifier binds a length. -/
  unbound : ∀ v ∈ e.mentions, ∀ l, v.length? = some l → l.name ∉ bound ++ e.binders
  /-- No quantifier binds an array whose length is replaced. -/
  paired : ∀ v ∈ e.mentions, ∀ l, v.length? = some l → (σ l.name).isSome →
    v.name ∉ bound ++ e.binders

namespace Conforms

variable {c e : Expr}

theorem child (h : e.Conforms σ bound) (hc : c ∈ e.children) : c.Conforms σ bound := by
  have hmem : c.mentions ⊆ e.mentions := mentions_subset_of_child hc
  exact ⟨fun v hv => h.types v (hmem hv), fun v hv => h.lengths v (hmem hv),
    fun v hv l hl hk => h.unbound v (hmem hv) l hl (scope_subset_of_child hc hk),
    fun v hv l hl hr hk => h.paired v (hmem hv) l hl hr (scope_subset_of_child hc hk)⟩

theorem body {q : Quantifier} {v : Variable} (h : (quant q v e).Conforms σ bound) :
    e.Conforms σ (v.name :: bound) := by
  have hmem : e.mentions ⊆ (quant q v e).mentions := mentions_subset_of_child (by simp [children])
  exact ⟨fun v hv => h.types v (hmem hv), fun v hv => h.lengths v (hmem hv),
    fun v hv l hl hk => h.unbound v (hmem hv) l hl (scope_subset_of_body hk),
    fun v hv l hl hr hk => h.paired v (hmem hv) l hl hr (scope_subset_of_body hk)⟩

end Conforms

/-- What takes the place of a variable has the term that takes the place of its constant. Where
nothing does, both stay. -/
theorem encode_getD (σ : String → Option Expr) (v : Variable) :
    ((σ v.name).getD (var v)).encode =
      ((σ v.name).map encode).getD (.const v.name) := by
  cases σ v.name <;> simp [encode]

/-- A variable that is an array, and the constant of its length. -/
theorem Conforms.encodeLength_var {v : Variable} (h : (var v).Conforms σ bound)
    (ha : v.ty.isArray) :
    (substUnder σ bound (var v)).encodeLength =
      (var v).encodeLength.map (Term.replace (fun x => (σ x).map encode) bound) := by
  have hv : v ∈ (var v).mentions := by simp
  have hfree : ∀ l, v.length? = some l → l.name ∉ bound := fun l hl =>
    mt (List.mem_append_left _) (h.unbound v hv l hl)
  rw [substUnder, encodeLength]
  split
  · next hb =>
      -- the array is bound and stays, so its length must stay as well
      cases hl : v.length? with
      | none => simp [encodeLength, hl]
      | some l =>
          have hnone : σ l.name = none := by
            rw [← Option.not_isSome_iff_eq_none]
            exact fun hr => h.paired v hv l hl hr (List.mem_append_left _ hb)
          simp [encodeLength, hl, Term.replace, hfree l hl, hnone]
  · rw [encodeLength_eq, h.lengths v hv ha]
    cases hl : v.length? with
    | none => rfl
    | some l => simp [Term.replace, hfree l hl, encode_getD]

theorem encodeList_substListUnder {es : List Expr}
    (h : ∀ e ∈ es, (substUnder σ bound e).encode =
      e.encode.replace (fun x => (σ x).map encode) bound) :
    encodeList (substListUnder σ bound es) =
      (encodeList es).map (Term.replace (fun x => (σ x).map encode) bound) := by
  rw [substListUnder_eq_map, encodeList_eq_map, encodeList_eq_map, List.map_map, List.map_map]
  exact List.map_congr_left h

theorem encodeLengths_substListUnder {es : List Expr}
    (hty : ∀ e ∈ es, (substUnder σ bound e).ty = e.ty)
    (h : ∀ e ∈ es, e.ty.isArray → (substUnder σ bound e).encodeLength =
      e.encodeLength.map (Term.replace (fun x => (σ x).map encode) bound)) :
    encodeLengths (substListUnder σ bound es) =
      (encodeLengths es).map (Term.replace (fun x => (σ x).map encode) bound) := by
  rw [substListUnder_eq_map, encodeLengths_eq_flatMap, encodeLengths_eq_flatMap, List.flatMap_map,
    List.map_flatMap]
  refine List.flatMap_congr fun e he => ?_
  rw [hty e he]
  split
  · next harr => exact h e he harr
  · rfl

/-- The term of an expression after a substitution, and the terms of its length. On the right side
the same replacement is made in the terms, by name. -/
theorem encode_substUnder {e : Expr} (he : e.Conforms σ bound) :
    (substUnder σ bound e).encode = e.encode.replace (fun x => (σ x).map encode) bound ∧
    (e.ty.isArray → (substUnder σ bound e).encodeLength =
      e.encodeLength.map (Term.replace (fun x => (σ x).map encode) bound)) := by
  induction e generalizing bound with
  | var v =>
      refine ⟨?_, he.encodeLength_var⟩
      rw [substUnder, encode, Term.replace]
      split
      · rw [encode]
      · exact encode_getD σ v
  | int n => exact ⟨rfl, fun _ => rfl⟩
  | float x => exact ⟨rfl, fun _ => rfl⟩
  | bool b => exact ⟨rfl, fun _ => rfl⟩
  | unary op e ih =>
      have hterm := (ih (he.child (by simp [children]))).1
      refine ⟨?_, fun _ => rfl⟩
      cases op <;> simp [substUnder, encode, Term.replace, hterm]
  | binary op l r ihl ihr =>
      have hl : l.Conforms σ bound := he.child (by simp [children])
      have hr : r.Conforms σ bound := he.child (by simp [children])
      refine ⟨?_, fun _ => rfl⟩
      -- the operator is encoded by the type of its left operand, which the substitution keeps
      rw [substUnder, encode, encode, ty_substUnder hl.types, (ihl hl).1, (ihr hr).1,
        BinOp.replace_encode]
  | quant q v body ih =>
      have hterm := (ih he.body).1
      refine ⟨?_, fun _ => rfl⟩
      simp [substUnder, encode, Term.replace, hterm]
  | read a i iha ihi =>
      have ha := (iha (he.child (by simp [children]))).1
      have hi := (ihi (he.child (by simp [children]))).1
      refine ⟨?_, fun _ => rfl⟩
      simp [substUnder, encode, Term.replace, ha, hi]
  | update a i x n iha ihi ihx ihn =>
      have ha := (iha (he.child (by simp [children]))).1
      have hi := (ihi (he.child (by simp [children]))).1
      have hx := (ihx (he.child (by simp [children]))).1
      have hn := (ihn (he.child (by simp [children]))).1
      constructor
      · simp [substUnder, encode, Term.replace, ha, hi, hx]
      · intro _
        simp [substUnder, encodeLength, hn]
  | call f args t ih =>
      refine ⟨?_, fun _ => rfl⟩
      have hterms := encodeList_substListUnder fun a ha => (ih a ha (he.child ha)).1
      rw [substUnder, encode, encode, Term.replace, Term.replaceList_eq_map, hterms]
  | app p args ih =>
      refine ⟨?_, fun _ => rfl⟩
      have hterms := encodeList_substListUnder fun a ha => (ih a ha (he.child ha)).1
      -- which arguments bring a length along goes by their types, and these are kept
      have htypes : ∀ a ∈ args, (substUnder σ bound a).ty = a.ty := fun a ha =>
        ty_substUnder (he.child (c := a) ha).types
      have hlengths := encodeLengths_substListUnder htypes fun a ha => (ih a ha (he.child ha)).2
      rw [substUnder, encode, encode, Term.replace, Term.replaceList_eq_map, List.map_append,
        hterms, hlengths]

end Expr

/-! ## The substitutions of the rules

Assignments, calls and stores make substitutions that replace an array together with its length.
The conditions of the induction are derived from that and from how names are used. -/

/-- What is asked of a formula and of a substitution that changes some variables in it, for the
formula to be encoded. -/
structure Respects (targets : List Variable) (σ : Subst) (q : Expr) : Prop where
  /-- The substitution is one of those that the rules make. -/
  rule : RuleSubst targets σ
  /-- Names are used in one way. -/
  naming : Naming (q.involved targets)
  /-- Replacements have the types of the variables. -/
  types : ∀ v ∈ q.involved targets, ∀ r, σ.find? v.name = some r → r.ty = v.ty
  /-- No quantifier binds a length. -/
  unbound : ∀ v ∈ q.mentions, ∀ l, v.length? = some l → l.name ∉ q.binders

/-- What the rules make conforms, as long as no length is treated as a variable of its own:
neither as a target, nor by a quantifier that binds the array alone. -/
theorem Respects.conforms {targets : List Variable} {σ : Subst} {q : Expr}
    (h : Respects targets σ q)
    (ht : ∀ v ∈ targets, v.isArray = false → ∀ w ∈ q.involved targets, ∀ l,
      w.length? = some l → v.name ≠ l.name)
    (hb : ∀ v ∈ q.mentions, ∀ l, v.length? = some l → (σ.find? l.name).isSome →
      v.name ∉ q.binders) : q.Conforms σ.find? [] where
  types v hv := h.types v (List.mem_append_left _ hv)
  lengths v hv ha := by
    have hlength : v.length?.isSome := by
      rwa [← Variable.isArray_iff_length?, h.naming.kinds v (List.mem_append_left _ hv)]
    obtain ⟨l, hl⟩ := Option.isSome_iff_exists.1 hlength
    rw [Expr.KeepsLength, hl, Option.map_some]
    exact h.rule.arrayLength? h.naming ht hv hl
  unbound := h.unbound
  paired := hb

/-- Encoding after a substitution of the rules for assignments, calls and stores. The term of the
formula after the substitution is that of the formula itself, where the constants of the replaced
names give way to the terms of the replacements, except under quantifiers that bind these names.

No target may be the length of an array, not even among the parameters of a call, and no quantifier
may bind an array whose length is replaced. -/
theorem encoding_after_substitution {targets : List Variable} {σ : Subst} {q : Expr}
    (h : Respects targets σ q)
    (ht : ∀ v ∈ targets, v.isArray = false → ∀ w ∈ q.involved targets, ∀ l,
      w.length? = some l → v.name ≠ l.name)
    (hb : ∀ v ∈ q.mentions, ∀ l, v.length? = some l → (σ.find? l.name).isSome →
      v.name ∉ q.binders) :
    (q.substAll σ).encode = q.encode.replace (fun x => (σ.find? x).map Expr.encode) [] :=
  (Expr.encode_substUnder (h.conforms ht hb)).1

/-- An assignment of an update gives an array another length, and the new term shows it where the
array is the argument of a predicate. -/
theorem encoding_after_substitution_bounded :
    Respects [Sample.a] Stretched.widen Stretched.bounded ∧
      (∀ v ∈ [Sample.a], v.isArray = false → ∀ w ∈ Stretched.bounded.involved [Sample.a],
        ∀ l, w.length? = some l → v.name ≠ l.name) ∧
      (∀ v ∈ Stretched.bounded.mentions, ∀ l, v.length? = some l →
        (Stretched.widen.find? l.name).isSome → v.name ∉ Stretched.bounded.binders) ∧
      (Stretched.bounded.substAll Stretched.widen).encode =
        .and [.app "long" [.store (.const "c") (.const "x") (.int 6), .const "c$length"],
          .quant .all [("k", .int)] (.binary .le
            (.binary .select (.store (.const "c") (.const "x") (.int 6)) (.const "k"))
            (.const "x"))] ∧
      (Stretched.bounded.substAll Stretched.widen).encode =
        Stretched.bounded.encode.replace (fun x => (Stretched.widen.find? x).map Expr.encode)
          [] := by
  have h : Respects [Sample.a] Stretched.widen Stretched.bounded := {
    rule := Stretched.suits_widen.rule
    naming := Stretched.suits_widen.naming
    types := by decide +kernel
    unbound := by decide +kernel }
  have hb : ∀ v ∈ Stretched.bounded.mentions, ∀ l, v.length? = some l →
      (Stretched.widen.find? l.name).isSome → v.name ∉ Stretched.bounded.binders := by
    decide +kernel
  exact ⟨h, Stretched.suits_widen.noLength, hb, rfl,
    encoding_after_substitution h Stretched.suits_widen.noLength hb⟩

namespace Stretched

open Sample (a b n)

/-- The formula `exists a. long(a)`, where the quantifier binds the array and not its length. -/
def hidden : Expr := .quant .any a (.app "long" [.var a])

/-- An array with the length `n`. -/
def d : Variable := ⟨"d", .array .int, .array "n"⟩

/-- A function whose second parameter is the length of the first. -/
def sized : Function := ⟨"sized", 0, [d, n], [], 0, 1, []⟩

/-- The formula `long(d)`. -/
def longD : Expr := .app "long" [.var d]

/-- The arguments `b` and 5 for `d` and `n`. -/
def arguments : Subst := .ofList [("d", .var b), ("n", .int 5)]

end Stretched

/-- Both conditions are needed. A quantifier over an array keeps the array, and with it the length,
from being replaced, but does not bind the constant of the length. And where a parameter is the
length of another one, its argument replaces the constant, while the array has the length of its
own argument. -/
theorem encoding_differs_at_lengths :
    (Respects [Sample.a] Stretched.copy Stretched.hidden ∧
      (∀ w ∈ Stretched.hidden.involved [Sample.a], ∀ l, w.length? = some l →
        Sample.a.name ≠ l.name) ∧
      (Stretched.hidden.substAll Stretched.copy).encode =
        .quant .any [("a", .int)] (.app "long" [.const "a", .const "a$length"]) ∧
      (Stretched.hidden.substAll Stretched.copy).encode ≠
        Stretched.hidden.encode.replace (fun x => (Stretched.copy.find? x).map Expr.encode) []) ∧
    Respects [Stretched.d, Sample.n] Stretched.arguments Stretched.longD ∧
      Stretched.longD.binders = [] ∧
      (Stretched.longD.substAll Stretched.arguments).encode =
        .app "long" [.const "b", .const "b$length"] ∧
      (Stretched.longD.substAll Stretched.arguments).encode ≠
        Stretched.longD.encode.replace (fun x => (Stretched.arguments.find? x).map Expr.encode)
          [] := by
  have hcopy : Respects [Sample.a] Stretched.copy Stretched.hidden := {
    rule := .assign (e := .var Sample.c) rfl
    naming := by decide +kernel
    types := by decide +kernel
    unbound := by decide +kernel }
  have hbind : Stretched.sized.bind [.var Sample.b, .int 5] = .ok Stretched.arguments := rfl
  have harguments : Respects [Stretched.d, Sample.n] Stretched.arguments Stretched.longD := {
    rule := .bind hbind
    naming := by decide +kernel
    types := by decide +kernel
    unbound := by decide +kernel }
  -- evaluated, the terms differ in their last constant only
  refine ⟨⟨hcopy, by decide +kernel, rfl, ?_⟩, harguments, rfl, rfl, ?_⟩
  · show Term.quant .any [("a", .int)] (.app "long" [.const "a", .const "a$length"]) ≠
      .quant .any [("a", .int)] (.app "long" [.const "a", .const "c$length"])
    simp
  · show Term.app "long" [.const "b", .const "b$length"] ≠ .app "long" [.const "b", .int 5]
    simp

end Pathwise
