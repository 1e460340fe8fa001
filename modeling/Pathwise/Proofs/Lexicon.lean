import Pathwise.Proofs.Conditions
import Pathwise.Proofs.FreeNames

/-!
# Pathwise.Proofs.Lexicon

Which names can occur in the conditions of a program.

A `Lexicon` says which variables, function symbols and predicates may be used; it has the length
of every array and the fresh variables that stand for what a call assigns. If the text of a
program keeps to a lexicon, so do the conditions of all its paths (`Lexicon.admits_condition`):
folding a path only puts together expressions of the text, with fresh variables in them.

This is the frame for statements of the form "nothing in a condition is new". What the lexicon is
depends on the use. With the predicates of a program as its predicates, conditions apply no
others, which the definitions of a script rely on. With the names whose text the reader takes as a
whole, the assertion of a script can be read back.

Nothing is asked of the program but validation, and that only because paths are taken from the
search. In particular names need not be hygienic: a substitution that captures a variable brings
no new names either.
-/

namespace Pathwise

/-- The names that may be used. A lexicon is closed under all that folding a path may add to the
names of the text. -/
structure Lexicon where
  Var : Variable → Prop
  Symbol : String → Prop
  Pred : String → Prop
  /-- The length of an array may be used. -/
  length : ∀ {v l}, Var v → v.length? = some l → Var l
  /-- So may the variables that stand for the value of a variable after a call. -/
  fresh : ∀ {v}, Var v → ∀ k, Var (v.fresh k)

namespace Lexicon

/-- The name at the root of an expression may be used. -/
def Root (L : Lexicon) : Expr → Prop
  | .var v => L.Var v
  | .quant _ v _ => L.Var v
  | .call f _ _ => L.Symbol f
  | .app x _ => L.Pred x
  | _ => True

/-- All names in an expression may be used. -/
def Admits (L : Lexicon) (e : Expr) : Prop := ∀ d ∈ e.visit, L.Root d

variable {L : Lexicon} {e : Expr}

/-- An expression is admitted if its root is, and its parts are. -/
theorem admits_iff : L.Admits e ↔ L.Root e ∧ ∀ c ∈ e.children, L.Admits c := by
  unfold Admits
  rw [Expr.visit_eq, List.forall_mem_cons]
  simp only [List.mem_flatMap]
  exact and_congr_right fun _ =>
    ⟨fun h c hc d hd => h d ⟨c, hc, hd⟩, fun h d ⟨c, hc, hd⟩ => h c hc d hd⟩

theorem Admits.child {c : Expr} (h : L.Admits e) (hc : c ∈ e.children) : L.Admits c :=
  (admits_iff.1 h).2 c hc

/-! ## What an admitted expression uses

A lexicon speaks of the names at the roots of all subexpressions. Variables, symbols and
predicates of an expression are collected from there, and the lengths of arrays come in by the
closure of the lexicon. -/

/-- The variables of an admitted expression may be used, bound ones and lengths included. -/
theorem Admits.mentions (h : L.Admits e) : ∀ v ∈ e.mentions, L.Var v := by
  have hwith : ∀ {u v}, L.Var u → v ∈ u.withLength → L.Var v := by
    intro u v hu hv
    rcases Variable.mem_withLength.1 hv with rfl | hl
    · exact hu
    · exact L.length hu hl
  intro v hv
  obtain ⟨d, hd, hvd⟩ := List.mem_flatMap.1 hv
  have hroot := h d hd
  cases d with
  | var u => exact hwith hroot hvd
  | quant q u body => exact hwith hroot hvd
  | _ => cases hvd

theorem Admits.symbols (h : L.Admits e) : ∀ a ∈ e.symbols, L.Symbol a.1 := by
  intro a ha
  obtain ⟨d, hd, hroot⟩ := List.mem_filterMap.1 ha
  cases d with
  | call f args t =>
      cases hroot
      exact h _ hd
  | _ => cases hroot

theorem Admits.predicateNames (h : L.Admits e) : ∀ x ∈ e.predicateNames, L.Pred x := by
  intro x hx
  obtain ⟨args, hargs⟩ := Expr.mem_predicateNames.1 hx
  exact h _ hargs

/-! ## Substitution

A substitution puts admitted expressions in the place of variables. The substitutions of the fold
are made of expressions of the text, of lengths of arrays, and of fresh variables. -/

theorem Admits.binary {l r : Expr} (hl : L.Admits l) (hr : L.Admits r) (op : BinOp) :
    L.Admits (.binary op l r) :=
  admits_iff.2 ⟨trivial, by simpa [Expr.children] using ⟨hl, hr⟩⟩

theorem admits_var {v : Variable} : L.Admits (.var v) ↔ L.Var v :=
  admits_iff.trans ⟨fun h => h.1, fun h => ⟨h, List.forall_mem_nil _⟩⟩

theorem Admits.arrayLength? {n : Expr} (h : L.Admits e) (hn : e.arrayLength? = some n) :
    L.Admits n := by
  cases e with
  | var v =>
      obtain ⟨l, hl, rfl⟩ := Option.map_eq_some_iff.1 hn
      exact admits_var.2 (L.length (admits_var.1 h) hl)
  | update a i x m =>
      cases hn
      exact h.child (by simp [Expr.children])
  | _ => cases hn

theorem root_substUnder (he : e.plain) (σ : String → Option Expr) (bound : List String) :
    L.Root (e.substUnder σ bound) ↔ L.Root e := by
  cases e with
  | var v => cases he
  | quant q v body => cases he
  | _ => rfl

/-- Replacements bring no names that may not be used. This holds below quantifiers too, where
names may be captured but none is added. -/
theorem Admits.substUnder {σ : String → Option Expr} (h : L.Admits e)
    (hσ : ∀ x r, σ x = some r → L.Admits r) (bound : List String) :
    L.Admits (e.substUnder σ bound) := by
  induction e using Expr.plainInduct generalizing bound with
  | var v =>
      rw [Expr.substUnder]
      split
      · exact h
      · cases hr : σ v.name with
        | none => exact h
        | some r => exact hσ v.name r hr
  | quant q v body ih =>
      obtain ⟨hroot, hchild⟩ := admits_iff.1 h
      rw [Expr.substUnder, admits_iff]
      exact ⟨hroot, by simpa [Expr.children] using ih (hchild body (by simp [Expr.children])) _⟩
  | plain e he ih =>
      obtain ⟨hroot, hchild⟩ := admits_iff.1 h
      rw [admits_iff, root_substUnder he, Expr.children_substUnder he]
      refine ⟨hroot, fun c' hc' => ?_⟩
      obtain ⟨c, hc, rfl⟩ := List.mem_map.1 hc'
      exact ih c hc (hchild c hc) bound

/-- All replacements of a substitution may be used. -/
def AdmitsSubst (L : Lexicon) (σ : Subst) : Prop := ∀ x r, σ.find? x = some r → L.Admits r

theorem admitsSubst_empty : L.AdmitsSubst .empty := by
  intro x r hr
  cases hr

theorem Admits.substAll {σ : Subst} (h : L.Admits e) (hσ : L.AdmitsSubst σ) :
    L.Admits (e.substAll σ) := h.substUnder hσ []

/-- What an assignment puts in the place of a name is admitted. -/
theorem Admits.replaces {v : Variable} {x : String} {r : Expr} (h : L.Admits e)
    (hr : v.replaces e x = some r) : L.Admits r := by
  rcases Variable.replaces_eq_some hr with ⟨-, rfl⟩ | ⟨l, -, -, hlength⟩
  · exact h
  · exact h.arrayLength? hlength

theorem Admits.assignment {v : Variable} {σ : Subst} (h : L.Admits e)
    (hσ : v.assignment e = .ok σ) : L.AdmitsSubst σ := by
  intro x r hr
  rw [(Variable.assignment_ok hσ).2] at hr
  exact h.replaces hr

theorem AdmitsSubst.union {v : Variable} {σ τ : Subst} (hσ : L.AdmitsSubst σ) (h : L.Admits e)
    (hτ : v.assignment e = .ok τ) : L.AdmitsSubst (σ.union τ) := by
  intro x r hr
  rw [SortedMap.find?_union σ (Variable.assignment_ok hτ).1] at hr
  rcases Option.or_eq_some_iff.1 hr with hr | ⟨-, hr⟩
  · exact h.assignment hτ x r hr
  · exact hσ x r hr

/-- The substitution for a call has the arguments and their lengths. -/
theorem admitsSubst_bind {g : Function} {args : List Expr} {σ : Subst}
    (h : ∀ e ∈ args, L.Admits e) (hσ : g.bind args = .ok σ) : L.AdmitsSubst σ := by
  intro x r hr
  rw [Function.find?_of_bind hσ] at hr
  obtain ⟨q, hq, hr⟩ := exists_of_replacement hr
  exact (h q.2 (List.of_mem_zip hq).2).replaces hr

/-- Those for its results have fresh variables. -/
theorem admitsSubst_bindResults {pairs : List (Variable × Variable)}
    (h : ∀ q ∈ pairs, L.Var q.2) {k : Nat} {c d : CallEffect} (hc : L.AdmitsSubst c.contract)
    (hh : L.AdmitsSubst c.havoc) (hd : CallEffect.bindResults k c pairs = .ok d) :
    L.AdmitsSubst d.contract ∧ L.AdmitsSubst d.havoc := by
  induction pairs generalizing k c with
  | nil =>
      cases hd
      exact ⟨hc, hh⟩
  | cons q rest ih =>
      obtain ⟨result, target⟩ := q
      obtain ⟨hq, hrest⟩ := List.forall_mem_cons.1 h
      have hfresh : L.Admits (.var (target.fresh (k + 1))) := admits_var.2 (L.fresh hq _)
      obtain ⟨-, hd⟩ := seq_eq_ok_iff.1 hd
      obtain ⟨σ, hσ, hd⟩ := bind_eq_ok_iff.1 hd
      obtain ⟨τ, hτ, hd⟩ := bind_eq_ok_iff.1 hd
      exact ih hrest (hc.union hfresh hσ) (hh.union hfresh hτ) hd

/-! ## Programs

One lemma for each part of the fold. The function at hand and the contracts of callees are both in
the text, so the hypothesis is about all functions. -/

/-- The text of a function keeps to the lexicon, ranking functions aside. -/
structure AdmitsFunction (L : Lexicon) (f : Function) : Prop where
  targets : ∀ v ∈ f.targets, L.Var v
  exprs : ∀ e ∈ f.exprs, L.Admits e

variable {p : Program} {f : Function} (hp : ∀ f ∈ p.functions, L.AdmitsFunction f)

include hp in
/-- A call brings in the contract of the callee, with arguments and fresh variables in it. -/
theorem admits_foldCall {targets : List Variable} {id : FunctionId} {args : List Expr}
    {r r' : Running} (ht : ∀ v ∈ targets, L.Var v) (ha : ∀ e ∈ args, L.Admits e)
    (hr : L.Admits r.formula) (h : p.foldCall targets id args r = .ok r') :
    L.Admits r'.formula := by
  obtain ⟨g, hg, h⟩ := bind_eq_ok_iff.1 h
  obtain ⟨-, h⟩ := seq_eq_ok_iff.1 h
  obtain ⟨σ, hσ, h⟩ := bind_eq_ok_iff.1 h
  obtain ⟨d, hd, h⟩ := bind_eq_ok_iff.1 h
  obtain ⟨post, hpost, h⟩ := bind_eq_ok_iff.1 h
  cases h
  have hmem : g ∈ p.functions := List.mem_of_getElem? (getOr_eq_ok_iff.1 hg)
  have hpost : L.Admits post := (hp g hmem).exprs _
    (Function.mem_exprs_of_postcondition? (getOr_eq_ok_iff.1 hpost))
  obtain ⟨hcontract, hhavoc⟩ := admitsSubst_bindResults
    (fun q hq => ht q.2 (List.of_mem_zip hq).2) (admitsSubst_bind ha hσ) admitsSubst_empty hd
  exact (hpost.substAll hcontract).binary (hr.substAll hhavoc) _

variable (hf : L.AdmitsFunction f)

include hp hf in
/-- A statement of the function brings no names that may not be used. Its expressions are in the
text, and a call brings in the text of another function. -/
theorem admits_foldStatement {a : Statement} (ha : f.Contains a) {r r' : Running}
    (hr : L.Admits r.formula) (h : p.foldStatement f a r = .ok r') : L.Admits r'.formula := by
  obtain ⟨i, b, hb, hmem⟩ := ha
  have hexpr : ∀ e ∈ a.action.exprs, L.Admits e := fun e he =>
    hf.exprs e (Function.mem_exprs_of_action hb hmem he)
  have htarget : ∀ v ∈ a.action.targets, L.Var v := fun v hv =>
    hf.targets v (Function.mem_targets_of_action hb hmem hv)
  unfold Program.foldStatement at h
  cases hs : a.action with
  | assign v e =>
      rw [hs] at h hexpr
      obtain ⟨σ, hσ, h⟩ := bind_eq_ok_iff.1 h
      cases h
      exact hr.substAll ((hexpr e (by simp [Action.exprs])).assignment hσ)
  | store v k e =>
      rw [hs] at h hexpr htarget
      dsimp only at h
      split at h
      · next l elem hl helem =>
          split at h
          · cases h
          · cases h
            have hv : L.Var v := htarget v (by simp [Action.targets])
            -- the array is replaced by an update, which mentions the array and its length
            have hupdate : L.Admits (.update (.var v) k e (.var l)) := by
              refine admits_iff.2 ⟨trivial, ?_⟩
              simp only [Expr.children, List.forall_mem_cons, admits_var]
              exact ⟨hv, hexpr k (by simp [Action.exprs]), hexpr e (by simp [Action.exprs]),
                L.length hv hl, List.forall_mem_nil _⟩
            refine hr.substUnder (fun x d hx => ?_) []
            split at hx
            · cases hx
              exact hupdate
            · cases hx
      · cases h
  | call targets id args =>
      rw [hs] at h hexpr htarget
      exact admits_foldCall hp htarget hexpr hr h
  | assert c =>
      rw [hs] at h hexpr
      cases h
      exact (hexpr c (by simp [Action.exprs])).binary hr _
  | assume c =>
      rw [hs] at h hexpr
      cases h
      exact (hexpr c (by simp [Action.exprs])).binary hr _

include hp hf in
theorem admits_foldStatements {statements : List Statement}
    (hs : ∀ a ∈ statements, f.Contains a) {r r' : Running} (hr : L.Admits r.formula)
    (h : p.foldStatements f statements r = .ok r') : L.Admits r'.formula := by
  induction statements generalizing r' with
  | nil =>
      cases h
      exact hr
  | cons a rest ih =>
      obtain ⟨ha, hrest⟩ := List.forall_mem_cons.1 hs
      obtain ⟨r₁, hr₁, h⟩ := bind_eq_ok_iff.1 h
      exact admits_foldStatement hp hf ha (ih hrest hr₁) h

include hp hf in
/-- The obligation of a path is an annotation, an assertion, or the precondition of a callee with
the arguments in it. -/
theorem admits_obligation {q : BasicPath} (hq : p.IsBasicPath f q) : L.Admits q.obligation := by
  cases hq with
  | exit _ _ hb hk =>
      exact hf.exprs _ (Function.mem_exprs_of_annotation hb (by rw [hk]; rfl))
  | head _ _ hb hk =>
      exact hf.exprs _ (Function.mem_exprs_of_annotation hb (by rw [hk]; rfl))
  | @inside _ _ _ b front back a obligation kind hw hs hd =>
      obtain ⟨i, hb⟩ := hw.exists_block
      have hexpr : ∀ e ∈ a.action.exprs, L.Admits e := fun e he =>
        hf.exprs e (Function.mem_exprs_of_action hb (by simp [hs]) he)
      cases hd with
      | assertion ha => exact hexpr _ (by simp [ha, Action.exprs])
      | precondition ha hg hc _ =>
          have hmem := List.mem_of_getElem? hg
          refine ((hp _ hmem).exprs _ (Function.mem_exprs_of_precondition? hc)).substUnder
            (fun x r hr => ?_) []
          obtain ⟨q, hq, hr⟩ := exists_of_replacement hr
          refine (hexpr q.2 ?_).replaces hr
          rw [ha]
          exact (List.of_mem_zip hq).2

include hp in
/-- The condition of a path uses the names of the text, and fresh variables for them. This holds
of any lexicon that the functions of the program keep to. -/
theorem admits_condition (hv : p.validate = .ok ()) (hf : f ∈ p.functions) {q : BasicPath}
    (hq : q ∈ (f.paths p).toList) {vc : Expr} (hvc : p.condition f q = .ok vc) : L.Admits vc := by
  obtain ⟨m, hm, hfinds⟩ := Function.exists_finds hq
  have hbasic := Function.isBasicPath_of_finds (Function.checked_of_validate hv hf) hm hfinds
  have hfunction := hp f hf
  obtain ⟨r, hr, hvc⟩ := bind_eq_ok_iff.1 hvc
  cases hvc
  have hknown : L.Admits q.known := hfunction.exprs _ hbasic.known_mem
  exact hknown.binary (admits_foldStatements hp hfunction hbasic.contains
    (admits_obligation hp hfunction hbasic) hr) _

end Lexicon

end Pathwise
