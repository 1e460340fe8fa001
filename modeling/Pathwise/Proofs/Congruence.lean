import Pathwise.Verifier

/-!
# Pathwise.Proofs.Congruence

Two checkers compared through everything the verifier does with them.

The verifier uses its monad for results, for sequencing, and for the two operations of a checker.
So a relation between the computations of two monads that respects results and sequencing
(`Congruence`), and under which the operations of two checkers are related, also relates the
verifications with them. What such a relation says is up to its user.

It is the free theorem of the verifier's type, which cannot be had for nothing here and is proved
function by function. The monads need not be lawful. It is used to compare a checker with the same
checker that also keeps a record of its questions, and a checker on a backend with one that only
sees the formulas. The evaluator is compared with itself in the same way, by relations between
answers.

For the verification of functions alone it is enough that formulas are decided alike
(`Congruence.Decides`); for whole programs predicates have to be registered alike too.
-/

namespace Pathwise

/-- A relation between the computations of two monads that respects results and sequencing. It may
be any relation, so that an instance only has to show these two laws and what is special about its
checkers. -/
structure Congruence (m n : Type → Type) [Monad m] [Monad n] where
  Rel {α : Type} : m α → n α → Prop
  pure {α : Type} (a : α) : Rel (pure a) (pure a)
  bind {α β : Type} {x : m α} {y : n α} {g : α → m β} {h : α → n β} (hx : Rel x y)
    (hg : ∀ a, Rel (g a) (h a)) : Rel (x >>= g) (y >>= h)

namespace Congruence

variable {ε : Type} {m n : Type → Type} [Monad m] [Monad n]

/-- The two checkers decide formulas alike and word their errors alike. What they do with
predicates is left open. -/
structure Decides (R : Congruence m n) (c : Checker ε m) (d : Checker ε n) : Prop where
  check (e : Expr) : R.Rel (c.check e) (d.check e)
  message : c.message = d.message

variable {R : Congruence m n} {c : Checker ε m} {d : Checker ε n}

/-- An objection is made from the answer and the wording of errors only. -/
theorem Decides.objection (h : R.Decides c d) (answer : Except ε Validity) :
    c.objection answer = d.objection answer := by
  rcases answer with e | v
  · simp only [Checker.objection, h.message]
  · cases v <;> rfl

/-! ## The walk

The visitor of the verifier keeps a report on top of the checker's monad, so the relation has to
be lifted to computations with a layer of state. Through the walk it goes as through any program
that only sequences: no law of the two monads is used, and the two walks are compared step by
step, along the recursion. -/

/-- Computations with a layer of state are related if they are so from every state. The walk
through a function adds such a layer, for the report. -/
def stateT (R : Congruence m n) (S : Type) : Congruence (StateT S m) (StateT S n) where
  Rel x y := ∀ s, R.Rel (x.run s) (y.run s)
  pure a s := R.pure (a, s)
  bind hx hg s := R.bind (hx s) fun a => hg a.1 a.2

/-- What is related below is related with a layer of state on top that it does not touch. -/
theorem stateT_lift {α S : Type} {x : m α} {y : n α} (h : R.Rel x y) :
    (R.stateT S).Rel (liftM x) (liftM y) := fun _ => R.bind h fun _ => R.pure _

/-- The visitors of two checkers that decide alike are related. -/
theorem checkPath (h : R.Decides c d) (p : Program) (f : Function) (q : BasicPath) :
    (R.stateT FunctionReport).Rel (c.checkPath p f q) (d.checkPath p f q) := by
  unfold Checker.checkPath
  cases p.condition f q with
  | error e => exact (R.stateT _).pure _
  | ok vc =>
      refine (R.stateT _).bind (fun _ => R.pure _) fun _ => ?_
      refine (R.stateT _).bind (stateT_lift (h.check vc)) fun answer => ?_
      rw [h.objection answer]
      cases d.objection answer with
      | none => exact (R.stateT _).pure _
      | some o => exact (R.stateT _).bind (fun _ => R.pure _) fun _ => (R.stateT _).pure _

section Walk

variable {x : Visitor m} {y : Visitor n}

/-- A test of the answer of a visitor or of a part of the walk is passed alike. -/
theorem bind_flow {a : m (Except VerifyError Flow)} {b : n (Except VerifyError Flow)}
    {g : Except VerifyError Flow → m (Except VerifyError Flow)}
    {k : Except VerifyError Flow → n (Except VerifyError Flow)} (hab : R.Rel a b)
    (herror : ∀ e, R.Rel (g (.error e)) (k (.error e)))
    (hstop : R.Rel (g (.ok .stop)) (k (.ok .stop)))
    (hgo : R.Rel (g (.ok .goOn)) (k (.ok .goOn))) : R.Rel (a >>= g) (b >>= k) := by
  refine R.bind hab fun flow => ?_
  rcases flow with e | _ | _
  · exact herror e
  · exact hgo
  · exact hstop

/-- The loop over the statements of a block. -/
theorem walkInside (h : ∀ q, R.Rel (x q) (y q)) (p : Program) (r : Run) (b : Block)
    (before rest : List Statement) :
    R.Rel (p.walkInside x r b before rest) (p.walkInside y r b before rest) := by
  induction rest generalizing before with
  | nil => exact R.pure _
  | cons s rest ih =>
      unfold Program.walkInside
      cases p.obligation? s with
      | error e => exact R.pure _
      | ok o =>
          rcases o with _ | o
          · exact ih _
          · exact bind_flow (h _) (fun _ => R.pure _) (R.pure _) (ih _)

/-- The loop over the edges of a block. -/
theorem walkEdges (h : ∀ q, R.Rel (x q) (y q)) (f : Function) (r : Run) (b : Block)
    (ids : List BlockId) : R.Rel (f.walkEdges x r b ids) (f.walkEdges y r b ids) := by
  induction ids with
  | nil => exact R.pure _
  | cons id ids ih =>
      unfold Function.walkEdges
      cases f.arrival r b id with
      | error e => exact R.pure _
      | ok o =>
          rcases o with _ | q
          · exact ih
          · exact bind_flow (h q) (fun _ => R.pure _) (R.pure _) ih

/-- The recursion of the walk, by its own induction principle: one case for each way through one
of its three functions. -/
theorem walkFrom (h : ∀ q, R.Rel (x q) (y q)) (f : Function) (p : Program) (r : Run)
    (b : Block) : R.Rel (f.walkFrom p x r b) (f.walkFrom p y r b) := by
  -- the induction is that of the walk, with one statement for each of its three functions
  refine Function.walkFrom.induct f p x
    (fun r b => R.Rel (f.walkFrom p x r b) (f.walkFrom p y r b))
    (fun r ids => R.Rel (f.walkSuccessors p x r ids) (f.walkSuccessors p y r ids))
    (fun r b hmem => R.Rel (f.walkInto p x r b hmem) (f.walkInto p y r b hmem))
    ?deadEnd ?edges ?nil ?missing ?cons ?repeated ?entered r b
  case deadEnd =>
    intro r b hempty
    rw [Function.walkFrom, Function.walkFrom, if_pos hempty, if_pos hempty]
    exact R.pure _
  case edges =>
    intro r b hempty ih
    rw [Function.walkFrom, Function.walkFrom, if_neg hempty, if_neg hempty]
    exact bind_flow (walkEdges h f r b b.successors) (fun _ => R.pure _) (R.pure _) ih
  case nil =>
    intro r
    rw [Function.walkSuccessors, Function.walkSuccessors]
    exact R.pure _
  case missing =>
    intro r j ids hnone
    rw [Function.walkSuccessors, Function.walkSuccessors]
    split
    · exact R.pure _
    · next hsome => cases hnone.symm.trans hsome
  case cons =>
    intro r j ids c hc hbasic hhead hrest
    rw [Function.walkSuccessors, Function.walkSuccessors]
    split
    · exact R.pure _
    · next target htarget =>
        cases hc.symm.trans htarget
        refine bind_flow ?_ (fun _ => R.pure _) (R.pure _) hrest
        split
        · next hk => exact hbasic hk
        · next invariant _ hk =>
            split
            · exact R.pure _
            · next ho => exact hhead invariant ho
        · exact R.pure _
  case repeated =>
    intro r b hmem e herror
    rw [Function.walkInto, Function.walkInto, herror]
    exact R.pure _
  case entered =>
    intro r b hmem r' hr' ih
    rw [Function.walkInto, Function.walkInto, hr']
    exact bind_flow (walkInside h p r' b [] b.statements) (fun _ => R.pure _) (R.pure _) ih

/-- Visitors that answer alike are taken through a function alike. This holds for every
congruence, since the walk does nothing but call the visitor and go on. -/
theorem walk (h : ∀ q, R.Rel (x q) (y q)) (f : Function) (p : Program) :
    R.Rel (f.walk p x) (f.walk p y) := by
  unfold Function.walk
  cases f.block? f.entry with
  | none => exact R.pure _
  | some entry =>
      cases hk : entry.kind with
      | precondition condition ranking =>
          simp only [hk]
          split
          · exact R.pure _
          · exact walkFrom h f p _ entry
      | _ =>
          simp only [hk]
          exact R.pure _

end Walk

/-! ## The verifier

The remaining functions of the verifier are loops over the walk and need no recursion of their own
beyond lists. -/

theorem verifyFunction (h : R.Decides c d) (p : Program) (f : Function) :
    R.Rel (c.verifyFunction p f) (d.verifyFunction p f) := by
  have hwalk := walk (fun q => checkPath h p f q) f p
  exact R.bind (hwalk ⟨f.name, .verified, 0, none⟩) fun _ => R.pure _

theorem verifyAll (h : R.Decides c d) (p : Program) (keepGoing : Bool) (fs : List Function) :
    R.Rel (c.verifyAll p keepGoing fs) (d.verifyAll p keepGoing fs) := by
  induction fs with
  | nil => exact R.pure _
  | cons f fs ih =>
      refine R.bind (verifyFunction h p f) fun report => ?_
      cases report with
      | error e => exact R.pure _
      | ok report =>
          dsimp only
          split
          · exact R.pure _
          · refine R.bind ih fun reports => ?_
            cases reports <;> exact R.pure _

theorem defineAll (h : ∀ q, R.Rel (c.define q) (d.define q)) (qs : List Predicate) :
    R.Rel (c.defineAll qs) (d.defineAll qs) := by
  induction qs with
  | nil => exact R.pure _
  | cons q qs ih =>
      refine R.bind (h q) fun answer => ?_
      cases answer with
      | error e => exact R.pure _
      | ok u => exact ih

/-- Checkers that also register predicates alike verify programs alike. -/
theorem verify (h : R.Decides c d) (hdefine : ∀ q, R.Rel (c.define q) (d.define q))
    (p : Program) (keepGoing : Bool) : R.Rel (c.verify p keepGoing) (d.verify p keepGoing) := by
  unfold Checker.verify
  cases p.validate with
  | error e => exact R.pure _
  | ok u =>
      refine R.bind (defineAll hdefine p.predicates) fun accepted => ?_
      split
      · exact R.bind (verifyAll h p keepGoing p.functions) fun _ => R.pure _
      · exact R.pure _

end Congruence

end Pathwise
