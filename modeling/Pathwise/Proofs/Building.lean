import Pathwise.Proofs.Interning
import Pathwise.Proofs.Revisions
import Pathwise.Proofs.Validation

/-!
# Pathwise.Proofs.Building

What a builder has made of a program, after any calls.

The calls on a builder may come in any order and with any arguments, so their arguments need not
fit the program. `Builder.Effect` says once what a call can do: it is refused and changes nothing,
or it does one of a few small things to one function. The graphs of functions stay in order under
each of them, and so do the table of signatures and the numbers of the statements
(`Builder.Consistent`). What remains to be wrong when the program is validated in the end are
types, names and the shape of the graphs, and not the records of blocks, edges and signatures
(`ProgramError.isStructural`).

The argument is that of a state machine. `Builder.effect_call` classifies the calls,
`Builder.Effect.consistent` is the step that keeps the invariant, and `Builder.Consistent.callAll`
is the run. That a change to one function keeps its records in order is known from the module on
revisions; here it is only put into the program.

Calls that fail are part of the sequence. They leave the program as it is and the first of them is
remembered, so that the error comes out in the end although the caller did not look
(`Builder.failure_callAll`).
-/

namespace Pathwise

/-! ## Calls

The calls as data, with the reason for which each may be refused. `refusal?` is written
independently of what the builder does and is compared with it case by case. -/

namespace Builder

/-- A call on a builder. Calls on the body of a function name the function. -/
inductive Call where
  | declare (name : String) (parameters results : List Variable) (pre post : Expr)
  | predicate (name : String) (parameters : List Variable) (body : Expr)
  | ends (id : FunctionId)
  | basicBlock (id : FunctionId)
  | loopHead (id : FunctionId) (invariant : Expr) (ranking : List Expr)
  | edge (id : FunctionId) (source target : BlockId)
  | add (id : FunctionId) (block : BlockId) (action : Action)
  | rank (id : FunctionId) (block : BlockId) (ranking : List Expr)

def call (b : Builder) : Call → Builder
  | .declare name parameters results pre post => (b.declare name parameters results pre post).2
  | .predicate name parameters body => b.predicate name parameters body
  | .ends id => (b.ends id).2
  | .basicBlock id => (b.addBlock id .basic).2
  | .loopHead id invariant ranking => (b.addBlock id (.loopHead invariant ranking)).2
  | .edge id source target => b.edge id source target
  | .add id block action => b.add id block action
  | .rank id block ranking => b.rank id block ranking

def callAll (b : Builder) (calls : List Call) : Builder := calls.foldl call b

/-- The function that a call is about, unless it is about the program. -/
def Call.subject? : Call → Option FunctionId
  | .declare .. => none
  | .predicate .. => none
  | .ends id => some id
  | .basicBlock id => some id
  | .loopHead id _ _ => some id
  | .edge id _ _ => some id
  | .add id _ _ => some id
  | .rank id _ _ => some id

/-- What is wrong with a call on the body of a function. Of an edge both ends are looked at, the
source first. -/
def Call.defect? (f : Function) : Call → Option ProgramError
  | .edge _ source target =>
    if f.blocks.length ≤ source then some (.unknownBlock f.name source)
    else if f.blocks.length ≤ target then some (.unknownBlock f.name target)
    else none
  | .add _ block _ =>
    if f.blocks.length ≤ block then some (.unknownBlock f.name block) else none
  | .rank _ block _ =>
    match f.block? block with
    | none => some (.unknownBlock f.name block)
    | some t =>
      if t.kind.isPrecondition || t.isLoopHead then none
      else some (.malformed f.name (.cannotRank block))
  | _ => none

/-- Why a call fails, if it does: there is no such function or block, or the block cannot
carry a ranking function. -/
def refusal? (b : Builder) (c : Call) : Option ProgramError :=
  c.subject?.bind fun id =>
    match b.program.function? id with
    | none => some (.unknownFunction id)
    | some f => c.defect? f

/-- The insertion of a statement. -/
structure Insertion where
  function : FunctionId
  block : BlockId
  action : Action

/-- The insertion that a call asks for. -/
def Call.insertion? : Call → Option Insertion
  | .add id block action => some ⟨id, block, action⟩
  | _ => none

/-- The insertions of statements that succeed in a sequence of calls, in order. Calls that fail
are left out, and have no part in the numbering. -/
def insertions (b : Builder) : List Call → List Insertion
  | [] => []
  | c :: cs =>
    (if (b.refusal? c).isNone then c.insertion?.toList else []) ++ (b.call c).insertions cs

/-- The failure of the first call of a sequence that fails. -/
def firstRefusal? (b : Builder) : List Call → Option ProgramError
  | [] => none
  | c :: cs => b.refusal? c <|> (b.call c).firstRefusal? cs

/-- What a call can do to a builder: it fails, or it changes something. The cases are those of the
calls, with what they require of the program so far. -/
inductive Effect (b : Builder) : Call → Option ProgramError → Builder → Prop where
  | refused (c : Call) (e : ProgramError) : Effect b c (some e) (b.fail e)
  | declared (name : String) (parameters results : List Variable) (pre post : Expr) :
      Effect b (.declare name parameters results pre post) none
        (b.declare name parameters results pre post).2
  | defined (name : String) (parameters : List Variable) (body : Expr) :
      Effect b (.predicate name parameters body) none (b.predicate name parameters body)
  | looked (id : FunctionId) : Effect b (.ends id) none b
  | revised {c : Call} {id : FunctionId} {f f' : Function} (hc : c.insertion? = none)
      (hf : b.program.function? id = some f) (hr : f'.Revises f []) :
      Effect b c none (b.setFunction id f')
  | added {id : FunctionId} {block : BlockId} {action : Action} {f : Function}
      (hf : b.program.function? id = some f) (hi : block < f.blocks.length) :
      Effect b (.add id block action) none
        { b.setFunction id (f.withStatement block ⟨b.statements + 1, action⟩) with
          statements := b.statements + 1 }

variable {b b' : Builder} {c : Call} {o : Option ProgramError} {id : FunctionId} {f : Function}

/-- If the function exists, a call fails for what is wrong with it. -/
theorem refusal?_of_function? (hs : c.subject? = some id) (hf : b.program.function? id = some f) :
    b.refusal? c = c.defect? f := by
  rw [refusal?, hs, Option.bind_some, hf]

theorem refusal?_of_none (hs : c.subject? = some id) (hf : b.program.function? id = none) :
    b.refusal? c = some (.unknownFunction id) := by
  rw [refusal?, hs, Option.bind_some, hf]

theorem body_of_none {α : Type} {other : α} {work : Function → α × Builder}
    (hf : b.program.function? id = none) :
    b.body id other work = (other, b.fail (.unknownFunction id)) := by
  rw [body, hf]

theorem body_of_some {α : Type} {other : α} {work : Function → α × Builder}
    (hf : b.program.function? id = some f) : b.body id other work = work f := by
  rw [body, hf]

theorem call_of_none (hs : c.subject? = some id) (hf : b.program.function? id = none) :
    b.call c = b.fail (.unknownFunction id) := by
  cases c <;> cases hs <;>
    simp only [call, ends, addBlock, edge, add, rank, body_of_none hf]

/-- An edge is recorded at both ends, if both blocks exist. -/
theorem effect_edge {source target : BlockId} (hf : b.program.function? id = some f) :
    Effect b (.edge id source target) (Call.defect? f (.edge id source target))
      (b.edge id source target) := by
  rw [edge, body_of_some hf, Call.defect?]
  by_cases hs : source < f.blocks.length
  · rw [if_neg (Nat.not_le.2 hs), if_pos hs]
    by_cases ht : target < f.blocks.length
    · rw [if_neg (Nat.not_le.2 ht), if_pos ht]
      exact .revised rfl hf (Function.revises_withEdge hs ht)
    · rw [if_pos (Nat.not_lt.1 ht), if_neg ht]
      exact .refused _ _
  · rw [if_pos (Nat.not_lt.1 hs), if_neg hs]
    exact .refused _ _

/-- A statement gets the next number, if its block exists. -/
theorem effect_add {block : BlockId} {action : Action} (hf : b.program.function? id = some f) :
    Effect b (.add id block action) (Call.defect? f (.add id block action))
      (b.add id block action) := by
  rw [add, body_of_some hf, Call.defect?]
  by_cases hi : block < f.blocks.length
  · rw [if_neg (Nat.not_le.2 hi), if_pos hi]
    exact .added hf hi
  · rw [if_pos (Nat.not_lt.1 hi), if_neg hi]
    exact .refused _ _

/-- A ranking function is given to an entry or to a loop head. -/
theorem effect_rank {block : BlockId} {ranking : List Expr}
    (hf : b.program.function? id = some f) :
    Effect b (.rank id block ranking) (Call.defect? f (.rank id block ranking))
      (b.rank id block ranking) := by
  rw [rank, body_of_some hf, Call.defect?]
  cases ht : f.block? block with
  | none => exact .refused _ _
  | some t =>
      cases hk : t.kind.rank? ranking with
      | none =>
          have hcannot : (t.kind.isPrecondition || t.isLoopHead) = false := by
            rw [← t.isSome_rank? ranking, hk, Option.isSome_none]
          simp only [hk, hcannot, Bool.false_eq_true, if_false]
          exact .refused _ _
      | some kind =>
          have hcan : (t.kind.isPrecondition || t.isLoopHead) = true := by
            rw [← t.isSome_rank? ranking, hk, Option.isSome_some]
          simp only [hk, hcan, if_true]
          exact .revised rfl hf (Function.revises_withKind ht hk)

/-- What a call does, and whether it fails. All that is shown about calls from here on goes by the
cases of `Effect`. -/
theorem effect_call (b : Builder) (c : Call) : Effect b c (b.refusal? c) (b.call c) := by
  cases hs : c.subject? with
  | none =>
      have hnone : b.refusal? c = none := by rw [refusal?, hs, Option.bind_none]
      rw [hnone]
      cases c with
      | declare name parameters results pre post => exact .declared name parameters results pre post
      | predicate name parameters body => exact .defined name parameters body
      | _ => cases hs
  | some id =>
      cases hf : b.program.function? id with
      | none =>
          rw [refusal?_of_none hs hf, call_of_none hs hf]
          exact .refused c _
      | some f =>
          rw [refusal?_of_function? hs hf]
          cases c with
          | declare => cases hs
          | predicate => cases hs
          | ends =>
              cases hs
              rw [call, ends, body_of_some hf]
              exact .looked id
          | basicBlock =>
              cases hs
              rw [call, addBlock, body_of_some hf]
              exact .revised rfl hf (f.revises_withBlock rfl rfl)
          | loopHead =>
              cases hs
              rw [call, addBlock, body_of_some hf]
              exact .revised rfl hf (f.revises_withBlock rfl rfl)
          | edge =>
              cases hs
              exact effect_edge hf
          | add =>
              cases hs
              exact effect_add hf
          | rank =>
              cases hs
              exact effect_rank hf

/-! ## Runs

The invariant, with the list of insertions that have succeeded. Statements are numbered in the
order of insertion across all functions, which is why the list is part of it and not of a
function. -/

/-- The program of a builder is in order after the insertions of a list. Their numbers are
their places in the list, counted from one, and the statements of the program have no other
numbers and none of them twice. -/
structure Consistent (b : Builder) (ins : List Insertion) : Prop where
  built : ∀ f ∈ b.program.functions, f.Built
  signature : ∀ f ∈ b.program.functions, b.program.types.get? f.sig =
    some ⟨f.parameters.map Variable.ty, f.results.map Variable.ty⟩
  predicate : ∀ q ∈ b.program.predicates, b.program.types.get? q.sig =
    some (.predicate (q.parameters.map Variable.ty))
  counter : b.statements = ins.length
  ordinals : b.program.ordinals.Perm (List.range' 1 ins.length)
  inserted : ∀ {k x}, ins[k]? = some x → ∃ f t, b.program.function? x.function = some f ∧
    f.block? x.block = some t ∧ ⟨k + 1, x.action⟩ ∈ t.statements

theorem consistent_new : Consistent {} [] where
  built _ hf := by cases hf
  signature _ hf := by cases hf
  predicate _ hq := by cases hq
  counter := rfl
  ordinals := .refl _
  inserted hx := by cases hx

variable {ins : List Insertion}

theorem Consistent.fail (h : b.Consistent ins) (e : ProgramError) : (b.fail e).Consistent ins :=
  ⟨h.built, h.signature, h.predicate, h.counter, h.ordinals, h.inserted⟩

/-- A new function has its two ends, and its signature is in the table. -/
theorem Consistent.declare (h : b.Consistent ins) (name : String)
    (parameters results : List Variable) (pre post : Expr) :
    (b.declare name parameters results pre post).2.Consistent ins where
  built f hf := by
    rcases List.mem_append.1 hf with hf | hf
    · exact h.built f hf
    · rw [List.mem_singleton.1 hf]
      exact Function.built_declared
  signature f hf := by
    rcases List.mem_append.1 hf with hf | hf
    · exact SignatureTable.get?_intern_of_eq_some (h.signature f hf)
    · rw [List.mem_singleton.1 hf]
      exact SignatureTable.get?_intern_self _ _
  predicate q hq := SignatureTable.get?_intern_of_eq_some (h.predicate q hq)
  counter := h.counter
  ordinals := by
    have hsame : (b.declare name parameters results pre post).2.program.ordinals =
        b.program.ordinals := by
      simp [Builder.declare, Program.ordinals, Function.ordinals, Block.new]
    rw [hsame]
    exact h.ordinals
  inserted hx := by
    obtain ⟨f, t, hf, ht, hmem⟩ := h.inserted hx
    exact ⟨f, t, (List.getElem?_append_left (List.getElem?_eq_some_iff.1 hf).1).trans hf, ht, hmem⟩

/-- A new predicate has its signature in the table. Functions keep theirs. -/
theorem Consistent.define (h : b.Consistent ins) (name : String) (parameters : List Variable)
    (body : Expr) : (b.predicate name parameters body).Consistent ins where
  built := h.built
  signature f hf := SignatureTable.get?_intern_of_eq_some (h.signature f hf)
  predicate q hq := by
    rcases List.mem_append.1 hq with hq | hq
    · exact SignatureTable.get?_intern_of_eq_some (h.predicate q hq)
    · rw [List.mem_singleton.1 hq]
      exact SignatureTable.get?_intern_self _ _
  counter := h.counter
  ordinals := h.ordinals
  inserted := h.inserted

theorem function?_setFunction (hf : b.program.function? id = some f) (f' : Function)
    (id' : FunctionId) : (b.setFunction id f').program.function? id' =
      if id = id' then some f' else b.program.function? id' := by
  have hlt := (List.getElem?_eq_some_iff.1 hf).1
  rw [Program.function?, setFunction, List.getElem?_set]
  by_cases h : id = id'
  · rw [if_pos h, if_pos h, if_pos (h ▸ hlt)]
  · rw [if_neg h, if_neg h]
    rfl

/-- A function may be revised, together with the counter and the list of insertions. All calls on
bodies are covered by this, and each has to show only what it adds. -/
theorem Consistent.revise (h : b.Consistent ins) {f' : Function} {more : List Nat}
    {ins' : List Insertion} {n : Nat} (hf : b.program.function? id = some f)
    (hr : f'.Revises f more) (hn : n = (ins ++ ins').length)
    (hmore : (more ++ List.range' 1 ins.length).Perm (List.range' 1 (ins ++ ins').length))
    (hnew : ∀ {k x}, ins'[k]? = some x → x.function = id ∧
      ∃ t, f'.block? x.block = some t ∧ ⟨ins.length + k + 1, x.action⟩ ∈ t.statements) :
    Consistent { b.setFunction id f' with statements := n } (ins ++ ins') where
  built g hg := by
    rcases List.mem_or_eq_of_mem_set hg with hg | rfl
    · exact h.built g hg
    · exact hr.built (h.built f (List.mem_of_getElem? hf))
  signature g hg := by
    rcases List.mem_or_eq_of_mem_set hg with hg | rfl
    · exact h.signature g hg
    · rw [hr.sig, hr.parameters, hr.results]
      exact h.signature f (List.mem_of_getElem? hf)
  predicate := h.predicate
  counter := hn
  ordinals := by
    -- the ordinals of the function gain the new ones, and the others stay
    have hset : ((b.program.functions.set id f').flatMap Function.ordinals).Perm
        (more ++ b.program.ordinals) := by
      rw [List.set_eq_modify]
      exact flatMap_modify_perm hf hr.ordinals
    exact (hset.trans (h.ordinals.append_left more)).trans hmore
  inserted {k x} hx := by
    have hset := function?_setFunction hf f' x.function
    rw [List.getElem?_append] at hx
    split at hx
    -- an earlier insertion is found where it was, also in the function that is revised
    · obtain ⟨g, t, hg, ht, hmem⟩ := h.inserted hx
      by_cases hid : id = x.function
      · rw [if_pos hid] at hset
        rw [← hid, hf] at hg
        cases hg
        obtain ⟨t', ht', hsub⟩ := hr.keeps ht
        exact ⟨f', t', hset, ht', hsub hmem⟩
      · rw [if_neg hid] at hset
        exact ⟨g, t, hset.trans hg, ht, hmem⟩
    · next hk =>
        obtain ⟨hid, t, ht, hmem⟩ := hnew hx
        rw [if_pos hid.symm] at hset
        rw [Nat.add_sub_cancel' (Nat.not_lt.1 hk)] at hmem
        exact ⟨f', t, hset, ht, hmem⟩

theorem mem_withStatement {block : BlockId} (hi : block < f.blocks.length) (s : Statement) :
    ∃ t, (f.withStatement block s).block? block = some t ∧ s ∈ t.statements := by
  obtain ⟨t, ht⟩ := Function.exists_block? hi
  rw [Function.withStatement, Function.block?_modifyBlock, ht]
  refine ⟨_, rfl, ?_⟩
  simp only [if_true]
  exact List.mem_append_right _ List.mem_cons_self

/-- A call keeps the program in order, and inserts what it says if it does not fail. Failed calls
leave the program as it is and are not among the insertions. -/
theorem Effect.consistent (he : Effect b c o b') (h : b.Consistent ins) :
    b'.Consistent (ins ++ if o.isNone then c.insertion?.toList else []) := by
  cases he with
  | refused c e =>
      rw [Option.isNone_some, if_neg Bool.false_ne_true, List.append_nil]
      exact h.fail e
  | declared name parameters results pre post =>
      simp only [Call.insertion?, Option.toList_none, ite_self, List.append_nil]
      exact h.declare name parameters results pre post
  | defined name parameters body =>
      simp only [Call.insertion?, Option.toList_none, ite_self, List.append_nil]
      exact h.define name parameters body
  | looked id =>
      simp only [Call.insertion?, Option.toList_none, ite_self, List.append_nil]
      exact h
  | revised hc hf hr =>
      rw [hc, Option.toList_none, ite_self]
      refine h.revise hf hr ?_ ?_ (fun hx => by cases hx)
      · rw [List.append_nil]
        exact h.counter
      · rw [List.append_nil, List.nil_append]
  | @added id block action f hf hi =>
      rw [Option.isNone_none, if_pos rfl, Call.insertion?, Option.toList_some]
      refine h.revise hf (Function.revises_withStatement hi) ?_ ?_ ?_
      · rw [List.length_append, List.length_singleton, h.counter]
      -- the new ordinal is the next number
      · rw [List.length_append, List.length_singleton, List.range'_1_concat, h.counter,
          Nat.add_comm 1]
        exact List.perm_append_comm
      · intro k x hx
        cases k with
        | zero =>
            cases hx
            rw [h.counter]
            exact ⟨rfl, mem_withStatement hi _⟩
        | succ k => cases hx

/-- The program is in order after all calls, whether some of them have failed or not. By induction
on the calls, with one lemma for each kind. -/
theorem Consistent.callAll (h : b.Consistent ins) (calls : List Call) :
    (b.callAll calls).Consistent (ins ++ b.insertions calls) := by
  induction calls generalizing b ins with
  | nil =>
      rw [insertions, List.append_nil]
      exact h
  | cons c cs ih =>
      rw [insertions, ← List.append_assoc]
      exact ih ((effect_call b c).consistent h)

/-! ## Failures

Of several failures the first one is kept. Nothing else of a builder depends on whether a call has
failed. -/

theorem Effect.failure (he : Effect b c o b') : b'.failure = (b.failure <|> o) := by
  have hnone : (b.failure <|> none) = b.failure := by cases b.failure <;> rfl
  cases he with
  | refused => rfl
  | declared => exact hnone.symm
  | defined => exact hnone.symm
  | looked => exact hnone.symm
  | revised => exact hnone.symm
  | added => exact hnone.symm

/-- A call that fails changes neither the program nor the counter. -/
theorem call_of_refusal? {e : ProgramError} (h : b.refusal? c = some e) :
    (b.call c).program = b.program ∧ (b.call c).statements = b.statements := by
  have he := effect_call b c
  generalize b.call c = b' at he ⊢
  rw [h] at he
  cases he
  exact ⟨rfl, rfl⟩

/-- After any calls, the failure of a builder is that of the first call that failed. Later ones
are carried out as far as they can be, but are not reported. -/
theorem failure_callAll (b : Builder) (calls : List Call) :
    (b.callAll calls).failure = (b.failure <|> b.firstRefusal? calls) := by
  induction calls generalizing b with
  | nil =>
      rw [firstRefusal?, callAll, List.foldl_nil]
      cases b.failure <;> rfl
  | cons c cs ih =>
      refine (ih (b.call c)).trans ?_
      rw [(effect_call b c).failure, firstRefusal?]
      cases b.failure <;> rfl

end Builder

/-! ## Validation of what was built

Validation checks the records and everything else in one go. A check is benign if it cannot fail
because of the records, and this is preserved by the combinators that checks are made of, so the
proof follows the text of the checks. -/

/-- The defects of the records of a program: blocks that do not exist or are not where their
labels say, edges recorded at one end only, entries and exits besides those of the function,
and signatures that are not those of the parameters and results. -/
def ProgramError.isStructural : ProgramError → Bool
  | .unknownBlock _ _ => true
  | .malformed _ (.mislabelled _ _) => true
  | .malformed _ (.missingPredecessor _ _) => true
  | .malformed _ (.missingSuccessor _ _) => true
  | .malformed _ (.strayPrecondition _) => true
  | .malformed _ (.strayPostcondition _) => true
  | .malformed _ (.unknownSignature _) => true
  | .malformed _ (.signatureMismatch _) => true
  | .malformedPredicate _ (.unknownSignature _) => true
  | .malformedPredicate _ (.signatureMismatch _) => true
  | _ => false

/-- A check that finds no defect of the records. It may fail otherwise, for instance because of a
type. -/
def Benign {α : Type} (x : Except ProgramError α) : Prop :=
  ∀ e, x = .error e → e.isStructural = false

namespace Benign

variable {α β : Type} {p : Program} {f : Function}

theorem ok (a : α) : Benign (.ok a) := fun _ h => by cases h

theorem error {e : ProgramError} (he : e.isStructural = false) :
    Benign (.error e : Except ProgramError α) := fun _ h => by
  cases h
  exact he

/-- Checks in a row are benign if each of them is, given that those before it have passed. -/
theorem bind {x : Except ProgramError α} {g : α → Except ProgramError β} (hx : Benign x)
    (hg : ∀ a, x = .ok a → Benign (g a)) : Benign (x >>= g) := by
  cases x with
  | error e => exact fun e' h => hx e' (by cases h; rfl)
  | ok a => exact hg a rfl

theorem forM {l : List α} {g : α → Except ProgramError Unit} (h : ∀ a ∈ l, Benign (g a)) :
    Benign (l.forM g) := by
  induction l with
  | nil => exact ok ()
  | cons a l ih =>
      obtain ⟨ha, hl⟩ := List.forall_mem_cons.1 h
      exact ha.bind fun _ _ => ih hl

theorem require_of_true {c : Bool} {e : ProgramError} (h : c = true) : Benign (require c e) := by
  rw [require_eq_ok_iff.2 h]
  exact ok ()

/-- A condition may fail if that is no defect of the records. -/
theorem require {c : Bool} {e : ProgramError} (he : e.isStructural = false) :
    Benign (require c e) := by
  unfold Pathwise.require
  split
  · exact ok ()
  · exact error he

theorem getOr_of_some {x : Option α} {e : ProgramError} {a : α} (h : x = some a) :
    Benign (getOr x e) := by
  rw [getOr_eq_ok_iff.2 h]
  exact ok a

theorem getOr {x : Option α} {e : ProgramError} (he : e.isStructural = false) :
    Benign (getOr x e) := by
  cases x with
  | none => exact error he
  | some a => exact ok a

theorem expectType {e : Expr} {t : Ty} {context : TypeContext} :
    Benign (p.expectType f e t context) := by
  unfold Program.expectType
  cases p.check e with
  | error fault => exact error rfl
  | ok found => exact require rfl

theorem validateStatement (s : Statement) : Benign (p.validateStatement f s) := by
  unfold Program.validateStatement
  cases s.action with
  | assign target value => exact (require rfl).bind fun _ _ => expectType
  | store array index value =>
      exact (getOr rfl).bind fun _ _ => expectType.bind fun _ _ => expectType
  | call targets id args =>
      refine (getOr rfl).bind fun callee _ => (require rfl).bind fun _ _ =>
        (require rfl).bind fun _ _ => (forM fun _ _ => expectType).bind fun _ _ => ?_
      exact forM fun _ _ => (require rfl).bind fun _ _ => require rfl
  | assert condition => exact expectType
  | assume condition => exact expectType

theorem validateReachability : Benign f.validateReachability := by
  unfold Function.validateReachability
  dsimp only
  split
  · exact error rfl
  · exact ok ()

/-- The records of an edge agree, so it is found at its other end. A builder writes both at once.
-/
theorem validateEdges (hb : f.Built) {i : BlockId} {b : Block} (hi : f.block? i = some b) :
    Benign (f.validateEdges b) := by
  have hid := hb.label hi
  refine (forM fun j hj => ?_).bind fun _ _ => forM fun j hj => ?_
  · obtain ⟨t, ht⟩ := Function.exists_block? (hb.successor hi hj)
    refine (getOr_of_some ht).bind fun t' ht' => require_of_true (decide_eq_true ?_)
    rw [getOr_eq_ok_iff, ht] at ht'
    cases ht'
    rw [hid, ← List.count_pos_iff, ← hb.paired hi ht]
    exact List.count_pos_iff.2 hj
  · obtain ⟨s, hs⟩ := Function.exists_block? (hb.predecessor hi hj)
    refine (getOr_of_some hs).bind fun s' hs' => require_of_true (decide_eq_true ?_)
    rw [getOr_eq_ok_iff, hs] at hs'
    cases hs'
    rw [hid, ← List.count_pos_iff, hb.paired hs hi]
    exact List.count_pos_iff.2 hj

/-- Only the two ends carry a contract, and they are where the function says. -/
theorem validateKind (hb : f.Built) {i : BlockId} {b : Block} (hi : f.block? i = some b) :
    Benign (p.validateKind f b) := by
  have hid := hb.label hi
  unfold Program.validateKind
  cases hk : b.kind with
  | precondition condition ranking =>
      have hzero : i = 0 := (hb.precondition hi).1 (by rw [hk]; rfl)
      refine (require_of_true (decide_eq_true ?_)).bind fun _ _ =>
        expectType.bind fun _ _ => forM fun _ _ => expectType
      rw [hid, hzero, hb.entry]
  | postcondition condition =>
      have hone : i = 1 := (hb.postcondition hi).1 (by rw [hk]; rfl)
      refine (require_of_true (decide_eq_true ?_)).bind fun _ _ => expectType
      rw [hid, hone, hb.exit]
  | basic => exact ok ()
  | loopHead invariant ranking =>
      exact expectType.bind fun _ _ => forM fun _ _ => expectType

/-- There are two ends, though they may be connected wrongly. -/
theorem validateEnds (hb : f.Built) : Benign f.validateEnds := by
  obtain ⟨entry, hentry⟩ := Function.exists_block? (Nat.lt_of_lt_of_le Nat.zero_lt_two hb.two_le)
  obtain ⟨exit, hexit⟩ := Function.exists_block? hb.two_le
  rw [← hb.entry] at hentry
  rw [← hb.exit] at hexit
  unfold Function.validateEnds
  refine (getOr_of_some hentry).bind fun entry' _ => ?_
  dsimp only
  split
  · refine (ok _).bind fun _ _ => (require rfl).bind fun _ _ =>
      (getOr_of_some hexit).bind fun exit' _ => ?_
    split
    · exact (ok _).bind fun _ _ => (require rfl).bind fun _ _ => require rfl
    · exact (error rfl).bind fun _ h => by cases h
  · exact (error rfl).bind fun _ h => by cases h

/-- The same for a function as a whole, with its signature. -/
theorem validateFunction (hb : f.Built) (hs : p.types.get? f.sig =
    some ⟨f.parameters.map Variable.ty, f.results.map Variable.ty⟩) :
    Benign (p.validateFunction f) := by
  unfold Program.validateFunction
  refine (getOr_of_some hs).bind fun sig hsig => ?_
  rw [getOr_eq_ok_iff, hs] at hsig
  cases hsig
  refine (require_of_true (by simp)).bind fun _ _ => (forM fun q hq => ?_).bind fun _ _ =>
    (validateEnds hb).bind fun _ _ => validateReachability
  have hi : f.block? q.2 = some q.1 := List.mk_mem_zipIdx_iff_getElem?.1 hq
  refine (require_of_true (decide_eq_true (hb.label hi))).bind fun _ _ =>
    (validateEdges hb hi).bind fun _ _ => (validateKind hb hi).bind fun _ _ => ?_
  exact forM fun s _ => validateStatement s

theorem validatePredicate {q : Predicate}
    (hs : p.types.get? q.sig = some (.predicate (q.parameters.map Variable.ty))) :
    Benign (p.validatePredicate q) := by
  unfold Program.validatePredicate
  refine (getOr_of_some hs).bind fun sig hsig => ?_
  rw [getOr_eq_ok_iff, hs] at hsig
  cases hsig
  refine (require_of_true (by simp [Signature.predicate])).bind fun _ _ => ?_
  dsimp only
  split
  · exact (error rfl).bind fun _ h => by cases h
  · refine (require rfl).bind fun _ _ => (require rfl).bind fun _ _ => ?_
    split
    · exact error rfl
    · exact ok ()

end Benign

/-- Validation finds no defect of the records in a program that was built. What it may find is
what a builder does not check, such as types or missing edges. -/
theorem Builder.Consistent.benign {b : Builder} {ins : List Builder.Insertion}
    (h : b.Consistent ins) : Benign b.program.validate := by
  unfold Program.validate
  dsimp only
  split
  · exact (Benign.error rfl).bind fun _ h => by cases h
  · refine (Benign.ok ()).bind fun _ _ =>
      (Benign.forM fun q hq => .validatePredicate (h.predicate q hq)).bind fun _ _ => ?_
    exact Benign.forM fun f hf => .validateFunction (h.built f hf) (h.signature f hf)

theorem Builder.finish_of_failure {b : Builder} {e : ProgramError} (h : b.failure = some e) :
    b.finish = .error e := by
  rw [finish, h]

theorem Builder.finish_of_none {b : Builder} (h : b.failure = none) :
    b.finish = b.program.validate.map fun _ => b.program := by
  rw [finish, h]
  cases b.program.validate <;> rfl

/-- Whatever calls are made on a new builder, with whatever arguments, its program is in order:
the records of its functions and signatures are consistent, and the successful insertions of
statements are numbered from one in the order of the calls. A call that fails, for one of the
reasons `refusal?`, leaves program and counter as they are, and its failure is recorded if it
is the first. At the end comes the first failure, and otherwise what validation says, which is
then not about the records. -/
theorem building_keeps_records (calls : List Builder.Call) :
    let b := Builder.callAll {} calls
    b.Consistent (Builder.insertions {} calls) ∧
      (∀ c, (b.call c).failure = (b.failure <|> b.refusal? c)) ∧
      (∀ c e, b.refusal? c = some e →
        (b.call c).program = b.program ∧ (b.call c).statements = b.statements) ∧
      (∀ e, Builder.firstRefusal? {} calls = some e → b.finish = .error e) ∧
      (Builder.firstRefusal? {} calls = none →
        b.finish = b.program.validate.map fun _ => b.program) ∧
      ∀ e, b.program.validate = .error e → e.isStructural = false := by
  intro b
  have hconsistent : b.Consistent (Builder.insertions {} calls) :=
    Builder.consistent_new.callAll calls
  have hfailure : b.failure = Builder.firstRefusal? {} calls := Builder.failure_callAll {} calls
  refine ⟨hconsistent, fun c => (Builder.effect_call b c).failure,
    fun c e => Builder.call_of_refusal?, fun e he => ?_, fun hnone => ?_, hconsistent.benign⟩
  · exact Builder.finish_of_failure (hfailure.trans he)
  · exact Builder.finish_of_none (hfailure.trans hnone)

end Pathwise
