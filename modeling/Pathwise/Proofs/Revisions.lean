import Mathlib.Data.List.Nodup
import Pathwise.Program.Builder

/-!
# Pathwise.Proofs.Revisions

Small changes of a function that keep its records in order.

A function that is being built gets blocks, edges, statements and ranking functions, one at a
time. `Function.Built` says what its records look like all the while: blocks carry their
positions, the first two are the entry and the exit, and each edge is recorded at both of its
ends. `Function.Revises` is what a change may do to a function, seen from the program: the records
stay in order, the interface stays as it is, and no statement is lost.

The four changes are functions on their own here (`withBlock`, `withEdge`, `withStatement` and
`withKind`), apart from the checks that the builder makes before it applies them. Three of them
change blocks in place and share the lemma `Built.of_map`, which has a condition for each part of
the invariant. Adding a block is the one that makes the list longer.

Edges are compared by how often they occur and not just by whether they do. There may be several
edges between the same blocks, for both branches of a condition may lead to one block, and both
records have to list them all.

The numbers of statements are kept up to order (`Revises.ordinals`). A block that gets a statement
may stand anywhere in the list of blocks, so that the new number appears in the middle.
-/

namespace Pathwise

/-! ## Changes of a function

What the changes are, what is required of a function, and how a block is looked up after a change.
-/

namespace BlockKind

def isPrecondition : BlockKind → Bool
  | .precondition _ _ => true
  | _ => false

def isPostcondition : BlockKind → Bool
  | .postcondition _ => true
  | _ => false

theorem isPrecondition_of_rank? {kind kind' : BlockKind} {ranking : List Expr}
    (h : kind.rank? ranking = some kind') : kind'.isPrecondition = kind.isPrecondition := by
  cases kind <;> cases h <;> rfl

theorem isPostcondition_of_rank? {kind kind' : BlockKind} {ranking : List Expr}
    (h : kind.rank? ranking = some kind') : kind'.isPostcondition = kind.isPostcondition := by
  cases kind <;> cases h <;> rfl

end BlockKind

/-- The blocks that can carry a ranking function. -/
theorem Block.isSome_rank? (t : Block) (ranking : List Expr) :
    (t.kind.rank? ranking).isSome = (t.kind.isPrecondition || t.isLoopHead) := by
  unfold isLoopHead
  cases t.kind <;> rfl

namespace Function

/-- The function with one more block. -/
def withBlock (f : Function) (kind : BlockKind) : Function :=
  { f with blocks := f.blocks ++ [.new f.blocks.length kind] }

/-- The function with one more edge, recorded at both ends. -/
def withEdge (f : Function) (source target : BlockId) : Function :=
  (f.modifyBlock source fun s => { s with successors := s.successors ++ [target] }).modifyBlock
    target fun t => { t with predecessors := t.predecessors ++ [source] }

/-- The function with one more statement at the end of a block. -/
def withStatement (f : Function) (id : BlockId) (s : Statement) : Function :=
  f.modifyBlock id fun t => { t with statements := t.statements ++ [s] }

/-- The function with another kind for a block. -/
def withKind (f : Function) (id : BlockId) (kind : BlockKind) : Function :=
  f.modifyBlock id fun t => { t with kind }

/-- The records of a function are in order: blocks carry their positions, the first two are
its only precondition and postcondition blocks, and edges are recorded as often at one end as
at the other. -/
structure Built (f : Function) : Prop where
  label : ∀ {i b}, f.block? i = some b → b.id = i
  entry : f.entry = 0
  exit : f.exit = 1
  two_le : 2 ≤ f.blocks.length
  precondition : ∀ {i b}, f.block? i = some b → (b.kind.isPrecondition ↔ i = 0)
  postcondition : ∀ {i b}, f.block? i = some b → (b.kind.isPostcondition ↔ i = 1)
  successor : ∀ {i b j}, f.block? i = some b → j ∈ b.successors → j < f.blocks.length
  predecessor : ∀ {i b j}, f.block? i = some b → j ∈ b.predecessors → j < f.blocks.length
  paired : ∀ {i j s t}, f.block? i = some s → f.block? j = some t →
    s.successors.count j = t.predecessors.count i

variable {f f' : Function} {i j : BlockId}

theorem lt_of_block? {b : Block} (h : f.block? i = some b) : i < f.blocks.length :=
  (List.getElem?_eq_some_iff.1 h).1

theorem exists_block? (h : i < f.blocks.length) : ∃ b, f.block? i = some b :=
  ⟨_, List.getElem?_eq_getElem h⟩

/-- One block is changed, and the others are as before. -/
theorem block?_modifyBlock (f : Function) (i j : BlockId) (change : Block → Block) :
    (f.modifyBlock i change).block? j =
      (f.block? j).map fun t => if i = j then change t else t := by
  rw [block?, modifyBlock, List.getElem?_modify]
  by_cases h : i = j
  · simp only [h, if_true]
    rfl
  · simp only [h, if_false, block?]
    rfl

/-- The new block has the next free position. -/
theorem block?_withBlock (f : Function) (kind : BlockKind) (i : BlockId) :
    (f.withBlock kind).block? i =
      if i = f.blocks.length then some (.new i kind) else f.block? i := by
  split
  · next h =>
      rw [h]
      exact List.getElem?_concat_length
  · next h =>
      -- beyond the new block there is none, neither before nor after
      rcases Nat.lt_or_gt_of_ne h with hlt | hgt
      · exact List.getElem?_append_left hlt
      · have hnone : f.block? i = none := List.getElem?_eq_none (Nat.le_of_lt hgt)
        rw [hnone]
        refine List.getElem?_eq_none ?_
        rw [withBlock, List.length_append, List.length_singleton]
        exact hgt

/-- If source and target are the same block, it gets both records. -/
theorem block?_withEdge (f : Function) (source target i : BlockId) :
    (f.withEdge source target).block? i = (f.block? i).map fun b =>
      { b with
        successors := if source = i then b.successors ++ [target] else b.successors
        predecessors := if target = i then b.predecessors ++ [source] else b.predecessors } := by
  rw [withEdge, block?_modifyBlock, block?_modifyBlock, Option.map_map]
  congr 1
  funext b
  by_cases hs : source = i <;> by_cases ht : target = i <;> simp [hs, ht]

/-! ## Functions stay in order

One lemma for each change, and one for the function that is declared with two blocks and no edges.
Together they are the induction over the steps of the builder. -/

/-- Blocks may change as long as labels and roles stay and the edges remain in order. The
conditions are those of the invariant, stated for changed blocks. -/
theorem Built.of_map (hb : f.Built) {change : BlockId → Block → Block}
    (hentry : f'.entry = f.entry) (hexit : f'.exit = f.exit)
    (hlength : f'.blocks.length = f.blocks.length)
    (hblock : ∀ i, f'.block? i = (f.block? i).map (change i))
    (hid : ∀ i b, (change i b).id = b.id)
    (hpre : ∀ {i b}, f.block? i = some b →
      (change i b).kind.isPrecondition = b.kind.isPrecondition)
    (hpost : ∀ {i b}, f.block? i = some b →
      (change i b).kind.isPostcondition = b.kind.isPostcondition)
    (hsucc : ∀ {i b j}, f.block? i = some b → j ∈ (change i b).successors → j < f.blocks.length)
    (hpred : ∀ {i b j}, f.block? i = some b → j ∈ (change i b).predecessors →
      j < f.blocks.length)
    (hpaired : ∀ {i j s t}, f.block? i = some s → f.block? j = some t →
      (change i s).successors.count j = (change j t).predecessors.count i) : f'.Built := by
  -- every block of the new graph is the change of a block at the same position
  have origin : ∀ {i b}, f'.block? i = some b → ∃ a, f.block? i = some a ∧ change i a = b := by
    intro i b h
    rw [hblock] at h
    exact Option.map_eq_some_iff.1 h
  constructor
  case label =>
    intro i b h
    obtain ⟨a, ha, rfl⟩ := origin h
    rw [hid, hb.label ha]
  case entry => rw [hentry, hb.entry]
  case exit => rw [hexit, hb.exit]
  case two_le => rw [hlength]; exact hb.two_le
  case precondition =>
    intro i b h
    obtain ⟨a, ha, rfl⟩ := origin h
    rw [hpre ha]
    exact hb.precondition ha
  case postcondition =>
    intro i b h
    obtain ⟨a, ha, rfl⟩ := origin h
    rw [hpost ha]
    exact hb.postcondition ha
  case successor =>
    intro i b j h hj
    obtain ⟨a, ha, rfl⟩ := origin h
    rw [hlength]
    exact hsucc ha hj
  case predecessor =>
    intro i b j h hj
    obtain ⟨a, ha, rfl⟩ := origin h
    rw [hlength]
    exact hpred ha hj
  case paired =>
    intro i j s t hs ht
    obtain ⟨a, ha, rfl⟩ := origin hs
    obtain ⟨c, hc, rfl⟩ := origin ht
    exact hpaired ha hc

/-- A change of a block that leaves its label, its role and its edges alone. -/
theorem Built.modifyBlock (hb : f.Built) {change : Block → Block}
    (hid : ∀ t, (change t).id = t.id) (hsucc : ∀ t, (change t).successors = t.successors)
    (hpred : ∀ t, (change t).predecessors = t.predecessors)
    (hpre : ∀ {t}, f.block? i = some t → (change t).kind.isPrecondition = t.kind.isPrecondition)
    (hpost : ∀ {t}, f.block? i = some t →
      (change t).kind.isPostcondition = t.kind.isPostcondition) :
    (f.modifyBlock i change).Built := by
  -- The changed block and the others are treated alike for all parts that the change leaves
  -- alone.
  have same : ∀ {α : Type} (g : Block → α), (∀ t, g (change t) = g t) →
      ∀ j t, g (if i = j then change t else t) = g t := by
    intro α g hg j t
    split
    · exact hg t
    · rfl
  refine hb.of_map rfl rfl (List.length_modify _ _ _) (f.block?_modifyBlock i · change)
    (same Block.id hid) ?_ ?_ ?_ ?_ ?_
  · intro j t ht
    split
    · next h => exact hpre (h ▸ ht)
    · rfl
  · intro j t ht
    split
    · next h => exact hpost (h ▸ ht)
    · rfl
  · intro j t k ht hk
    rw [same Block.successors hsucc] at hk
    exact hb.successor ht hk
  · intro j t k ht hk
    rw [same Block.predecessors hpred] at hk
    exact hb.predecessor ht hk
  · intro j k s t hs ht
    rw [same Block.successors hsucc, same Block.predecessors hpred]
    exact hb.paired hs ht

theorem Built.withStatement (hb : f.Built) (i : BlockId) (s : Statement) :
    (f.withStatement i s).Built :=
  hb.modifyBlock (fun _ => rfl) (fun _ => rfl) (fun _ => rfl) (fun _ => rfl) (fun _ => rfl)

/-- A ranking function leaves the role of its block as it is. -/
theorem Built.withKind (hb : f.Built) {t : Block} (ht : f.block? i = some t)
    {ranking : List Expr} {kind : BlockKind} (hk : t.kind.rank? ranking = some kind) :
    (f.withKind i kind).Built := by
  refine hb.modifyBlock (fun _ => rfl) (fun _ => rfl) (fun _ => rfl) ?_ ?_
  · intro t' ht'
    cases ht.symm.trans ht'
    exact BlockKind.isPrecondition_of_rank? hk
  · intro t' ht'
    cases ht.symm.trans ht'
    exact BlockKind.isPostcondition_of_rank? hk

/-- One more edge is counted once at each of its ends, also if it is a loop. The new edge may
double one that is there already. -/
theorem Built.withEdge (hb : f.Built) {source target : BlockId}
    (hs : source < f.blocks.length) (ht : target < f.blocks.length) :
    (f.withEdge source target).Built := by
  refine hb.of_map rfl rfl (by simp [Function.withEdge, Function.modifyBlock])
    (f.block?_withEdge source target) (fun _ _ => rfl) (fun _ => rfl) (fun _ => rfl) ?_ ?_ ?_
  · intro i b j hi hj
    dsimp only at hj
    split at hj
    · rcases List.mem_append.1 hj with hj | hj
      · exact hb.successor hi hj
      · rw [List.mem_singleton.1 hj]
        exact ht
    · exact hb.successor hi hj
  · intro i b j hi hj
    dsimp only at hj
    split at hj
    · rcases List.mem_append.1 hj with hj | hj
      · exact hb.predecessor hi hj
      · rw [List.mem_singleton.1 hj]
        exact hs
    · exact hb.predecessor hi hj
  · intro i j a c ha hc
    have hpaired := hb.paired ha hc
    -- only for the pair of the new edge both counts go up
    by_cases hi : source = i <;> by_cases hj : target = j <;>
      simp [hi, hj, List.count_append, hpaired]

/-- A new block comes without edges, and no edge leads to it or from it yet. It is not at either
end, so it must not carry a contract. -/
theorem Built.withBlock (hb : f.Built) {kind : BlockKind} (hpre : kind.isPrecondition = false)
    (hpost : kind.isPostcondition = false) : (f.withBlock kind).Built := by
  have hlength : (f.withBlock kind).blocks.length = f.blocks.length + 1 := by
    rw [Function.withBlock, List.length_append, List.length_singleton]
  have origin : ∀ {i b}, (f.withBlock kind).block? i = some b →
      f.block? i = some b ∨ i = f.blocks.length ∧ b = .new i kind := by
    intro i b h
    rw [block?_withBlock] at h
    split at h
    · next hi => exact Or.inr ⟨hi, (Option.some.inj h).symm⟩
    · exact Or.inl h
  have htwo := hb.two_le
  constructor
  case label =>
    intro i b h
    rcases origin h with h | ⟨rfl, rfl⟩
    · exact hb.label h
    · rfl
  case entry => exact hb.entry
  case exit => exact hb.exit
  case two_le => omega
  case precondition =>
    intro i b h
    rcases origin h with h | ⟨rfl, rfl⟩
    · exact hb.precondition h
    · simp only [Block.new, hpre, Bool.false_eq_true, false_iff]
      exact Nat.ne_of_gt (Nat.lt_of_lt_of_le Nat.zero_lt_two htwo)
  case postcondition =>
    intro i b h
    rcases origin h with h | ⟨rfl, rfl⟩
    · exact hb.postcondition h
    · simp only [Block.new, hpost, Bool.false_eq_true, false_iff]
      exact Nat.ne_of_gt htwo
  case successor =>
    intro i b j h hj
    rcases origin h with h | ⟨rfl, rfl⟩
    · rw [hlength]
      exact Nat.lt_succ_of_lt (hb.successor h hj)
    · cases hj
  case predecessor =>
    intro i b j h hj
    rcases origin h with h | ⟨rfl, rfl⟩
    · rw [hlength]
      exact Nat.lt_succ_of_lt (hb.predecessor h hj)
    · cases hj
  case paired =>
    intro i j s t hs ht
    rcases origin hs with hs | ⟨rfl, rfl⟩ <;> rcases origin ht with ht | ⟨rfl, rfl⟩
    · exact hb.paired hs ht
    -- An edge from an old block to the new one would lead out of the function as it was.
    · have hnot : f.blocks.length ∉ s.successors := fun h => Nat.lt_irrefl _ (hb.successor hs h)
      exact List.count_eq_zero.2 hnot
    · have hnot : f.blocks.length ∉ t.predecessors := fun h =>
        Nat.lt_irrefl _ (hb.predecessor ht h)
      exact (List.count_eq_zero.2 hnot).symm
    · rfl

/-- The function as it is declared, with an entry and an exit and no way from one to the other. -/
theorem built_declared {name : String} {sig : SigId} {parameters results : List Variable}
    {pre post : Expr} : Built ⟨name, sig, parameters, results, 0, 1,
      [.new 0 (.precondition pre []), .new 1 (.postcondition post)]⟩ := by
  -- there are two blocks, so everything is checked by cases
  have origin : ∀ {i b}, block? ⟨name, sig, parameters, results, 0, 1,
      [.new 0 (.precondition pre []), .new 1 (.postcondition post)]⟩ i = some b →
      i = 0 ∧ b = .new 0 (.precondition pre []) ∨ i = 1 ∧ b = .new 1 (.postcondition post) := by
    intro i b h
    match i, h with
    | 0, h => exact Or.inl ⟨rfl, (Option.some.inj h).symm⟩
    | 1, h => exact Or.inr ⟨rfl, (Option.some.inj h).symm⟩
  constructor
  case label =>
    intro i b h
    rcases origin h with ⟨rfl, rfl⟩ | ⟨rfl, rfl⟩ <;> rfl
  case entry => rfl
  case exit => rfl
  case two_le => exact Nat.le_refl 2
  case precondition =>
    intro i b h
    rcases origin h with ⟨rfl, rfl⟩ | ⟨rfl, rfl⟩ <;> simp [Block.new, BlockKind.isPrecondition]
  case postcondition =>
    intro i b h
    rcases origin h with ⟨rfl, rfl⟩ | ⟨rfl, rfl⟩ <;> simp [Block.new, BlockKind.isPostcondition]
  case successor =>
    intro i b j h hj
    rcases origin h with ⟨rfl, rfl⟩ | ⟨rfl, rfl⟩ <;> cases hj
  case predecessor =>
    intro i b j h hj
    rcases origin h with ⟨rfl, rfl⟩ | ⟨rfl, rfl⟩ <;> cases hj
  case paired =>
    intro i j s t hs ht
    rcases origin hs with ⟨rfl, rfl⟩ | ⟨rfl, rfl⟩ <;>
      rcases origin ht with ⟨rfl, rfl⟩ | ⟨rfl, rfl⟩ <;> rfl

end Function

/-! ## Numbers of statements

The other half of a revision. It is about the program as a whole, where every statement has a
number of its own. -/

/-- The numbers of the statements of a function. -/
def Function.ordinals (f : Function) : List Nat :=
  f.blocks.flatMap fun b => b.statements.map Statement.ordinal

/-- The numbers of the statements of a program. -/
def Program.ordinals (p : Program) : List Nat := p.functions.flatMap Function.ordinals

/-- If a member of a list has more to it, so has the whole. The order is lost, since the additions
may come up in the middle. -/
theorem flatMap_modify_perm {α β : Type} {g : α → List β} {change : α → α} {more : List β}
    {l : List α} {i : Nat} {a : α} (ha : l[i]? = some a)
    (h : (g (change a)).Perm (more ++ g a)) :
    ((l.modify i change).flatMap g).Perm (more ++ l.flatMap g) := by
  induction l generalizing i with
  | nil => cases ha
  | cons x l ih =>
      cases i with
      | zero =>
          cases ha
          rw [List.modify_zero_cons, List.flatMap_cons, List.flatMap_cons, ← List.append_assoc]
          exact h.append_right _
      | succ i =>
          rw [List.modify_succ_cons, List.flatMap_cons, List.flatMap_cons]
          refine ((ih ha).append_left (g x)).trans ?_
          rw [← List.append_assoc, ← List.append_assoc]
          exact List.perm_append_comm.append_right _

/-- The function `f'` is `f` with more to it: its statements are those of `f`, and others with
the numbers `more`. -/
structure Function.Revises (f' f : Function) (more : List Nat) : Prop where
  built : f.Built → f'.Built
  sig : f'.sig = f.sig
  parameters : f'.parameters = f.parameters
  results : f'.results = f.results
  ordinals : f'.ordinals.Perm (more ++ f.ordinals)
  keeps : ∀ {i t}, f.block? i = some t →
    ∃ t', f'.block? i = some t' ∧ t.statements ⊆ t'.statements

namespace Function

variable {f : Function} {i : BlockId}

/-- No statement is lost in a block that gets longer or stays as it is. -/
theorem keeps_modifyBlock {change : Block → Block}
    (h : ∀ t, t.statements ⊆ (change t).statements) {j : BlockId} {t : Block}
    (ht : f.block? j = some t) :
    ∃ t', (f.modifyBlock i change).block? j = some t' ∧ t.statements ⊆ t'.statements := by
  rw [block?_modifyBlock, ht]
  refine ⟨_, rfl, ?_⟩
  split
  · exact h t
  · exact fun s hs => hs

/-- New statements in one block are new statements of the function. -/
theorem ordinals_modifyBlock {change : Block → Block} {t : Block} (ht : f.block? i = some t)
    {more : List Nat} (h : ((change t).statements.map Statement.ordinal).Perm
      (more ++ t.statements.map Statement.ordinal)) :
    (f.modifyBlock i change).ordinals.Perm (more ++ f.ordinals) :=
  flatMap_modify_perm ht h

theorem ordinals_modifyBlock_of_eq {change : Block → Block} {t : Block}
    (ht : f.block? i = some t) (h : (change t).statements = t.statements) :
    (f.modifyBlock i change).ordinals.Perm f.ordinals := by
  have hsame : ((change t).statements.map Statement.ordinal).Perm
      ([] ++ t.statements.map Statement.ordinal) := by rw [h, List.nil_append]
  exact ordinals_modifyBlock ht hsame

theorem revises_withBlock (f : Function) {kind : BlockKind} (hpre : kind.isPrecondition = false)
    (hpost : kind.isPostcondition = false) : (f.withBlock kind).Revises f [] where
  built hb := hb.withBlock hpre hpost
  sig := rfl
  parameters := rfl
  results := rfl
  ordinals := by simp [Function.ordinals, withBlock, Block.new]
  keeps {i t} ht := by
    rw [block?_withBlock, if_neg (Nat.ne_of_lt (lt_of_block? ht))]
    exact ⟨t, ht, fun s hs => hs⟩

/-- An edge changes two blocks, one after the other, and the statements of neither. -/
theorem revises_withEdge {source target : BlockId} (hs : source < f.blocks.length)
    (ht : target < f.blocks.length) : (f.withEdge source target).Revises f [] where
  built hb := hb.withEdge hs ht
  sig := rfl
  parameters := rfl
  results := rfl
  ordinals := by
    obtain ⟨s, hs⟩ := exists_block? hs
    have hleaving : (f.modifyBlock source fun s =>
        { s with successors := s.successors ++ [target] }).ordinals.Perm f.ordinals :=
      ordinals_modifyBlock_of_eq hs rfl
    obtain ⟨t, ht⟩ : ∃ t, (f.modifyBlock source fun s =>
        { s with successors := s.successors ++ [target] }).block? target = some t :=
      exists_block? (by rwa [modifyBlock, List.length_modify])
    exact (ordinals_modifyBlock_of_eq ht rfl).trans hleaving
  keeps {i t} ht := by
    rw [block?_withEdge, ht]
    exact ⟨_, rfl, fun s hs => hs⟩

/-- The only change that brings in a number. -/
theorem revises_withStatement {s : Statement} (hi : i < f.blocks.length) :
    (f.withStatement i s).Revises f [s.ordinal] where
  built hb := hb.withStatement i s
  sig := rfl
  parameters := rfl
  results := rfl
  ordinals := by
    obtain ⟨t, ht⟩ := exists_block? hi
    refine ordinals_modifyBlock ht ?_
    rw [List.map_append]
    exact List.perm_append_comm
  keeps ht := keeps_modifyBlock (fun _ => List.subset_append_left _ _) ht

theorem revises_withKind {t : Block} (ht : f.block? i = some t) {ranking : List Expr}
    {kind : BlockKind} (hk : t.kind.rank? ranking = some kind) :
    (f.withKind i kind).Revises f [] where
  built hb := hb.withKind ht hk
  sig := rfl
  parameters := rfl
  results := rfl
  ordinals := ordinals_modifyBlock_of_eq ht rfl
  keeps hs := by
    refine keeps_modifyBlock ?_ hs
    exact fun t => List.Subset.refl t.statements

end Function

end Pathwise
