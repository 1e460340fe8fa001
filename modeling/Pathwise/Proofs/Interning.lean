import Mathlib.Data.List.Induction
import Mathlib.Data.List.Nodup
import Pathwise.Signature

/-!
# Pathwise.Proofs.Interning

The numbers of signatures, over the whole life of a table.

Interning does one of two things: the signature is found, or it is put at the end
(`SignatureTable.intern_cases`). So the table has the signatures that have come, each once and in
the order in which they came first, and a number that was given out keeps its meaning until the
table is replaced by one that is read from a list (`History.Sound`).

A table finds a signature by a search in its list. `IndexedTable` keeps an index beside the list,
and looks into nothing else to find a signature. The two go through the same states
(`history_indexed`): the list and the index stay in step.

A history is a sequence of steps, each of which interns a signature or reloads the table. What one
step preserves is `History.Sound.step`, and `sound_history` is the induction over the steps. The
result at the end (`signature_numbers_bijective`) collects what a user of numbers relies on: they
tell signatures apart, they lead back to them, and reading a table again changes none.
-/

namespace Pathwise

/-! ## Lists without repetitions

A table holds the signatures that have come without the repetitions, which is what
`List.eraseDups` makes of a list. Signatures come at the end, so the lemmas are about one more
item there. -/

section Lists

variable {α : Type} [BEq α] [LawfulBEq α] {l : List α} {a : α}

theorem eraseDups_concat_of_mem (h : a ∈ l) : (l ++ [a]).eraseDups = l.eraseDups := by
  simp [List.eraseDups_append, List.removeAll, h]

theorem eraseDups_concat_of_not_mem (h : a ∉ l) : (l ++ [a]).eraseDups = l.eraseDups ++ [a] := by
  simp [List.eraseDups_append, List.removeAll, h, List.eraseDups_cons]

theorem eraseDups_of_nodup (h : l.Nodup) : l.eraseDups = l := by
  induction l using List.reverseRecOn with
  | nil => rfl
  | append_singleton l a ih =>
      have ha : a ∉ l := fun ha => List.disjoint_of_nodup_append h ha (List.mem_singleton_self a)
      rw [eraseDups_concat_of_not_mem ha, ih h.of_append_left]

/-- The first entry of an element in the list of elements with their positions. -/
theorem lookup_zipIdx (l : List α) (a : α) (k : Nat) :
    (l.zipIdx k).lookup a = (l.idxOf? a).map (· + k) := by
  induction l generalizing k with
  | nil => rfl
  | cons b l ih =>
      rw [List.zipIdx_cons, List.lookup_cons, List.idxOf?_cons, ih]
      by_cases h : b = a
      · simp [h]
      · have hne : (a == b) = false := beq_false_of_ne (Ne.symm h)
        simp [h, hne, Function.comp_def, Nat.add_comm 1, Nat.add_assoc]

end Lists

/-! ## One call

What interning one signature does to the table and to the numbers that are already in use. -/

namespace SignatureTable

variable {t : SignatureTable} {s s' : Signature} {id id' : SigId}

/-- The index has the positions of the signatures, and nothing else. -/
theorem index?_eq_some_iff : t.index? s = some id ↔ t.get? id = some s := by
  unfold index? get?
  rw [List.idxOf?_eq_some_iff, List.getElem?_eq_some_iff]
  constructor
  · rintro ⟨hid, hs, -⟩
    exact ⟨hid, hs⟩
  -- the search finds the first position, and there is only one
  · rintro ⟨hid, hs⟩
    refine ⟨hid, hs, fun j hj hsame => ?_⟩
    have hij : j = id := t.nodup.getElem_inj_iff.1 (hsame.trans hs.symm)
    omega

/-- Numbers are equal if and only if their signatures are. So signatures may be compared by their
numbers. -/
theorem get?_inj (h : t.get? id = some s) (h' : t.get? id' = some s') : id = id' ↔ s = s' := by
  constructor
  · rintro rfl
    exact Option.some.inj (h.symm.trans h')
  · rintro rfl
    exact Option.some.inj ((index?_eq_some_iff.2 h).symm.trans (index?_eq_some_iff.2 h'))

/-- Interning finds the signature, or else puts it at the end. These are the two cases of every
statement about interning. -/
theorem intern_cases (t : SignatureTable) (s : Signature) :
    (∃ id, t.index? s = some id ∧ t.intern s = (id, t)) ∨
      t.index? s = none ∧ (t.intern s).1 = t.size ∧
        (t.intern s).2.signatures = t.signatures ++ [s] := by
  by_cases h : s ∈ t.signatures
  · refine Or.inl ⟨t.signatures.idxOf s, ?_, dif_pos h⟩
    rw [index?_eq_some_iff, get?, List.getElem?_eq_getElem (List.idxOf_lt_length_of_mem h),
      List.getElem_idxOf]
  · rw [intern, dif_neg h]
    exact Or.inr ⟨List.idxOf?_eq_none_iff.2 h, rfl, rfl⟩

/-- The number of an interned signature leads back to it. -/
theorem get?_intern_self (t : SignatureTable) (s : Signature) :
    (t.intern s).2.get? (t.intern s).1 = some s := by
  rcases t.intern_cases s with ⟨id, hid, hintern⟩ | ⟨-, hnumber, hsignatures⟩
  · rw [hintern]
    exact index?_eq_some_iff.1 hid
  · rw [get?, hnumber, hsignatures]
    exact List.getElem?_concat_length

/-- Interning leaves the numbers of all other signatures as they are. -/
theorem get?_intern_of_eq_some (h : t.get? id = some s') : (t.intern s).2.get? id = some s' := by
  rcases t.intern_cases s with ⟨_, -, hintern⟩ | ⟨-, -, hsignatures⟩
  · rwa [hintern]
  · rw [get?, hsignatures, List.getElem?_append_left (List.getElem?_eq_some_iff.1 h).1]
    exact h

/-- A table of the signatures that have come has them after the next one, too. This is the step
lemma for histories of tables. -/
theorem signatures_intern {l : List Signature} (h : t.signatures = l.eraseDups) (s : Signature) :
    (t.intern s).2.signatures = (l ++ [s]).eraseDups := by
  have hmem : s ∈ t.signatures ↔ s ∈ l := by rw [h, List.mem_eraseDups]
  rcases t.intern_cases s with ⟨id, hid, hintern⟩ | ⟨hnone, -, hsignatures⟩
  · have hs : s ∈ t.signatures := List.mem_of_getElem? (index?_eq_some_iff.1 hid)
    rw [hintern, eraseDups_concat_of_mem (hmem.1 hs), h]
  · have hs : s ∉ t.signatures := List.idxOf?_eq_none_iff.1 hnone
    rw [hsignatures, eraseDups_concat_of_not_mem (mt hmem.2 hs), h]

/-- A table that is read from a list has its signatures without the repetitions. -/
theorem signatures_ofList (sigs : List Signature) : (ofList sigs).signatures = sigs.eraseDups := by
  induction sigs using List.reverseRecOn with
  | nil => rfl
  | append_singleton sigs s ih =>
      rw [ofList, List.foldl_concat]
      exact signatures_intern ih s

/-- Tables with the same signatures are equal, since the rest is a proof. -/
theorem eq_of_signatures {u : SignatureTable} (h : t.signatures = u.signatures) : t = u := by
  cases t
  cases u
  cases h
  rfl

/-- Interning the signatures of a table again gives the same table, with the same numbers. -/
theorem ofList_signatures (t : SignatureTable) : ofList t.signatures = t :=
  eq_of_signatures ((signatures_ofList t.signatures).trans (eraseDups_of_nodup t.nodup))

end SignatureTable

/-! ## Histories

Steps and what they preserve, for any kind of table that can intern and be read from a list. The
two kinds that there are can then be compared by a map between them. -/

/-- What can happen to a table. -/
inductive TableStep where
  | intern (s : Signature)
  /-- The table is replaced by one that is read from a list. -/
  | reload (sigs : List Signature)

/-- The signatures that have come since the last reload, those of its list included. -/
def TableStep.arrive (l : List Signature) : TableStep → List Signature
  | intern s => l ++ [s]
  | reload sigs => sigs

/-- The signatures that have come in the course of some steps. -/
def arrivals (steps : List TableStep) : List Signature := steps.foldl TableStep.arrive []

/-- A table, with the numbers that it has given out since the last reload. -/
structure History (τ : Type) where
  table : τ
  issued : List (Signature × SigId)

namespace History

variable {τ σ : Type}

/-- One step of a kind of table that can intern a signature and be read from a list. -/
def step (intern : τ → Signature → SigId × τ) (ofList : List Signature → τ) (h : History τ) :
    TableStep → History τ
  | .intern s => ⟨(intern h.table s).2, h.issued ++ [(s, (intern h.table s).1)]⟩
  | .reload sigs => ⟨ofList sigs, []⟩

/-- All steps, from the table of the empty list. -/
def after (intern : τ → Signature → SigId × τ) (ofList : List Signature → τ)
    (steps : List TableStep) : History τ :=
  steps.foldl (step intern ofList) ⟨ofList [], []⟩

/-- If a map between tables goes along with both operations, it goes along with histories. It is
used for the table with an index, which is computed from one without. -/
theorem after_map {intern : τ → Signature → SigId × τ} {ofList : List Signature → τ}
    {intern' : σ → Signature → SigId × σ} {ofList' : List Signature → σ} {f : τ → σ}
    (hintern : ∀ t s, intern' (f t) s = ((intern t s).1, f (intern t s).2))
    (hofList : ∀ sigs, ofList' sigs = f (ofList sigs)) (steps : List TableStep) :
    after intern' ofList' steps =
      ⟨f (after intern ofList steps).table, (after intern ofList steps).issued⟩ := by
  induction steps using List.reverseRecOn with
  | nil =>
      rw [after, hofList]
      rfl
  | append_singleton steps a ih =>
      unfold after at ih ⊢
      rw [List.foldl_concat, List.foldl_concat, ih]
      cases a with
      | intern s => simp only [step, hintern]
      | reload sigs => simp only [step, hofList]

/-- The table has the signatures that have come, and all numbers that were given out lead to
their signatures. -/
structure Sound (h : History SignatureTable) (l : List Signature) : Prop where
  stored : h.table.signatures = l.eraseDups
  kept : ∀ e ∈ h.issued, h.table.get? e.2 = some e.1

/-- A step keeps the table and its numbers sound. Reading a table from a list forgets the numbers
that were given out before, and starts anew. -/
theorem Sound.step {h : History SignatureTable} {l : List Signature} (hs : h.Sound l)
    (a : TableStep) :
    (h.step SignatureTable.intern SignatureTable.ofList a).Sound (a.arrive l) := by
  cases a with
  | intern s =>
      -- Old numbers keep their meaning because the table only grows; the new one is read back.
      refine ⟨SignatureTable.signatures_intern hs.stored s, ?_⟩
      refine List.forall_mem_append.2 ⟨fun e he => ?_, ?_⟩
      · exact SignatureTable.get?_intern_of_eq_some (hs.kept e he)
      · exact List.forall_mem_singleton.2 (SignatureTable.get?_intern_self _ s)
  | reload sigs => exact ⟨SignatureTable.signatures_ofList sigs, List.forall_mem_nil _⟩

end History

/-- The life of a table. -/
def SignatureTable.history : List TableStep → History SignatureTable := History.after intern ofList

theorem sound_history (steps : List TableStep) :
    (SignatureTable.history steps).Sound (arrivals steps) := by
  unfold SignatureTable.history History.after arrivals
  induction steps using List.reverseRecOn with
  | nil => exact ⟨rfl, List.forall_mem_nil _⟩
  | append_singleton steps a ih =>
      rw [List.foldl_concat, List.foldl_concat]
      exact ih.step a

/-! ## Tables with an index

The same table with the numbers of its signatures kept beside it, so that no search is needed. The
index is redundant, and has to be kept up to date at every insertion and every reload. -/

/-- Signatures numbered by position, with an index of the numbers beside them. The index is
redundant, and must be kept in step with the list. -/
structure IndexedTable where
  signatures : List Signature
  index : List (Signature × SigId)

namespace IndexedTable

def empty : IndexedTable := ⟨[], []⟩

/-- The number that the index has for `s`. If it has none, `s` is appended, and put into the
index. -/
def intern (t : IndexedTable) (s : Signature) : SigId × IndexedTable :=
  match t.index.lookup s with
  | some id => (id, t)
  | none =>
    (t.signatures.length, ⟨t.signatures ++ [s], t.index ++ [(s, t.signatures.length)]⟩)

/-- The table that interning the signatures of a list in turn builds. -/
def ofList (sigs : List Signature) : IndexedTable :=
  sigs.foldl (fun t s => (t.intern s).2) empty

def history : List TableStep → History IndexedTable := History.after intern ofList

end IndexedTable

/-- The table with its index. -/
def SignatureTable.indexed (t : SignatureTable) : IndexedTable :=
  ⟨t.signatures, t.signatures.zipIdx⟩

namespace IndexedTable

/-- Looking a number up in the index is searching for it in the list. -/
theorem lookup_indexed (t : SignatureTable) (s : Signature) :
    t.indexed.index.lookup s = t.index? s := by
  show t.signatures.zipIdx.lookup s = t.signatures.idxOf? s
  rw [lookup_zipIdx]
  exact Option.map_id'

/-- Interning through the index gives the same number, and keeps the index in step. The index is
then no more than a faster search. -/
theorem intern_indexed (t : SignatureTable) (s : Signature) :
    t.indexed.intern s = ((t.intern s).1, (t.intern s).2.indexed) := by
  unfold intern
  rw [lookup_indexed]
  rcases t.intern_cases s with ⟨id, hid, hintern⟩ | ⟨hnone, hnumber, hsignatures⟩
  · rw [hid, hintern]
  · rw [hnone, hnumber]
    simp [SignatureTable.indexed, hsignatures, List.zipIdx_append, SignatureTable.size]

/-- A table that is read from a list has its index in step. -/
theorem ofList_indexed (sigs : List Signature) :
    ofList sigs = (SignatureTable.ofList sigs).indexed := by
  induction sigs using List.reverseRecOn with
  | nil => rfl
  | append_singleton sigs s ih =>
      unfold ofList SignatureTable.ofList at ih ⊢
      rw [List.foldl_concat, List.foldl_concat, ih, intern_indexed]

/-- A table with an index goes through the same states, and gives out the same numbers. So the
index is an optimization and nothing more. -/
theorem history_indexed (steps : List TableStep) :
    history steps = ⟨(SignatureTable.history steps).table.indexed,
      (SignatureTable.history steps).issued⟩ :=
  History.after_map intern_indexed ofList_indexed steps

end IndexedTable

/-- After any calls and reloads, numbers and signatures belong together one to one. The table has
the signatures that have come since the last reload, each once, and the index has their positions
and nothing else. A number that was given out since then leads to its signature, and numbers are
the same if and only if their signatures are. Reading the signatures of the table again gives the
same table. -/
theorem signature_numbers_bijective (steps : List TableStep) :
    let t := (SignatureTable.history steps).table
    let issued := (SignatureTable.history steps).issued
    let u := (IndexedTable.history steps).table
    t.signatures = (arrivals steps).eraseDups ∧ t.signatures.Nodup ∧
      u.signatures = t.signatures ∧ (IndexedTable.history steps).issued = issued ∧
      (∀ s id, (s, id) ∈ u.index ↔ t.get? id = some s) ∧
      (∀ s id, u.index.lookup s = some id ↔ t.get? id = some s) ∧
      (∀ s id, t.index? s = some id ↔ t.get? id = some s) ∧
      (∀ s, (t.intern s).2.get? (t.intern s).1 = some s) ∧
      (∀ e ∈ issued, t.get? e.2 = some e.1) ∧
      (∀ e ∈ issued, ∀ e' ∈ issued, e.2 = e'.2 ↔ e.1 = e'.1) ∧
      SignatureTable.ofList t.signatures = t ∧ IndexedTable.ofList u.signatures = u := by
  intro t issued u
  obtain ⟨hstored, hkept⟩ := sound_history steps
  have hhistory := IndexedTable.history_indexed steps
  -- the table with an index is determined by the one without
  have hu : u = t.indexed := congrArg History.table hhistory
  refine ⟨hstored, t.nodup, congrArg IndexedTable.signatures hu,
    congrArg History.issued hhistory, fun s id => ?_, fun s id => ?_,
    fun s id => SignatureTable.index?_eq_some_iff, t.get?_intern_self, hkept,
    fun e he e' he' => SignatureTable.get?_inj (hkept e he) (hkept e' he'),
    t.ofList_signatures, ?_⟩
  · rw [hu]
    exact List.mk_mem_zipIdx_iff_getElem?
  · rw [hu, IndexedTable.lookup_indexed]
    exact SignatureTable.index?_eq_some_iff
  · rw [hu, IndexedTable.ofList_indexed]
    exact congrArg SignatureTable.indexed t.ofList_signatures

namespace Renumbering

/-- The signature of a procedure on integers. -/
def procedure : Signature := ⟨[.int], []⟩

/-- The signature of a test on arrays. -/
def test : Signature := .predicate [.array .int]

/-- The signature of a constant. -/
def constant : Signature := ⟨[], [.float]⟩

/-- A reload from a list with a repetition gives `procedure` another number. -/
def steps : List TableStep :=
  [.intern procedure, .reload [test, test, procedure], .intern procedure, .intern constant,
    .intern procedure]

end Renumbering

open Renumbering

/-- The reload drops a repetition, so `procedure` comes back with another number; from then on it
keeps that. -/
theorem signature_numbers_bijective_reloaded :
    (SignatureTable.history steps).issued = [(procedure, 1), (constant, 2), (procedure, 1)] ∧
      (SignatureTable.history steps).table.signatures = [test, procedure, constant] ∧
      (SignatureTable.history steps).table.get? 2 = some constant ∧
      (IndexedTable.history steps).table.index.lookup constant = some 2 := by
  have hissued : (SignatureTable.history steps).issued =
      [(procedure, 1), (constant, 2), (procedure, 1)] := by decide +kernel
  have hconstant : (constant, 2) ∈ (SignatureTable.history steps).issued := by
    rw [hissued]
    exact List.mem_cons_of_mem _ List.mem_cons_self
  obtain ⟨hstored, -, -, -, -, hlookup, -, -, hkept, -⟩ := signature_numbers_bijective steps
  have hget := hkept _ hconstant
  exact ⟨hissued, hstored.trans (by decide +kernel), hget, (hlookup constant 2).2 hget⟩

end Pathwise
