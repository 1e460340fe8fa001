/-!
# Pathwise.SortedMap

Finite maps kept as a list of entries in ascending key order.

The verifier reports almost everything in name order: free variables, declared symbols, counter
models. Keeping the entries sorted at insertion makes that order part of the value, so two maps
with the same entries are the same list.

* `insert` overwrites the entry of an existing key and otherwise puts the new entry in its place;
* `insertIfNew` keeps the entry that is already there;
* `find?` reads through the list, so its laws (`find?_insert`, `find?_erase`) need no invariant;
* `Sorted` states the order itself.

The order is a predicate and not a field. Most of the theory reads maps with `find?` only, and
would carry the field along for nothing; that the maps of the program are sorted is proved where
an order is reported, in `Pathwise.Proofs.SortedMap`.
-/

namespace Pathwise

universe u v

/-- A finite map from `κ` to `α`, as the list of its entries. -/
structure SortedMap (κ : Type u) (α : Type v) where
  /-- The entries, in ascending key order. -/
  entries : List (κ × α)
  deriving Repr

namespace SortedMap

variable {κ : Type u} {α : Type v}

def empty : SortedMap κ α := ⟨[]⟩

instance : Inhabited (SortedMap κ α) := ⟨empty⟩

instance : EmptyCollection (SortedMap κ α) := ⟨empty⟩

def isEmpty (m : SortedMap κ α) : Bool := m.entries.isEmpty

/-- The keys, in ascending order. -/
def keys (m : SortedMap κ α) : List κ := m.entries.map Prod.fst

def size (m : SortedMap κ α) : Nat := m.entries.length

section Lookup

variable [DecidableEq κ]

/-- The first entry of a list under key `k`. -/
def lookup (k : κ) : List (κ × α) → Option α
  | [] => none
  | (k', a) :: rest => if k = k' then some a else lookup k rest

/-- The value at `k`, if there is one. -/
def find? (m : SortedMap κ α) (k : κ) : Option α := lookup k m.entries

/-- Whether `k` has a value. -/
def contains (m : SortedMap κ α) (k : κ) : Bool := (m.find? k).isSome

/-- The map without the entry at `k`. -/
def erase (m : SortedMap κ α) (k : κ) : SortedMap κ α :=
  ⟨m.entries.filter fun e => e.1 ≠ k⟩

end Lookup

section Insert

variable [DecidableEq κ] [LT κ] [DecidableLT κ]

/-- Put `(k, a)` before the first entry with a larger key, replacing an entry
with the same key. -/
def place (k : κ) (a : α) : List (κ × α) → List (κ × α)
  | [] => [(k, a)]
  | (k', a') :: rest =>
    if k < k' then (k, a) :: (k', a') :: rest
    else if k = k' then (k, a) :: rest
    else (k', a') :: place k a rest

/-- Bind `k` to `a`, overwriting. -/
def insert (m : SortedMap κ α) (k : κ) (a : α) : SortedMap κ α := ⟨place k a m.entries⟩

/-- Bind `k` to `a` unless `k` already has a value. -/
def insertIfNew (m : SortedMap κ α) (k : κ) (a : α) : SortedMap κ α :=
  if m.contains k then m else m.insert k a

/-- Insert the pairs of a list from left to right: of two pairs with one key the
later wins. -/
def insertMany (m : SortedMap κ α) (l : List (κ × α)) : SortedMap κ α :=
  l.foldl (fun m e => m.insert e.1 e.2) m

/-- The map of a list of pairs, later pairs winning. -/
def ofList (l : List (κ × α)) : SortedMap κ α := insertMany empty l

/-- The map `m` with every entry of `n` inserted. -/
def union (m n : SortedMap κ α) : SortedMap κ α := m.insertMany n.entries

end Insert

/-! ## Lookup laws

What reading gives after an update. The laws are proved on the lists of entries, for any list: a
lookup stops at the first entry of a key, and neither an insertion nor a deletion changes which
one that is for another key. -/

section Laws

variable [DecidableEq κ]

@[simp] theorem find?_empty (k : κ) : (empty : SortedMap κ α).find? k = none := rfl

/-- Dropping the entries of one key hides that key and no other. -/
theorem lookup_filter_ne (j k : κ) (l : List (κ × α)) :
    lookup j (l.filter fun e => e.1 ≠ k) = if j = k then none else lookup j l := by
  induction l with
  | nil => simp [lookup]
  | cons e rest ih =>
    obtain ⟨k', a⟩ := e
    by_cases hk : k' = k
    · subst hk
      by_cases hj : j = k' <;> simp_all [lookup]
    · by_cases hj : j = k' <;> simp_all [lookup]

theorem find?_erase (m : SortedMap κ α) (j k : κ) :
    (m.erase k).find? j = if j = k then none else m.find? j :=
  lookup_filter_ne j k m.entries

variable [LT κ] [DecidableLT κ]

/-- Placing an entry changes what is found under its key, and nothing else. The order of keys need
not even be transitive for that. -/
theorem lookup_place (j k : κ) (a : α) (l : List (κ × α)) (irrefl : ∀ x : κ, ¬ x < x) :
    lookup j (place k a l) = if j = k then some a else lookup j l := by
  -- an entry is placed before the first larger key, so the walk is split the way `place` is
  induction l with
  | nil => simp [place, lookup]
  | cons e rest ih =>
    obtain ⟨k', a'⟩ := e
    by_cases hlt : k < k'
    · simp [place, hlt, lookup]
    · by_cases hk : k = k'
      · subst hk
        by_cases hj : j = k <;> simp_all [place, lookup]
      · by_cases hj : j = k'
        · have : ¬ k' = k := fun h => hk h.symm
          simp_all [place, lookup]
        · simp_all [place, lookup]

/-- Reading after an insertion into a map with string keys. Names are the only keys the theory
reads maps at. -/
theorem find?_insert (m : SortedMap String α) (j k : String) (a : α) :
    (m.insert k a).find? j = if j = k then some a else m.find? j :=
  lookup_place j k a m.entries String.lt_irrefl

end Laws

/-- The entries stand in strictly ascending key order. -/
def Sorted [LT κ] (m : SortedMap κ α) : Prop := m.entries.Pairwise fun e f => e.1 < f.1

end SortedMap

end Pathwise
