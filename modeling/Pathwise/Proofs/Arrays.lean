import Pathwise.Proofs.SortedMap
import Pathwise.Proofs.Values

/-!
# Pathwise.Proofs.Arrays

Arrays as a canonical form of total maps.

Evaluation compares arrays entry by entry. This is right only if a map from indices to values has
one representation, whatever the order and number of stores that built it. `TotalMap.Canonical` is
what makes it unique: the entries are in strict order, and none of them is the default. Every
store keeps it (`TotalMap.Canonical.store`), so it holds of all arrays that are built by stores
(`TotalMap.Built`), and arrays in this form with one default are equal if they have the same
elements (`TotalMap.Canonical.ext`).

Elements may be arrays themselves, to any depth. Where no float is involved, `==` is equality at
every depth (`Value.beq_iff_eq`).

Floats have to be kept out because comparison of floats is not equality: a value that is not equal
to itself would stay in an array as an entry even where it is the default, and two zeros that
compare as equal are different values. Both the removal of defaults and the comparison of entries
go by `==`.
-/

namespace Pathwise

/-! ## Values without floats

Values, their arrays and the entries of these are one mutual recursion. `Value.induct` is the
induction principle that goes with it, stated for values only, so that no other proof has to
mention lists of entries. -/

namespace Value

/-- Induction over values, with the hypothesis for every entry of an array and for its default. -/
@[elab_as_elim]
theorem induct {motive : Value → Prop} (int : ∀ n, motive (.int n))
    (float : ∀ x, motive (.float x)) (bool : ∀ b, motive (.bool b))
    (array : ∀ m : TotalMap Value, (∀ entry ∈ m.explicit.entries, motive entry.2) →
      motive m.default → motive (.array m)) (v : Value) : motive v :=
  @Value.rec motive (fun m => (∀ entry ∈ m.explicit.entries, motive entry.2) ∧ motive m.default)
    (fun s => ∀ entry ∈ s.entries, motive entry.2) (fun es => ∀ entry ∈ es, motive entry.2)
    (fun entry => motive entry.2) int float bool (fun m h => array m h.1 h.2)
    (fun _ _ hs hd => ⟨hs, hd⟩) (fun _ h => h) (List.forall_mem_nil _)
    (fun _ _ h hs => List.forall_mem_cons.2 ⟨h, hs⟩) (fun _ _ h => h) v

mutual

/-- Whether no float occurs in a value, at any depth of arrays. -/
def floatFree : Value → Bool
  | int _ | bool _ => true
  | float _ => false
  | array ⟨⟨es⟩, d⟩ => floatFreeEntries es && floatFree d

/-- Whether no float occurs in the entries of an array. -/
def floatFreeEntries : List (Int64 × Value) → Bool
  | [] => true
  | (_, v) :: es => floatFree v && floatFreeEntries es

end

theorem floatFreeEntries_iff {es : List (Int64 × Value)} :
    floatFreeEntries es = true ↔ ∀ entry ∈ es, entry.2.floatFree = true := by
  induction es with
  | nil => simp [floatFreeEntries]
  | cons entry es ih => simp [floatFreeEntries, ih]

theorem floatFree_array {m : TotalMap Value} :
    (array m).floatFree = true ↔
      (∀ entry ∈ m.explicit.entries, entry.2.floatFree = true) ∧ m.default.floatFree = true := by
  obtain ⟨⟨es⟩, d⟩ := m
  rw [floatFree, Bool.and_eq_true, floatFreeEntries_iff]

/-- Entries are compared as equal only if they are equal, as long as this is so for their values.
-/
theorem sameEntries_iff {es fs : List (Int64 × Value)}
    (h : ∀ entry ∈ es, ∀ w, same entry.2 w = true ↔ entry.2 = w) :
    sameEntries es fs = true ↔ es = fs := by
  induction es generalizing fs with
  | nil => cases fs <;> simp [sameEntries]
  | cons entry es ih =>
      obtain ⟨hentry, hes⟩ := List.forall_mem_cons.1 h
      cases fs with
      | nil => simp [sameEntries]
      | cons f fs =>
          obtain ⟨i, v⟩ := entry
          obtain ⟨j, w⟩ := f
          simp [sameEntries, ih hes, hentry w, and_assoc]

/-- Where no float is involved, values compare as equal only if they are. Floats are compared as
numbers: zero has two forms, and what is no number differs from itself. -/
theorem same_iff {v : Value} (h : v.floatFree = true) (w : Value) : same v w = true ↔ v = w := by
  induction v using induct generalizing w with
  | int n => cases w <;> simp [same]
  | float x => cases h
  | bool b => cases w <;> simp [same]
  | array m hentries hdefault =>
      obtain ⟨hfree, hd⟩ := floatFree_array.1 h
      cases w with
      | array n =>
          obtain ⟨⟨es⟩, d⟩ := m
          obtain ⟨⟨fs⟩, e⟩ := n
          have hes : sameEntries es fs = true ↔ es = fs :=
            sameEntries_iff fun entry hmem => hentries entry hmem (hfree entry hmem)
          rw [same, Bool.and_eq_true, hes, hdefault hd]
          simp
      | _ => simp [same]

/-- Equality as it is tested is equality, if no float is compared. Floats compare as numbers: the
two zeros are equal, and what is not a number is not even equal to itself. -/
theorem beq_iff_eq {v w : Value} (h : v.floatFree = true) : (v == w) = true ↔ v = w := same_iff h w

end Value

/-! ## Canonical maps

For any type of elements. Only extensionality needs comparison to be reflexive, and only at the
default. -/

namespace TotalMap

/-- What every store in a list of stores keeps, storing a list of values keeps. -/
theorem storeFrom_induct {α : Type} [BEq α] {motive : TotalMap α → Prop} {vs : List α}
    (step : ∀ m i, ∀ v ∈ vs, motive m → motive (m.store i v)) {m : TotalMap α} (h : motive m)
    (i : Int64) : motive (m.storeFrom i vs) := by
  induction vs generalizing m i with
  | nil => exact h
  | cons v vs ih =>
      exact ih (fun m i w hw => step m i w (List.mem_cons_of_mem v hw))
        (step m i v List.mem_cons_self h) (i + 1)

/-- The entries of a map are in strict order, and none of them is the default. There is one such
map for each choice of elements and of a default. -/
structure Canonical {α : Type} [BEq α] (m : TotalMap α) : Prop where
  sorted : m.explicit.Sorted
  /-- No entry is the default. -/
  proper : ∀ entry ∈ m.explicit.entries, (entry.2 == m.default) = false

namespace Canonical

variable {α : Type} [BEq α] {m n : TotalMap α}

theorem constant (d : α) : (TotalMap.constant d).Canonical :=
  ⟨List.Pairwise.nil, List.forall_mem_nil _⟩

/-- A store keeps a map canonical: it takes an entry out, or puts in one that is not the
default. -/
theorem store (h : m.Canonical) (i : Int64) (v : α) : (m.store i v).Canonical := by
  unfold TotalMap.store
  split
  · refine ⟨SortedMap.sorted_erase h.sorted i, fun entry hentry => ?_⟩
    exact h.proper entry (List.mem_filter.1 hentry).1
  · next hv =>
      have hconnected : ∀ {x y : Int64}, ¬ x < y → x ≠ y → y < x := by
        intro x y hlt hne
        exact Int64.lt_of_le_of_ne (Int64.not_lt.1 hlt) hne.symm
      refine ⟨SortedMap.pairwise_place Int64.lt_trans hconnected h.sorted, fun entry hentry => ?_⟩
      rcases SortedMap.mem_place hentry with rfl | hentry
      · exact Bool.eq_false_iff.2 hv
      · exact h.proper entry hentry

/-- An explicit entry is what the map has at its index, and the default is not. So the entries are
determined by what the map has at all indices. -/
theorem find?_eq_some_iff (h : m.Canonical) (hd : (m.default == m.default) = true) {i : Int64}
    {a : α} : m.explicit.find? i = some a ↔ m.select i = a ∧ (a == m.default) = false := by
  unfold select
  constructor
  · intro hfind
    exact ⟨by rw [hfind, Option.getD_some], h.proper (i, a) (SortedMap.mem_of_lookup hfind)⟩
  · rintro ⟨rfl, hne⟩
    cases hfind : m.explicit.find? i with
    | some b => rfl
    | none =>
        rw [hfind, Option.getD_none, hd] at hne
        cases hne

/-- Canonical maps with one default are equal if they have the same elements. The default must
compare equal to itself, or else an entry could not be told from it. -/
theorem ext (hm : m.Canonical) (hn : n.Canonical) (hdefault : m.default = n.default)
    (hd : (m.default == m.default) = true) (h : ∀ i, m.select i = n.select i) : m = n := by
  have hfind : ∀ i, m.explicit.find? i = n.explicit.find? i := by
    intro i
    refine Option.ext fun a => ?_
    rw [hm.find?_eq_some_iff hd, hn.find?_eq_some_iff (hdefault ▸ hd), h i, hdefault]
  obtain ⟨⟨es⟩, d⟩ := m
  obtain ⟨⟨fs⟩, e⟩ := n
  cases hdefault
  have hentries : es = fs := SortedMap.eq_of_lookup_eq Int64.lt_asymm hm.sorted hn.sorted hfind
  rw [hentries]

end Canonical

/-! ## Arrays that stores have built

Histories of arrays, and what every one of them leads to. -/

/-- The arrays over the default `d` that are built by any number of stores of values without
floats, one by one or as a list of elements. -/
inductive Built (d : Value) : TotalMap Value → Prop where
  | constant : Built d (.constant d)
  | ofElements {vs : List Value} (hvs : ∀ v ∈ vs, v.floatFree = true) : Built d (.ofElements d vs)
  | store {m : TotalMap Value} (hm : Built d m) (i : Int64) {v : Value} (hv : v.floatFree = true) :
      Built d (m.store i v)

variable {d : Value} {m n : TotalMap Value}

/-- An array over the default `d` in canonical form, with no float in it. -/
structure Normal (d : Value) (m : TotalMap Value) : Prop where
  canonical : m.Canonical
  /-- The default stays. -/
  default_eq : m.default = d
  /-- No entry has a float in it. -/
  entries : ∀ entry ∈ m.explicit.entries, entry.2.floatFree = true

theorem Normal.store (h : m.Normal d) (i : Int64) {v : Value} (hv : v.floatFree = true) :
    (m.store i v).Normal d where
  canonical := h.canonical.store i v
  default_eq := default_store.trans h.default_eq
  entries entry hentry := by
    unfold TotalMap.store at hentry
    split at hentry
    · exact h.entries entry (List.mem_filter.1 hentry).1
    · rcases SortedMap.mem_place hentry with rfl | hentry
      · exact hv
      · exact h.entries entry hentry

/-- All histories lead to a normal array. By induction on the history; a store of the default
removes an entry and so keeps the form. -/
theorem Built.normal (h : m.Built d) : m.Normal d := by
  have hconstant : (TotalMap.constant d).Normal d := ⟨.constant d, rfl, List.forall_mem_nil _⟩
  induction h with
  | constant => exact hconstant
  | ofElements hvs => exact storeFrom_induct (fun m i v hv hm => hm.store i (hvs v hv)) hconstant 0
  | store hm i hv ih => exact ih.store i hv

theorem Normal.floatFree_select (h : m.Normal d) (hd : d.floatFree = true) (i : Int64) :
    (m.select i).floatFree = true := by
  unfold select
  cases hfind : m.explicit.find? i with
  | none => exact h.default_eq ▸ hd
  | some a => exact h.entries (i, a) (SortedMap.mem_of_lookup hfind)

/-- Arrays without floats compare as equal only if they are. The comparison goes through the
entries, which are determined by the elements. -/
theorem Normal.beq_iff_eq (h : m.Normal d) (hd : d.floatFree = true) :
    (Value.array m == Value.array n) = true ↔ m = n := by
  rw [Value.beq_iff_eq (Value.floatFree_array.2 ⟨h.entries, h.default_eq ▸ hd⟩)]
  simp

end TotalMap

/-- Arrays are a canonical form of total maps. Take arrays over one default that are built by any
number of stores in any order, with values without floats.

* A store changes the element at its index and no other.
* No explicit entry is ever the default.
* Two such arrays compare as equal exactly if they have the same element at every index. Then they
  are one array. -/
theorem arrays_canonical {d : Value} (hd : d.floatFree = true) {m : TotalMap Value}
    (hm : m.Built d) :
    (∀ i v, v.floatFree = true → ∀ j,
      (m.store i v).select j = if i = j then v else m.select j) ∧
    (∀ entry ∈ m.explicit.entries, (entry.2 == m.default) = false) ∧
    ∀ n : TotalMap Value, n.Built d →
      ((Value.array m == Value.array n) = true ↔ ∀ i, (m.select i == n.select i) = true) ∧
      ((Value.array m == Value.array n) = true → m = n) := by
  have hnormal := hm.normal
  refine ⟨fun i v hv j => ?_, hnormal.canonical.proper, fun n hn => ⟨?_, ?_⟩⟩
  · rw [TotalMap.select_store (Value.beq_iff_eq hv).1]
    simp only [eq_comm]
  · have hselect : ∀ i, (m.select i == n.select i) = true ↔ m.select i = n.select i := fun i =>
      Value.beq_iff_eq (hnormal.floatFree_select hd i)
    have hrefl : (m.default == m.default) = true :=
      (Value.beq_iff_eq (hnormal.default_eq ▸ hd)).2 rfl
    rw [hnormal.beq_iff_eq hd]
    constructor
    · rintro rfl i
      exact (hselect i).2 rfl
    · intro h
      exact hnormal.canonical.ext hn.normal.canonical
        (hnormal.default_eq.trans hn.normal.default_eq.symm) hrefl fun i => (hselect i).1 (h i)
  · exact (hnormal.beq_iff_eq hd).1

namespace Grid

/-- A row of zeros. -/
def blank : Value := .array (.constant (.int 0))

/-- A row with `n` at the index one. -/
def row (n : Int64) : Value := .array (.ofElements (.int 0) [.int 0, .int n])

/-- Rows are written at two and at minus one, and the one at two is blanked again. -/
def rewritten : TotalMap Value :=
  (((TotalMap.constant blank).store 2 (row 5)).store (-1) (row 7)).store 2 (row 0)

/-- The row at minus one is written alone, over another one. -/
def written : TotalMap Value :=
  ((TotalMap.ofElements blank [blank]).store (-1) (row 6)).store (-1) (row 7)

theorem built_rewritten : rewritten.Built blank :=
  .store (.store (.store .constant 2 (by decide +kernel)) (-1) (by decide +kernel)) 2
    (by decide +kernel)

theorem built_written : written.Built blank :=
  .store (.store (.ofElements (by decide +kernel)) (-1) (by decide +kernel)) (-1)
    (by decide +kernel)

end Grid

/-- Two arrays of arrays with different histories. -/
theorem arrays_canonical_grid :
    Grid.blank.floatFree = true ∧ Grid.rewritten.Built Grid.blank ∧
      Grid.written.Built Grid.blank ∧
      (∀ i, (Grid.rewritten.select i == Grid.written.select i) = true) ∧
      Grid.rewritten = Grid.written := by
  have hd : Grid.blank.floatFree = true := by decide +kernel
  have hequal : (Value.array Grid.rewritten == Value.array Grid.written) = true := by
    decide +kernel
  have hboth := (arrays_canonical hd Grid.built_rewritten).2.2 _ Grid.built_written
  exact ⟨hd, Grid.built_rewritten, Grid.built_written, hboth.1.1 hequal, hboth.2 hequal⟩

end Pathwise
