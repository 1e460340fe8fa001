import Pathwise.Program.Json
import Pathwise.Proofs.JsonText

/-!
# Pathwise.Proofs.JsonRecords

Records and variants as JSON, and reading them back.

`Json.Writes read j x` says that `j` is a written form of `x`: it has a text that can be read
exactly, and the reader finds `x` in it if it is allowed to enter as many levels as there are.
What is written is put together from a few shapes, and there is one lemma for each of them:

* lists (`Writes.list`);
* records, as objects with a member per field (`Writes.record`);
* variants, as objects with one member (`Writes.variant`), whose value may be a record
  (`Writes.recordVariant`) or a tuple (`Writes.tupleVariant`).

The readers take a number of levels that they may enter, so that they are defined by structural
recursion on it. Each lemma for a shape hands the reader of a part one level less, and the depth
of the written value is enough at every level.

The fields of a record are looked up by name, each of which has to occur once. What else a record
has, and in which order, is of no interest to its reader. The lemma for records is therefore about
any value that has the fields, and the written one is an instance.
-/

namespace Pathwise.Json

/-! ## Nesting

The depth of a value bounds that of its parts by one less. Arrays and objects count as one level
each, whatever they hold. -/

mutual

/-- How deep arrays and objects nest in a value. -/
def depth : Json → Nat
  | arr items => depthItems items + 1
  | obj members => depthMembers members + 1
  | _ => 0

def depthItems : List Json → Nat
  | [] => 0
  | j :: js => max (depth j) (depthItems js)

def depthMembers : List (String × Json) → Nat
  | [] => 0
  | (_, j) :: ms => max (depth j) (depthMembers ms)

end

variable {d : Nat}

theorem depthItems_le {items : List Json} : depthItems items ≤ d ↔ ∀ j ∈ items, j.depth ≤ d := by
  induction items with
  | nil => simp [depthItems]
  | cons j js ih => rw [depthItems, Nat.max_le, ih, List.forall_mem_cons]

theorem depthMembers_le {members : List (String × Json)} :
    depthMembers members ≤ d ↔ ∀ m ∈ members, m.2.depth ≤ d := by
  induction members with
  | nil => simp [depthMembers]
  | cons m ms ih => rw [depthMembers, Nat.max_le, ih, List.forall_mem_cons]

theorem depth_arr_le {items : List Json} (h : (arr items).depth ≤ d) :
    ∃ d', d = d' + 1 ∧ ∀ j ∈ items, j.depth ≤ d' := by
  rw [depth] at h
  obtain ⟨d', rfl⟩ := Nat.exists_eq_add_one_of_ne_zero (Nat.ne_zero_of_lt h)
  exact ⟨d', rfl, depthItems_le.1 (Nat.le_of_succ_le_succ h)⟩

theorem depth_obj_le {members : List (String × Json)} (h : (obj members).depth ≤ d) :
    ∃ d', d = d' + 1 ∧ ∀ m ∈ members, m.2.depth ≤ d' := by
  rw [depth] at h
  obtain ⟨d', rfl⟩ := Nat.exists_eq_add_one_of_ne_zero (Nat.ne_zero_of_lt h)
  exact ⟨d', rfl, depthMembers_le.1 (Nat.le_of_succ_le_succ h)⟩

/-! ## Fields

Names and values are paired up when a record is written, and found again by name when it is read.
-/

theorem unique?_cons_self {name : String} {members : List (String × Json)} {j : Json}
    (h : name ∉ members.map Prod.fst) : unique? name ((name, j) :: members) = some j := by
  have hrest : members.filter (fun m => m.1 = name) = [] := by
    refine List.filter_eq_nil_iff.2 fun m hm heq => h ?_
    exact List.mem_map.2 ⟨m, hm, of_decide_eq_true heq⟩
  rw [unique?, List.filter_cons_of_pos (by simp), hrest]

theorem unique?_cons_of_ne {name other : String} {members : List (String × Json)} {j : Json}
    (h : other ≠ name) : unique? name ((other, j) :: members) = unique? name members := by
  rw [unique?, List.filter_cons_of_neg (by simpa using h), unique?]

/-- A member is found if no other one has its name. -/
theorem unique?_of_mem {name : String} {members : List (String × Json)} {j : Json}
    (hn : (members.map Prod.fst).Nodup) (h : (name, j) ∈ members) :
    unique? name members = some j := by
  induction members with
  | nil => cases h
  | cons m ms ih =>
      rw [List.map_cons, List.nodup_cons] at hn
      rcases List.mem_cons.1 h with rfl | h
      · exact unique?_cons_self hn.1
      · have hne : m.1 ≠ name := fun heq => hn.1 (heq ▸ List.mem_map_of_mem h)
        exact (unique?_cons_of_ne hne).trans (ih hn.2 h)

/-- The fields of a record are found under their names. No name occurs twice, so each is found
where it was written. -/
theorem fields?_zip (names : List String) (values : List Json) (hn : names.Nodup)
    (hl : names.length = values.length) : fields? names (obj (names.zip values)) = some values := by
  refine mapM_eq_some (List.forall₂_iff_zip.2 ⟨hl, fun hmem => unique?_of_mem ?_ hmem⟩)
  rwa [List.map_fst_zip (Nat.le_of_eq hl)]

theorem exact_zip (names : List String) (values : List Json) (h : values.Forall Exact) :
    (obj (names.zip values)).Exact :=
  .obj fun _ hm => List.forall_iff_forall_mem.1 h _ (List.of_mem_zip hm).2

theorem depth_zip_le (names : List String) (values : List Json)
    (hl : names.length = values.length) (h : (obj (names.zip values)).depth ≤ d) :
    ∃ d', d = d' + 1 ∧ values.Forall fun j => j.depth ≤ d' := by
  obtain ⟨d, rfl, hmembers⟩ := depth_obj_le h
  refine ⟨d, rfl, List.forall_iff_forall_mem.2 fun j hj => ?_⟩
  rw [← List.map_snd_zip (Nat.le_of_eq hl.symm)] at hj
  obtain ⟨m, hm, rfl⟩ := List.mem_map.1 hj
  exact hmembers m hm

/-- A value with fields is no variant without data. -/
theorem plain?_variant {tag : String} {names : List String} {values : List Json} {body : Json}
    (h : fields? names body = some values) : plain? d (variant tag body) = none := by
  cases body with
  | null => cases h
  | _ => rfl

/-! ## Written forms

The shapes. For the types of a program the proof that they are read back is then a list of fields
with the lemma for each. -/

variable {α : Type} {read : Nat → Json → Option α} {x : α}

/-- The document `j` is a written form of `x`: it has an exact text, and reading it gives `x` if it
may nest as deep as it does. -/
structure Writes (read : Nat → Json → Option α) (j : Json) (x : α) : Prop where
  exact : j.Exact
  read : ∀ {d}, j.depth ≤ d → read d j = some x

/-- An id or ordinal that fits into 64 bits. -/
theorem writes_natural {n : Nat} (h : n < UInt64.size) :
    Writes (fun _ => natural?) (.ofNat n) n where
  exact := .int n
  read _ := by
    rw [ofNat, natural?, if_pos ⟨Int.natCast_nonneg n, Int.ofNat_lt.2 h⟩]
    rfl

theorem Writes.list {write : α → Json} {l : List α} (h : ∀ x ∈ l, Writes read (write x) x) :
    Writes (list? read) (arr (l.map write)) l where
  exact := .arr fun j hj => by
    obtain ⟨x, hx, rfl⟩ := List.mem_map.1 hj
    exact (h x hx).exact
  read {d} hd := by
    obtain ⟨d, rfl, hdepth⟩ := depth_arr_le hd
    refine mapM_eq_some (List.forall₂_map_left_iff.2 (List.forall₂_same.2 fun x hx => ?_))
    exact (h x hx).read (hdepth _ (List.mem_map_of_mem hx))

theorem writes_naturals {ns : List Nat} (h : ∀ n ∈ ns, n < UInt64.size) :
    Writes (list? fun _ => natural?) (arr (ns.map .ofNat)) ns :=
  .list fun n hn => writes_natural (h n hn)

/-- A record is written as an object with its fields. Its reader looks at nothing else, so it may
be given any value in which the fields are found. -/
theorem Writes.record (names : List String) (values : List Json) (hn : names.Nodup)
    (hl : names.length = values.length) (hexact : values.Forall Exact)
    (hread : ∀ d j, (values.Forall fun v => v.depth ≤ d) → fields? names j = some values →
      read (d + 1) j = some x) :
    Writes read (obj (names.zip values)) x where
  exact := exact_zip names values hexact
  read {d} hd := by
    obtain ⟨d, rfl, hvalues⟩ := depth_zip_le names values hl hd
    exact hread d _ hvalues (fields?_zip names values hn hl)

/-- A variant is an object whose only member names it. -/
theorem Writes.variant (tag : String) {body : Json} (hexact : body.Exact)
    (hread : ∀ d, body.depth ≤ d → read (d + 1) (variant tag body) = some x) :
    Writes read (variant tag body) x where
  exact := .obj fun m hm => by
    rw [List.mem_singleton.1 hm]
    exact hexact
  read {d} hd := by
    obtain ⟨d, rfl, hbody⟩ := depth_obj_le hd
    exact hread d (hbody _ List.mem_cons_self)

/-- The data of a variant may be a record. This takes two levels, one for the variant and one for
the record. -/
theorem Writes.recordVariant (tag : String) (names : List String) (values : List Json)
    (hn : names.Nodup) (hl : names.length = values.length) (hexact : values.Forall Exact)
    (hread : ∀ d body, (values.Forall fun v => v.depth ≤ d) → fields? names body = some values →
      read (d + 2) (Json.variant tag body) = some x) :
    Writes read (Json.variant tag (obj (names.zip values))) x :=
  .variant tag (exact_zip names values hexact) fun d hd => by
    obtain ⟨d, rfl, hvalues⟩ := depth_zip_le names values hl hd
    exact hread d _ hvalues (fields?_zip names values hn hl)

/-- It may be a tuple as well. -/
theorem Writes.tupleVariant (tag : String) (values : List Json) (hexact : values.Forall Exact)
    (hread : ∀ d, (values.Forall fun v => v.depth ≤ d) →
      read (d + 2) (Json.variant tag (arr values)) = some x) :
    Writes read (Json.variant tag (arr values)) x :=
  .variant tag (.arr (List.forall_iff_forall_mem.1 hexact)) fun d hd => by
    obtain ⟨d, rfl, hvalues⟩ := depth_arr_le hd
    exact hread d (List.forall_iff_forall_mem.2 hvalues)

end Pathwise.Json
