import Pathwise.SortedMap

/-!
# Pathwise.Proofs.SortedMap

Order and look-up.

The entries of a map that insertion and removal have built are in strict order (`pairwise_place`,
`sorted_erase`), so a key has one entry at most. Two consequences are used everywhere. `union`
inserts the entries of the second map one after the other, so that the last entry of a key would
win, while look-up takes the first: for maps in order the two agree (`find?_union`). And a map in
order is settled by what look-up finds in it (`eq_of_lookup_eq`).

Keys are strings or 64-bit integers. What is needed of their order is said where it is needed: the
laws take transitivity, asymmetry or connectedness as hypotheses about `<`, and the second section
supplies them for strings.
-/

namespace Pathwise.SortedMap

variable {α : Type}

section Keys

variable {κ : Type} [DecidableEq κ]

theorem mem_of_lookup {k : κ} {a : α} {l : List (κ × α)} (h : lookup k l = some a) :
    (k, a) ∈ l := by
  induction l with
  | nil => cases h
  | cons e rest ih =>
      obtain ⟨k', b⟩ := e
      rw [lookup] at h
      split at h
      · next hk =>
          cases h
          rw [hk]
          exact List.mem_cons_self
      · exact List.mem_cons_of_mem _ (ih h)

theorem lookup_eq_none {k : κ} {l : List (κ × α)} (h : ∀ e ∈ l, k ≠ e.1) : lookup k l = none :=
  Option.eq_none_iff_forall_not_mem.2 fun a ha => h (k, a) (mem_of_lookup ha) rfl

variable [LT κ]

theorem sorted_erase {m : SortedMap κ α} (h : m.Sorted) (k : κ) : (m.erase k).Sorted :=
  List.Pairwise.filter _ h

/-- A list in strict order is settled by what look-up finds in it. So sorted maps are equal if
they have the same values at all keys. -/
theorem eq_of_lookup_eq (asymm : ∀ {x y : κ}, x < y → ¬ y < x) {l l' : List (κ × α)}
    (h : l.Pairwise fun e f => e.1 < f.1) (h' : l'.Pairwise fun e f => e.1 < f.1)
    (heq : ∀ k, lookup k l = lookup k l') : l = l' := by
  have hne : ∀ {k k' : κ}, k < k' → k ≠ k' := fun hlt he => asymm hlt (he ▸ hlt)
  induction l generalizing l' with
  | nil =>
      cases l' with
      | nil => rfl
      | cons e rest' =>
          have hnone := heq e.1
          rw [lookup, lookup, if_pos rfl] at hnone
          cases hnone
  | cons e rest ih =>
      cases l' with
      | nil =>
          have hnone := heq e.1
          rw [lookup, lookup, if_pos rfl] at hnone
          cases hnone
      | cons e' rest' =>
          obtain ⟨k, a⟩ := e
          obtain ⟨k', a'⟩ := e'
          obtain ⟨hfirst, hrest⟩ := List.pairwise_cons.1 h
          obtain ⟨hfirst', hrest'⟩ := List.pairwise_cons.1 h'
          -- each list has the first key of the other, so neither key is the smaller one
          have hk : k = k' := by
            refine Decidable.byContradiction fun hkk => ?_
            have hin := heq k
            have hin' := heq k'
            rw [lookup, lookup, if_pos rfl, if_neg hkk] at hin
            rw [lookup, lookup, if_pos rfl, if_neg fun he => hkk he.symm] at hin'
            exact asymm (hfirst _ (mem_of_lookup hin')) (hfirst' _ (mem_of_lookup hin.symm))
          subst hk
          have ha := heq k
          rw [lookup, lookup, if_pos rfl, if_pos rfl] at ha
          cases ha
          have htail : ∀ j, lookup j rest = lookup j rest' := by
            intro j
            by_cases hj : j = k
            · rw [hj, lookup_eq_none fun f hf => hne (hfirst f hf),
                lookup_eq_none fun f hf => hne (hfirst' f hf)]
            · have hlook := heq j
              rwa [lookup, lookup, if_neg hj, if_neg hj] at hlook
          rw [ih hrest hrest' htail]

variable [DecidableLT κ]

theorem mem_place {k : κ} {a : α} {l : List (κ × α)} {e : κ × α} (h : e ∈ place k a l) :
    e = (k, a) ∨ e ∈ l := by
  induction l with
  | nil => exact Or.inl (List.mem_singleton.1 h)
  | cons f rest ih =>
      rw [place] at h
      split at h
      · exact List.mem_cons.1 h
      · split at h
        · exact (List.mem_cons.1 h).imp_right (List.mem_cons_of_mem f)
        · rcases List.mem_cons.1 h with rfl | h
          · exact Or.inr List.mem_cons_self
          · exact (ih h).imp_right (List.mem_cons_of_mem f)

/-- Placing an entry keeps the order. The hypotheses say that `<` is transitive, and that of two
keys that differ one is the smaller. -/
theorem pairwise_place (trans : ∀ {x y z : κ}, x < y → y < z → x < z)
    (connected : ∀ {x y : κ}, ¬ x < y → x ≠ y → y < x) {k : κ} {a : α} {l : List (κ × α)}
    (h : l.Pairwise fun e f => e.1 < f.1) : (place k a l).Pairwise fun e f => e.1 < f.1 := by
  induction l with
  | nil => exact List.pairwise_singleton _ _
  | cons f rest ih =>
      obtain ⟨hf, hrest⟩ := List.pairwise_cons.1 h
      rw [place]
      split
      · next hlt =>
          refine List.pairwise_cons.2 ⟨fun e he => ?_, h⟩
          rcases List.mem_cons.1 he with rfl | he
          · exact hlt
          · exact trans hlt (hf e he)
      · next hlt =>
          split
          · next heq =>
              refine List.pairwise_cons.2 ⟨fun e he => ?_, hrest⟩
              exact heq ▸ hf e he
          · next hne =>
              refine List.pairwise_cons.2 ⟨fun e he => ?_, ih hrest⟩
              rcases mem_place he with rfl | he
              · exact connected hlt hne
              · exact hf e he

end Keys

/-! ## String keys

The maps of the verifier (types, substitutions, valuations, symbols) have names as keys. They are
all built from the empty map by insertions, and so are in order. -/

theorem sorted_empty : (empty : SortedMap String α).Sorted := List.Pairwise.nil

theorem sorted_insert {m : SortedMap String α} (h : m.Sorted) (k : String) (a : α) :
    (m.insert k a).Sorted :=
  pairwise_place String.lt_trans
    (fun hlt hne => String.not_le.1 fun hle => hne (String.le_antisymm hle (String.not_lt.1 hlt))) h

/-- Inserting entries in strict order: the one entry of a key, if any, wins. Without order a later
entry of the same key would win, and look-up would find the first. -/
theorem find?_insertMany (m : SortedMap String α) {l : List (String × α)}
    (h : l.Pairwise fun e f => e.1 < f.1) (x : String) :
    (m.insertMany l).find? x = (lookup x l).or (m.find? x) := by
  induction l generalizing m with
  | nil => simp [insertMany, lookup]
  | cons f rest ih =>
      obtain ⟨k, a⟩ := f
      obtain ⟨hf, hrest⟩ := List.pairwise_cons.1 h
      have hstep : m.insertMany ((k, a) :: rest) = (m.insert k a).insertMany rest := rfl
      rw [hstep, ih (m.insert k a) hrest, find?_insert, lookup]
      by_cases hx : x = k
      · have hnone : lookup x rest = none :=
          lookup_eq_none fun e he => hx ▸ String.ne_of_lt (hf e he)
        rw [if_pos hx, if_pos hx, hnone]
        rfl
      · rw [if_neg hx, if_neg hx]

/-- In a union the entries of the second map come first. The second one must be in order, so that
it has one entry for each of its keys. -/
theorem find?_union (m : SortedMap String α) {n : SortedMap String α} (h : n.Sorted)
    (x : String) : (m.union n).find? x = (n.find? x).or (m.find? x) :=
  find?_insertMany m h x

end Pathwise.SortedMap
