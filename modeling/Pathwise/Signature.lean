import Pathwise.Ty

/-!
# Pathwise.Signature

Signatures of functions and predicates, and the table that hands out one number per distinct
signature.

`SignatureTable.intern` returns the position of an equal signature that is already stored and
otherwise appends, so the stored signatures stay pairwise distinct. That invariant is a field of
the table: a table with a repeated signature cannot be built, and whoever interns a signature has
to show that the new table is one.

Functions and predicates hold numbers and not signatures. Two of them have the same signature
exactly if they hold the same number, which is what distinctness is for;
`Pathwise.Proofs.Interning` says so.
-/

namespace Pathwise

/-- Parameter and result types of a function or predicate. -/
structure Signature where
  params : List Ty
  returns : List Ty
  deriving Repr, DecidableEq, Inhabited

namespace Signature

/-- The signature of a predicate: any parameters, and one Boolean result. -/
def predicate (params : List Ty) : Signature := ⟨params, [.bool]⟩

/-- Type names in parentheses, separated by commas. -/
def tuple (tys : List Ty) : String := "(" ++ ", ".intercalate (tys.map Ty.text) ++ ")"

/-- For instance `(int, float) -> (bool)`. -/
def text (s : Signature) : String := tuple s.params ++ " -> " ++ tuple s.returns

end Signature

/-- The number of a signature in its table. -/
abbrev SigId := Nat

/-- Distinct signatures, numbered by position. The order is that of the first appearance, so a
number that has been handed out stays what it is when the table grows. -/
structure SignatureTable where
  /-- The stored signatures in order of their first appearance. -/
  signatures : List Signature
  /-- No signature is stored twice. -/
  nodup : signatures.Nodup

namespace SignatureTable

def empty : SignatureTable := ⟨[], List.nodup_nil⟩

instance : Inhabited SignatureTable := ⟨empty⟩

/-- The number of a stored signature. -/
def index? (t : SignatureTable) (s : Signature) : Option SigId := t.signatures.idxOf? s

/-- The signature with a given number. -/
def get? (t : SignatureTable) (id : SigId) : Option Signature := t.signatures[id]?

def size (t : SignatureTable) : Nat := t.signatures.length

/-- The number of `s`, which is appended if it is not stored yet. The proof that the longer table
has no duplicate is the failed search itself. -/
def intern (t : SignatureTable) (s : Signature) : SigId × SignatureTable :=
  if h : s ∈ t.signatures then (t.signatures.idxOf s, t)
  else
    (t.size, ⟨t.signatures ++ [s], by
      refine List.nodup_append.2 ⟨t.nodup, by simp, ?_⟩
      intro a ha b hb
      rw [List.mem_singleton] at hb
      exact fun e => h (hb ▸ e ▸ ha)⟩)

/-- The table that interning the signatures of a list in turn builds. A repeated signature adds
nothing. -/
def ofList (sigs : List Signature) : SignatureTable :=
  sigs.foldl (fun t s => (t.intern s).2) empty

end SignatureTable

end Pathwise
