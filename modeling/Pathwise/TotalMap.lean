import Pathwise.SortedMap

/-!
# Pathwise.TotalMap

Total maps from 64-bit integers: finitely many explicit entries over a default.

These are the values of arrays when an expression is evaluated. Every index has an element, since
an array of the logic is a total function and its length only a number that stands beside it;
reading past the end is no error.

`store` drops an entry that equals the default, so a map has one representation whatever the order
and number of stores that built it. Equality of arrays can then be tested by comparing
representations.
-/

namespace Pathwise

/-- A total map: the default everywhere but at the explicit entries. -/
structure TotalMap (α : Type) where
  /-- The entries that differ from the default, by index. -/
  explicit : SortedMap Int64 α
  /-- The value everywhere else. -/
  default : α

namespace TotalMap

variable {α : Type}

/-- The map that is `d` everywhere. -/
def constant (d : α) : TotalMap α := ⟨.empty, d⟩

/-- The value at an index. -/
def select (m : TotalMap α) (i : Int64) : α := (m.explicit.find? i).getD m.default

/-- The map with `v` at `i`. A value that equals the default leaves no entry, and removes the one
that may be there. -/
def store [BEq α] (m : TotalMap α) (i : Int64) (v : α) : TotalMap α :=
  if v == m.default then { m with explicit := m.explicit.erase i }
  else { m with explicit := m.explicit.insert i v }

/-- Store the values of a list at consecutive indices from `i` on. -/
def storeFrom [BEq α] (m : TotalMap α) (i : Int64) : List α → TotalMap α
  | [] => m
  | v :: vs => (m.store i v).storeFrom (i + 1) vs

/-- The map with the values of a list at the indices from zero on. -/
def ofElements [BEq α] (d : α) (vs : List α) : TotalMap α := (constant d).storeFrom 0 vs

end TotalMap

end Pathwise
