/-!
# Ascending lists

A finite set of ordered things is kept as the list of its members in ascending order, each once.
-/

namespace Linkage

/-- The members of a list in ascending order, each once. -/
def ascending {α : Type} [BEq α] (le : α → α → Bool) (xs : List α) : List α :=
  (xs.mergeSort le).eraseReps

/-- The order of texts by code points. -/
def textLe (a b : String) : Bool := decide (a ≤ b)

end Linkage
