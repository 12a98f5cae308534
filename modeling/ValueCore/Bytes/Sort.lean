import ValueCore.Bytes

/-!
# Sorting by a byte string

Lists are put into ascending order of a byte string that each item has. Items with the same byte
string keep their order: `insertBy` puts an item in front of the first one that is not smaller, and
`sortBy` inserts the last item first.
-/

namespace ValueCore

variable {α : Type} (name : α → Bytes)

/-- Puts an item in front of the first one of an ascending list that is not smaller. -/
def insertBy (x : α) : List α → List α
  | [] => [x]
  | y :: ys => if (name x).le (name y) then x :: y :: ys else y :: insertBy x ys

/-- The items in ascending order of `name`. -/
def sortBy : List α → List α
  | [] => []
  | x :: xs => insertBy name x (sortBy xs)

end ValueCore
