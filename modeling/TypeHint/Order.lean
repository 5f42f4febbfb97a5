/-!
# Sorting by insertion

`sortBy lt` is stable: elements that `lt` does not order keep their places.  `freshBy` keeps the
first element with each key that was not seen before.
-/

namespace TypeHint

variable {α : Type}

/-- puts `x` in front of the first element that does not come before it -/
def insertBy (lt : α → α → Bool) (x : α) : List α → List α
  | [] => [x]
  | y :: ys => if lt y x then y :: insertBy lt x ys else x :: y :: ys

def sortBy (lt : α → α → Bool) (xs : List α) : List α := xs.foldr (insertBy lt) []

/-- keeps the first element with each key that is not in `seen` -/
def freshBy {κ : Type} [DecidableEq κ] (key : α → κ) (seen : List κ) : List α → List α
  | [] => []
  | x :: xs =>
    if key x ∈ seen then freshBy key seen xs else x :: freshBy key (key x :: seen) xs

end TypeHint
