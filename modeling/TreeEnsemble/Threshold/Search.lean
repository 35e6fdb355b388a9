/-!
Binary search in a part of an array whose elements satisfy a property up to some position and fail
it from there on.
-/

namespace TreeEnsemble

/-- The first position from `lo` up to `hi` whose element fails `p`, or `hi`. -/
def partitionPoint {α : Type} (a : Array α) (p : α → Bool) (lo hi : Nat) : Nat :=
  if lo < hi then
    let middle := lo + (hi - lo) / 2
    if a[middle]?.any p then partitionPoint a p (middle + 1) hi
    else partitionPoint a p lo middle
  else lo
termination_by hi - lo

end TreeEnsemble
