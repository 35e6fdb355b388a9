import TreeEnsemble.Proofs.Draft.Build
import TreeEnsemble.Proofs.Tree.Defects

/-!
Edits that name a node that the draft lacks. All are refused but one kind: a split looks its node up
after its children are there, so the numbers of the two children are accepted, and the node becomes
its own child. Such a node is cut off from the root, unless it is the root.
-/

namespace TreeEnsemble.Draft

end TreeEnsemble.Draft
