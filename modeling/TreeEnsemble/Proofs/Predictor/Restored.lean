import TreeEnsemble.Proofs.Model.RoundTrip
import TreeEnsemble.Proofs.Predictor.Agreement

/-!
Where the codes of a quantized forest come from. Codes that were assigned here are those of the
table. Codes that stood in a document are taken as they are, with whatever table stood beside them,
and nothing compares the two; the forest counts as quantized all the same.
-/

namespace TreeEnsemble

namespace Forest

/-- The trees and the table, or the lack of one, are those of a document. -/
def Restored (f : Forest) : Prop :=
  ∃ d g, load d = .ok g ∧ g.trees = f.trees ∧ g.table = f.table ∧ g.featureCount = f.featureCount

/-- The trees and the table are those of a document, or a table that is there covers the forest and
gives its codes to the splits of every tree. A column of leaf marks that is too long may mark splits
that no node has. -/
def Accounted (f : Forest) : Prop :=
  f.Restored ∨ ∀ table, f.table = some table →
    f.width ≤ table.featureCount ∧ ∀ t ∈ f.trees, t.leaf.size = t.size → t.CodedBy table

theorem accounted_of_noTable {f : Forest} (h : f.table = none) : f.Accounted :=
  Or.inr fun _ hsome => nomatch h.symm.trans hsome

theorem Accounted.change {f g : Forest} {c : Change} (h : f.Accounted)
    (hg : f.change c = .ok g) : g.Accounted := by
  cases recoded_change hg with
  | kept => exact h
  | cleared hnone => exact accounted_of_noTable hnone
  | coded _ hcov hcoded =>
    refine Or.inr fun table' htable => ?_
    cases htable
    refine ⟨hcov, fun t ht hsize => ?_⟩
    obtain ⟨u, _, hassign⟩ := (codedTrees_ok hcoded).2 t (List.mem_toArray.mp ht)
    obtain ⟨_, _, rfl, _, _, hcodes⟩ := Tree.assignBins_ok hassign
    exact hcodes hsize

end Forest

namespace Predictor

/-- A stump with the codes of a table that has its own threshold and no other. -/
def stump : Tree where
  features := #[0, 0, 0]
  thresholds := #[⟨0x3f000000⟩, .zero, .zero]
  thresholdBins := #[0, 0, 0]
  zeroBins := #[-1, 0, 0]
  comparisons := #[.lt, .lt, .lt]
  left := #[1, 0, 0]
  right := #[2, 0, 0]
  defaultLeft := #[true, false, false]
  missingAsZero := #[false, false, false]
  leaf := #[false, true, true]
  values := #[.zero, ⟨0x3f800000⟩, ⟨0x40000000⟩]

end Predictor

end TreeEnsemble
