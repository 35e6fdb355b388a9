import TreeEnsemble.Proofs.Forest.Order

/-!
The trees of one group, in the order in which they were added. A tree more comes last in its group
and leaves the other groups alone. A reordering that keeps the order inside each group keeps a
forest well formed.
-/

namespace TreeEnsemble.Forest

/-- The trees of a group, in order. -/
def treesOf (f : Forest) (group : Nat) : List Tree :=
  f.treesWithGroups.filterMap fun tg => if group = tg.2.toNat then some tg.1 else none

theorem map_fst_treesWithGroups {f : Forest} (hsize : f.groups.size = f.trees.size) :
    f.treesWithGroups.map Prod.fst = f.trees.toList :=
  List.map_fst_zip (by simp only [Array.length_toList, hsize, Nat.le_refl])

theorem map_snd_treesWithGroups {f : Forest} (hsize : f.groups.size = f.trees.size) :
    f.treesWithGroups.map Prod.snd = f.groups.toList :=
  List.map_snd_zip (by simp only [Array.length_toList, hsize, Nat.le_refl])

theorem mem_treesOf_iff {f : Forest} {group : Nat} {t : Tree} :
    t ∈ f.treesOf group ↔ ∃ tg ∈ f.treesWithGroups, tg.1 = t ∧ tg.2.toNat = group := by
  simp only [treesOf, List.mem_filterMap]
  constructor
  · intro ⟨tg, hmem, ht⟩
    split at ht
    next hgroup => exact ⟨tg, hmem, Option.some.inj ht, hgroup.symm⟩
    next => cases ht
  · intro ⟨tg, hmem, ht, hgroup⟩
    exact ⟨tg, hmem, by rw [if_pos hgroup.symm, ht]⟩

theorem mem_trees_of_mem_treesOf {f : Forest} {group : Nat} {t : Tree} (h : t ∈ f.treesOf group) :
    t ∈ f.trees := by
  obtain ⟨tg, hmem, rfl, _⟩ := mem_treesOf_iff.mp h
  exact Array.mem_toList_iff.mp (List.of_mem_zip hmem).1

theorem treesOf_clearBins (f : Forest) (group : Nat) :
    f.clearBins.treesOf group = (f.treesOf group).map Tree.clearBins := by
  simp only [treesOf, treesWithGroups, clearBins, Array.toList_map, List.zip_map_left,
    List.filterMap_map, List.map_filterMap]
  refine List.filterMap_congr fun tg _ => ?_
  show (if group = tg.2.toNat then some tg.1.clearBins else none) = _
  split <;> rfl

theorem map_clearBins_treesOf {f g : Forest} (h : g.clearBins = f.clearBins) (group : Nat) :
    (g.treesOf group).map Tree.clearBins = (f.treesOf group).map Tree.clearBins := by
  rw [← treesOf_clearBins, ← treesOf_clearBins, h]

/-- The forest with one more tree, whatever becomes of the table and the codes. -/
def grown (f : Forest) (t : Tree) (group : UInt32) : Forest :=
  { f with trees := f.trees.push t, groups := f.groups.push group }

theorem push_grown {f g : Forest} {t : Tree} {group : UInt32} (h : f.push t group = .ok g) :
    group < f.groupCount ∧ g.clearBins = (f.grown t group).clearBins := by
  unfold push at h
  split at h
  next hin =>
    refine ⟨hin, ?_⟩
    cases h
    split
    · exact clearBins_clearBins (f.grown t group)
    · rfl
  next => cases h

theorem clearBins_grown (f : Forest) (t : Tree) (group : UInt32) :
    (f.grown t group).clearBins = f.clearBins.grown t.clearBins group := by
  simp only [clearBins, grown, Array.map_push]

theorem treesOf_grown {f : Forest} (hsize : f.groups.size = f.trees.size) (t : Tree)
    (new : UInt32) (group : Nat) :
    (f.grown t new).treesOf group =
      if group = new.toNat then f.treesOf group ++ [t] else f.treesOf group := by
  have hzip : (f.grown t new).treesWithGroups = f.treesWithGroups ++ [(t, new)] := by
    simp only [treesWithGroups, grown, Array.toList_push]
    exact List.zip_append (by simp only [Array.length_toList, hsize])
  simp only [treesOf, hzip, List.filterMap_append]
  split
  next heq => simp [heq]
  next hne => simp [hne]

/-- A tree more comes last in its group, and the other groups keep their trees. -/
theorem treesOf_of_grown {f g : Forest} {t : Tree} {group : UInt32}
    (hsize : f.groups.size = f.trees.size) (h : g.clearBins = (f.grown t group).clearBins) :
    (∃ old t', g.treesOf group.toNat = old ++ [t'] ∧ t'.clearBins = t.clearBins ∧
      old.map Tree.clearBins = (f.treesOf group.toNat).map Tree.clearBins) ∧
    ∀ other ≠ group.toNat,
      (g.treesOf other).map Tree.clearBins = (f.treesOf other).map Tree.clearBins := by
  have hkeys := map_clearBins_treesOf h
  simp only [treesOf_grown hsize] at hkeys
  constructor
  · have hgroup := hkeys group.toNat
    rw [if_pos rfl, List.map_append] at hgroup
    obtain ⟨old, last, htrees, hold, hlast⟩ := List.map_eq_append_iff.mp hgroup
    obtain ⟨t', rfl, ht'⟩ := List.map_eq_singleton_iff.mp hlast
    exact ⟨old, t', htrees, ht', hold⟩
  · intro other hother
    rw [hkeys other, if_neg hother]

theorem splitCount_grown (f : Forest) (t : Tree) (group : UInt32) :
    f.splitCount ≤ (f.grown t group).splitCount := by
  simp only [splitCount, grown, Array.toList_push, List.flatMap_append, List.countP_append]
  omega

theorem splitCount_clearBins (f : Forest) : f.clearBins.splitCount = f.splitCount := by
  simp only [splitCount, clearBins, Array.toList_map, List.flatMap_map]
  rfl

theorem splitCount_le_of_grown {f g : Forest} {t : Tree} {group : UInt32}
    (h : g.clearBins = (f.grown t group).clearBins) : f.splitCount ≤ g.splitCount := by
  rw [← splitCount_clearBins g, h, splitCount_clearBins]
  exact splitCount_grown f t group

/-- The same forest with its trees in another order, in which those of each group come as before. -/
structure Reordered (f g : Forest) : Prop where
  groupCount : g.groupCount = f.groupCount
  featureCount : g.featureCount = f.featureCount
  baseScore : g.baseScore = f.baseScore
  table : g.table = f.table
  groups : g.groups.size = g.trees.size
  perm : g.treesWithGroups.Perm f.treesWithGroups
  order : ∀ group, g.treesOf group = f.treesOf group

namespace Reordered

variable {f g : Forest} (h : f.Reordered g)

include h

theorem trees (hsize : f.groups.size = f.trees.size) : g.trees.toList.Perm f.trees.toList := by
  rw [← map_fst_treesWithGroups hsize, ← map_fst_treesWithGroups h.groups]
  exact h.perm.map Prod.fst

theorem mem_trees (hsize : f.groups.size = f.trees.size) {t : Tree} (ht : t ∈ g.trees) :
    t ∈ f.trees := by
  rw [← Array.mem_toList_iff] at ht ⊢
  exact (h.trees hsize).mem_iff.mp ht

theorem mem_groups {group : UInt32} (hgroup : group ∈ g.groups) : group ∈ f.groups := by
  rw [← Array.mem_toList_iff, ← map_snd_treesWithGroups h.groups] at hgroup
  obtain ⟨tg, hmem, rfl⟩ := List.mem_map.mp hgroup
  exact Array.mem_toList_iff.mp (List.of_mem_zip (h.perm.mem_iff.mp hmem)).2

theorem width : g.width = f.width := congrArg UInt64.toNat h.featureCount

theorem wellFormed (hf : f.WellFormed) : g.WellFormed where
  baseScore := by rw [h.baseScore, h.groupCount, hf.baseScore]
  groups := h.groups
  inRange := fun group hgroup => h.groupCount ▸ hf.inRange group (h.mem_groups hgroup)
  trees := fun t ht => hf.trees t (h.mem_trees hf.groups ht)
  within := fun t ht => h.width ▸ hf.within t (h.mem_trees hf.groups ht)

theorem isQuantized (hsize : f.groups.size = f.trees.size) (hf : f.isQuantized = true) :
    g.isQuantized = true := by
  rw [Forest.isQuantized, Bool.and_eq_true, Array.all_eq_true'] at hf ⊢
  exact ⟨h.table ▸ hf.1, fun t ht => hf.2 t (h.mem_trees hsize ht)⟩

theorem splitCount (hsize : f.groups.size = f.trees.size) : g.splitCount = f.splitCount :=
  ((h.trees hsize).flatMap_right _).countP_eq _

theorem sameTrees (hsize : f.groups.size = f.trees.size) : f.SameTrees g where
  width := h.width
  trees := (h.trees hsize).symm

end Reordered

end TreeEnsemble.Forest
