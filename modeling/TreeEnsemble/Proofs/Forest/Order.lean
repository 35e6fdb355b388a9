import TreeEnsemble.Proofs.Forest.OwnTable

/-!
Forests with the same trees in another order. The order decides in which order thresholds are
collected, and which split is reported if one offends, but neither the table of the thresholds nor
whether the forest can be coded.
-/

namespace TreeEnsemble

theorem mapM_perm {ε α β : Type} {f : α → Except ε β} {xs xs' : List α} {ys : List β}
    (h : xs.Perm xs') (hrun : xs.mapM f = .ok ys) :
    ∃ ys', xs'.mapM f = .ok ys' ∧ ys.Perm ys' := by
  induction h generalizing ys with
  | nil => exact ⟨ys, hrun, .refl ys⟩
  | cons x _ ih =>
    rw [List.mapM_cons] at hrun
    obtain ⟨y, hy, hrun⟩ := bind_eq_ok_iff.mp hrun
    obtain ⟨rest, hrest, hrun⟩ := bind_eq_ok_iff.mp hrun
    cases hrun
    obtain ⟨rest', hrest', hperm⟩ := ih hrest
    refine ⟨y :: rest', ?_, hperm.cons y⟩
    simp only [List.mapM_cons, hy, hrest', ok_bind, pure_eq_ok]
  | swap x y xs =>
    simp only [List.mapM_cons] at hrun
    obtain ⟨b, hb, hrun⟩ := bind_eq_ok_iff.mp hrun
    obtain ⟨tail, htail, hrun⟩ := bind_eq_ok_iff.mp hrun
    cases hrun
    obtain ⟨a, ha, htail⟩ := bind_eq_ok_iff.mp htail
    obtain ⟨rest, hrest, htail⟩ := bind_eq_ok_iff.mp htail
    cases htail
    refine ⟨a :: b :: rest, ?_, .swap a b rest⟩
    simp only [List.mapM_cons, ha, hb, hrest, ok_bind, pure_eq_ok]
  | trans _ _ ih ih' =>
    obtain ⟨mid, hmid, hfirst⟩ := ih hrun
    obtain ⟨last, hlast, hsecond⟩ := ih' hmid
    exact ⟨last, hlast, hfirst.trans hsecond⟩

namespace Forest

/-- The place of a tree is for the error only. -/
theorem splitOf_place {t : Tree} {place bound node : Nat} {o : Option (Nat × Binary32)}
    (h : splitOf t place bound node = .ok o) (place' : Nat) :
    splitOf t place' bound node = .ok o := by
  obtain ⟨leaf, hleaf, h⟩ := bind_eq_ok_iff.mp h
  rw [splitOf, hleaf, ok_bind]
  cases leaf with
  | true => exact h
  | false =>
    obtain ⟨feature, hfeature, h⟩ := bind_eq_ok_iff.mp h
    obtain ⟨x, hx, h⟩ := bind_eq_ok_iff.mp h
    simp only [Bool.false_eq_true, if_false, hfeature, hx, ok_bind]
    split at h
    next => exact absurd h fail_ne_ok
    next hnan =>
      rw [if_neg hnan]
      split at h
      next => exact absurd h fail_ne_ok
      next hin =>
        rw [if_neg hin]
        exact h

theorem splitsOf_place {t : Tree} {place bound : Nat} {splits : List (Nat × Binary32)}
    (h : splitsOf t place bound = .ok splits) (place' : Nat) :
    splitsOf t place' bound = .ok splits := by
  obtain ⟨options, hoptions, h⟩ := bind_eq_ok_iff.mp h
  obtain ⟨hlen, hat⟩ := mapM_eq_ok hoptions
  refine bind_eq_ok_iff.mpr ⟨options, mapM_eq_ok_of_at hlen.symm fun i node o hn ho => ?_, h⟩
  exact splitOf_place (hat i node o hn ho) place'

/-- The splits of a forest are those of its trees, wherever the trees stand. -/
theorem splits_eq_ok_iff {f : Forest} {splits : List (Nat × Binary32)} :
    f.splits = .ok splits ↔ ∃ perTree,
      (f.trees.toList.mapM fun t => splitsOf t 0 f.width) = .ok perTree ∧
        perTree.flatten = splits := by
  have hplace : ∀ {perTree : List (List (Nat × Binary32))},
      (f.trees.toList.zipIdx.mapM fun t => splitsOf t.1 t.2 f.width) = .ok perTree ↔
        (f.trees.toList.mapM fun t => splitsOf t 0 f.width) = .ok perTree := by
    intro perTree
    constructor
    · intro h
      obtain ⟨hlen, hat⟩ := mapM_eq_ok h
      rw [List.length_zipIdx] at hlen
      refine mapM_eq_ok_of_at hlen.symm fun i t splits ht hsplits => ?_
      exact splitsOf_place (hat i (t, i) splits (by simp [List.getElem?_zipIdx, ht]) hsplits) 0
    · intro h
      obtain ⟨hlen, hat⟩ := mapM_eq_ok h
      have hlen : f.trees.toList.zipIdx.length = perTree.length :=
        List.length_zipIdx.trans hlen.symm
      refine mapM_eq_ok_of_at hlen fun i t splits ht hsplits => ?_
      obtain ⟨t, place⟩ := t
      obtain ⟨hin, rfl⟩ : f.trees[i]? = some t ∧ i = place := by
        simpa [List.getElem?_zipIdx] using ht
      exact splitsOf_place (hat i t splits (Array.getElem?_toList.trans hin) hsplits) i
  constructor
  · intro h
    obtain ⟨perTree, hrun, h⟩ := bind_eq_ok_iff.mp h
    exact ⟨perTree, hplace.mp hrun, Except.ok.inj h⟩
  · rintro ⟨perTree, hrun, rfl⟩
    exact bind_eq_ok_iff.mpr ⟨perTree, hplace.mpr hrun, rfl⟩

/-- Forests of one width with the same trees, in any order. -/
structure SameTrees (f g : Forest) : Prop where
  width : g.width = f.width
  trees : f.trees.toList.Perm g.trees.toList

namespace SameTrees

variable {f g : Forest} (h : f.SameTrees g)

include h

theorem splits {splits : List (Nat × Binary32)} (hsplits : f.splits = .ok splits) :
    ∃ splits', g.splits = .ok splits' ∧ splits.Perm splits' := by
  obtain ⟨perTree, hrun, rfl⟩ := splits_eq_ok_iff.mp hsplits
  obtain ⟨perTree', hrun', hperm⟩ := mapM_perm h.trees hrun
  exact ⟨_, splits_eq_ok_iff.mpr ⟨perTree', h.width ▸ hrun', rfl⟩, hperm.flatten⟩

theorem ownTable {table : ThresholdTable} (hown : f.ownTable = .ok table) :
    g.ownTable = .ok table := by
  obtain ⟨splits, hsplits, hown⟩ := bind_eq_ok_iff.mp hown
  obtain ⟨splits', hsplits', hperm⟩ := h.splits hsplits
  have hsame : List.Forall₂ SameMembers
      ((List.range f.width).map fun feature => thresholdsOn feature splits)
      ((List.range f.width).map fun feature => thresholdsOn feature splits') := by
    rw [List.forall₂_map_left_iff, List.forall₂_map_right_iff, List.forall₂_same]
    intro feature _ x
    rw [mem_thresholdsOn, mem_thresholdsOn, hperm.mem_iff]
  simp only [Forest.ownTable, hsplits', ok_bind, h.width, ThresholdTable.ofLists_congr hsame]
  exact hown

theorem quantizeWith {q : Forest} {table : ThresholdTable}
    (hq : f.quantizeWith table = .ok (q, .ok ())) :
    ∃ trees, g.quantizeWith table = .ok (g.withCodes trees table, .ok ()) := by
  obtain ⟨hcov, trees, hcoded, _⟩ := quantizeWith_coded hq
  obtain ⟨trees', hcoded', _⟩ := mapM_perm h.trees hcoded
  exact ⟨trees', quantizeWith_ok_iff.mpr ⟨h.width ▸ hcov, trees', hcoded', rfl⟩⟩

/-- If one of the forests can be coded with its own table, so can the other one, and the tables are
the same. -/
theorem quantize {q : Forest} (hq : f.quantize = .ok (q, .ok ())) :
    ∃ q' table, g.quantize = .ok (q', .ok ()) ∧ q.table = some table ∧ q'.table = some table := by
  obtain ⟨table, hown, hwith⟩ := quantizeWith_ownTable hq
  obtain ⟨_, _, _, rfl⟩ := quantizeWith_coded hwith
  obtain ⟨trees, hwith'⟩ := h.quantizeWith hwith
  exact ⟨_, table, (quantize_of_ownTable (h.ownTable hown)).trans hwith', rfl, rfl⟩

end SameTrees

end Forest

end TreeEnsemble
