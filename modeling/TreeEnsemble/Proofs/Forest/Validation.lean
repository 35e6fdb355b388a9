import TreeEnsemble.Forest.Validation
import TreeEnsemble.Proofs.Tree.Validation

/-!
What the check of a forest establishes. It accepts the forests whose parts fit together and whose
trees are well formed and split on features that rows have, and it never faults.
-/

namespace TreeEnsemble

namespace Attempt

theorem mapErrors_eq_ok_iff {ε η α : Type} {f : ε → η} {x : Attempt ε α} {a : α} :
    x.mapErrors f = .ok a ↔ x = .ok a := by
  rcases x with (fault | e) | b
  · exact ⟨nofun, nofun⟩
  · exact ⟨nofun, nofun⟩
  · exact ⟨fun h => by cases h; rfl, fun h => by cases h; rfl⟩

theorem mapErrors_eq_fault {ε η α : Type} {f : ε → η} {x : Attempt ε α} {fault : Fault}
    (h : x.mapErrors f = .error (.fault fault)) : x = .error (.fault fault) := by
  rcases x with (fault' | e) | b
  · cases h
    rfl
  · nomatch h
  · nomatch h

end Attempt

namespace Tree

theorem splitsAmong_eq {t : Tree} (columns : ∀ c, t.columnSize c = t.size) {nodes : List Nat}
    (h : ∀ node ∈ nodes, node < t.size) :
    t.splitsAmong nodes = .ok (nodes.filter fun node => t.leaf[node]? == some false) := by
  induction nodes with
  | nil => rfl
  | cons node nodes ih =>
    obtain ⟨hn, hnodes⟩ := List.forall_mem_cons.mp h
    rcases leaf_or_split columns hn with hl | ⟨hl, _⟩
    · simp [splitsAmong, isLeaf, fetch_eq_ok_iff.mpr hl, ih hnodes, hl]
    · simp [splitsAmong, isLeaf, fetch_eq_ok_iff.mpr hl, ih hnodes, hl]

theorem splitNodes_ok {t : Tree} (columns : ∀ c, t.columnSize c = t.size) :
    ∃ splits, t.splitNodes = .ok splits ∧
      ∀ node, node ∈ splits ↔ t.leaf[node]? = some false := by
  refine ⟨_, splitsAmong_eq columns fun node hn => List.mem_range.mp hn, fun node => ?_⟩
  rw [List.mem_filter, List.mem_range, beq_iff_eq]
  refine ⟨fun h => h.2, fun h => ⟨?_, h⟩⟩
  rw [← size_leaf columns]
  exact (Array.getElem?_eq_some_iff.mp h).1

/-- The splits of a tree stay below a number of features. -/
def Within (t : Tree) (width : Nat) : Prop :=
  ∀ (node feature : Nat), t.leaf[node]? = some false → t.feature node = .ok feature →
    feature < width

end Tree

namespace Forest

structure WellFormed (f : Forest) : Prop where
  baseScore : f.baseScore.size = f.groupCount.toNat
  groups : f.groups.size = f.trees.size
  inRange : ∀ group ∈ f.groups, group < f.groupCount
  trees : ∀ t ∈ f.trees, t.WellFormed
  within : ∀ t ∈ f.trees, t.Within f.width

/-- The search for a wide split reads inside the tree, and finds none only if there is none. -/
theorem firstWideSplit_ok {t : Tree} (bound : Nat) {nodes : List Nat}
    (h : ∀ node ∈ nodes, node < t.size) :
    ∃ found, firstWideSplit t bound nodes = .ok found ∧
      (found = none ↔
        ∀ node ∈ nodes, ∀ feature, t.feature node = .ok feature → feature < bound) := by
  induction nodes with
  | nil => exact ⟨none, rfl, by simp⟩
  | cons node nodes ih =>
    obtain ⟨hn, hnodes⟩ := List.forall_mem_cons.mp h
    have hf : t.feature node = .ok t.features[node].toNat := by
      simp only [Tree.feature, fetch_of_lt hn, ok_bind, pure_eq_ok]
    by_cases hwide : bound ≤ t.features[node].toNat
    · refine ⟨some (node, t.features[node].toNat), by simp [firstWideSplit, hf, hwide], ?_⟩
      refine ⟨nofun, fun hall => ?_⟩
      have := hall node List.mem_cons_self _ hf
      omega
    · obtain ⟨found, hfound, hiff⟩ := ih hnodes
      refine ⟨found, by simp [firstWideSplit, hf, hwide, hfound], hiff.trans ?_⟩
      rw [List.forall_mem_cons]
      refine ⟨fun hall => ⟨fun feature hfeature => ?_, hall⟩, fun hall => hall.2⟩
      cases Except.ok.inj (hf.symm.trans hfeature)
      omega

theorem checkTree_of_wellFormed {f : Forest} {t : Tree} (place : Nat) (h : t.WellFormed) :
    (∃ feature node, f.checkTree t place = fail (.featureOutOfRange place node feature f.width) ∧
      ¬t.Within f.width) ∨ f.checkTree t place = .ok () ∧ t.Within f.width := by
  obtain ⟨splits, hsplits, hmem⟩ := Tree.splitNodes_ok h.columns
  have hin : ∀ node ∈ splits, node < t.size :=
    fun node hn => h.lt_of_leaf ((hmem node).mp hn)
  obtain ⟨found, hfound, hiff⟩ := firstWideSplit_ok f.width hin
  have hwithin : found = none ↔ t.Within f.width := by
    rw [hiff]
    exact ⟨fun hall node feature hl hf => hall node ((hmem node).mpr hl) feature hf,
      fun hall node hn feature hf => hall node feature ((hmem node).mp hn) hf⟩
  have hcheck : t.validate.mapErrors (ForestError.invalidTree place) = .ok () :=
    Attempt.mapErrors_eq_ok_iff.mpr (Tree.validate_of_wellFormed h)
  cases found with
  | none =>
    refine Or.inr ⟨?_, hwithin.mp rfl⟩
    simp only [checkTree, hcheck, hsplits, hfound, lift_ok, ok_bind, pure_eq_ok]
  | some p =>
    refine Or.inl ⟨p.2, p.1, ?_, fun hw => nomatch hwithin.mpr hw⟩
    simp only [checkTree, hcheck, hsplits, hfound, lift_ok, ok_bind]

theorem checkTree_ok_iff {f : Forest} {t : Tree} {place : Nat} :
    f.checkTree t place = .ok () ↔ t.WellFormed ∧ t.Within f.width := by
  constructor
  · intro h
    obtain ⟨_, hv, _⟩ := bind_eq_ok_iff.mp h
    have hw := Tree.wellFormed_of_validate (Attempt.mapErrors_eq_ok_iff.mp hv)
    rcases checkTree_of_wellFormed (f := f) place hw with ⟨_, _, hc, _⟩ | ⟨_, hin⟩
    · exact absurd (hc.symm.trans h) fail_ne_ok
    · exact ⟨hw, hin⟩
  · rintro ⟨hw, hin⟩
    rcases checkTree_of_wellFormed (f := f) place hw with ⟨_, _, _, hnot⟩ | ⟨hc, _⟩
    · exact absurd hin hnot
    · exact hc

theorem checkTree_ne_fault (f : Forest) (t : Tree) (place : Nat) (fault : Fault) :
    f.checkTree t place ≠ .error (.fault fault) := by
  intro h
  rcases bind_eq_error_iff.mp h with hv | ⟨_, hv, _⟩
  · exact Tree.validate_ne_fault t fault (Attempt.mapErrors_eq_fault hv)
  · have hw := Tree.wellFormed_of_validate (Attempt.mapErrors_eq_ok_iff.mp hv)
    rcases checkTree_of_wellFormed (f := f) place hw with ⟨_, _, hc, _⟩ | ⟨hc, _⟩
    · nomatch hc.symm.trans h
    · nomatch hc.symm.trans h

theorem checkLengths_ok_iff {f : Forest} :
    f.checkLengths = .ok () ↔
      f.baseScore.size = f.groupCount.toNat ∧ f.groups.size = f.trees.size := by
  unfold checkLengths
  split
  next h => exact ⟨fun e => absurd e fail_ne_ok, fun e => absurd e.1 h⟩
  next h =>
    split
    next h' => exact ⟨fun e => absurd e fail_ne_ok, fun e => absurd e.2 h'⟩
    next h' => exact ⟨fun _ => ⟨not_not.mp h, not_not.mp h'⟩, fun _ => rfl⟩

theorem checkGroups_ok_iff {f : Forest} :
    f.checkGroups = .ok () ↔ ∀ group ∈ f.groups, group < f.groupCount := by
  have hzip : (∀ g ∈ f.groups.toList.zipIdx, ¬f.groupCount ≤ g.1) ↔
      ∀ group ∈ f.groups, group < f.groupCount := by
    simp only [UInt32.not_le, ← Array.mem_toList_iff]
    refine ⟨fun h group hg => ?_, fun h g hg => h g.1 (List.fst_mem_of_mem_zipIdx hg)⟩
    obtain ⟨i, hi⟩ := List.mem_iff_getElem?.mp hg
    exact h (group, i) (List.mk_mem_zipIdx_iff_getElem?.mpr hi)
  unfold checkGroups
  rw [← hzip]
  split
  next group place h =>
    refine ⟨fun e => absurd e fail_ne_ok, fun e => ?_⟩
    exact absurd (by simpa using List.find?_some h) (e _ (List.mem_of_find?_eq_some h))
  next h =>
    refine ⟨fun _ g hg => ?_, fun _ => rfl⟩
    simpa using List.find?_eq_none.mp h g hg

/-- The check accepts the well-formed forests. -/
theorem validate_ok_iff {f : Forest} : f.validate = .ok () ↔ f.WellFormed := by
  have htrees : (f.trees.toList.zipIdx.forM fun t => f.checkTree t.1 t.2) = .ok () ↔
      ∀ t ∈ f.trees, t.WellFormed ∧ t.Within f.width := by
    rw [forM_eq_ok_iff]
    refine ⟨fun h t ht => ?_, fun h t ht => ?_⟩
    · obtain ⟨i, hi⟩ := List.mem_iff_getElem?.mp (Array.mem_toList_iff.mpr ht)
      exact checkTree_ok_iff.mp (h (t, i) (List.mk_mem_zipIdx_iff_getElem?.mpr hi))
    · exact checkTree_ok_iff.mpr (h t.1 (Array.mem_toList_iff.mp (List.fst_mem_of_mem_zipIdx ht)))
  constructor
  · intro h
    obtain ⟨_, hlengths, h⟩ := bind_eq_ok_iff.mp h
    obtain ⟨_, hgroups, h⟩ := bind_eq_ok_iff.mp h
    obtain ⟨hbase, hsize⟩ := checkLengths_ok_iff.mp hlengths
    have hall := htrees.mp h
    exact ⟨hbase, hsize, checkGroups_ok_iff.mp hgroups, fun t ht => (hall t ht).1,
      fun t ht => (hall t ht).2⟩
  · intro h
    have hlengths := checkLengths_ok_iff.mpr ⟨h.baseScore, h.groups⟩
    have hgroups := checkGroups_ok_iff.mpr h.inRange
    have hall := htrees.mpr fun t ht => ⟨h.trees t ht, h.within t ht⟩
    simp only [validate, hlengths, hgroups, ok_bind, hall]

theorem validate_ne_fault (f : Forest) (fault : Fault) : f.validate ≠ .error (.fault fault) := by
  intro h
  rcases bind_eq_error_iff.mp h with h | ⟨_, _, h⟩
  · unfold checkLengths at h
    split at h
    next => nomatch h
    next => split at h <;> nomatch h
  rcases bind_eq_error_iff.mp h with h | ⟨_, _, h⟩
  · unfold checkGroups at h
    split at h <;> nomatch h
  · obtain ⟨t, _, ht⟩ := exists_error_of_forM h
    exact checkTree_ne_fault f t.1 t.2 fault ht

end Forest

end TreeEnsemble
