import TreeEnsemble.Proofs.Forest.Validation
import TreeEnsemble.Proofs.Tree.Walk

/-!
What the check of a forest reports. The lengths come first, then the groups of all trees, then the
trees one by one; of a tree the defect of its own structure goes before its splits. The features of
a tree are read only after its structure was found sound, so trees with columns of different lengths
do no harm.
-/

namespace TreeEnsemble

/-- A run of checks stops at the first one that fails. -/
theorem forM_eq_error_iff {ε α : Type} {f : α → Except ε Unit} {xs : List α} {e : ε} :
    xs.forM f = .error e ↔ ∃ (i : Nat) (x : α), xs[i]? = some x ∧ f x = .error e ∧
      ∀ j < i, ∀ y, xs[j]? = some y → f y = .ok () := by
  induction xs with
  | nil =>
    refine iff_of_false nofun ?_
    rintro ⟨i, x, hx, _⟩
    cases hx
  | cons x xs ih =>
    show (f x >>= fun _ => xs.forM f) = .error e ↔ _
    rw [bind_eq_error_iff]
    constructor
    · rintro (hx | ⟨_, hx, hxs⟩)
      · exact ⟨0, x, rfl, hx, fun j hj => absurd hj (Nat.not_lt_zero j)⟩
      · obtain ⟨i, y, hy, he, hbefore⟩ := ih.mp hxs
        refine ⟨i + 1, y, hy, he, fun j hj z hz => ?_⟩
        cases j with
        | zero =>
          cases hz
          exact hx
        | succ j => exact hbefore j (Nat.lt_of_succ_lt_succ hj) z hz
    · rintro ⟨i, y, hy, he, hbefore⟩
      cases i with
      | zero =>
        cases hy
        exact Or.inl he
      | succ i =>
        refine Or.inr ⟨(), hbefore 0 (Nat.succ_pos i) x rfl, ih.mpr ⟨i, y, hy, he, ?_⟩⟩
        exact fun j hj z hz => hbefore (j + 1) (Nat.succ_lt_succ hj) z hz

theorem exists_mapM {ε α β : Type} {f : α → Except ε β} {xs : List α}
    (h : ∀ x ∈ xs, ∃ y, f x = .ok y) : ∃ ys, xs.mapM f = .ok ys := by
  induction xs with
  | nil => exact ⟨[], rfl⟩
  | cons x xs ih =>
    obtain ⟨⟨y, hy⟩, hxs⟩ := List.forall_mem_cons.mp h
    obtain ⟨ys, hys⟩ := ih hxs
    exact ⟨y :: ys, by rw [List.mapM_cons, hy, hys, ok_bind, ok_bind, pure_eq_ok]⟩

theorem mem_mapM_iff {ε α β : Type} {f : α → Except ε β} {xs : List α} {ys : List β}
    (h : xs.mapM f = .ok ys) {y : β} : y ∈ ys ↔ ∃ x ∈ xs, f x = .ok y := by
  induction xs generalizing ys with
  | nil =>
    cases h
    simp
  | cons x xs ih =>
    rw [List.mapM_cons] at h
    obtain ⟨first, hfirst, h⟩ := bind_eq_ok_iff.mp h
    obtain ⟨rest, hrest, h⟩ := bind_eq_ok_iff.mp h
    cases h
    rw [List.mem_cons, ih hrest, List.exists_mem_cons_iff, hfirst, Except.ok.injEq, eq_comm]

theorem Attempt.mapErrors_eq_fail_iff {ε η α : Type} {f : ε → η} {x : Attempt ε α} {e : η} :
    x.mapErrors f = fail e ↔ ∃ e', x = fail e' ∧ e = f e' := by
  rcases x with (fault | e') | a
  · exact iff_of_false nofun fun ⟨_, h, _⟩ => nomatch h
  · constructor
    · intro h
      cases h
      exact ⟨e', rfl, rfl⟩
    · rintro ⟨_, h, rfl⟩
      cases h
      rfl
  · exact iff_of_false nofun fun ⟨_, h, _⟩ => nomatch h

namespace Tree

/-- A tree that passes its own check and has no split beyond a number of features. -/
def Usable (t : Tree) (width : Nat) : Prop :=
  t.validate = .ok () ∧
    (t.maxFeature = .ok none ∨ ∃ feature < width, t.maxFeature = .ok (some feature))

/-- What is wrong with a tree at a place of a forest: its own defect, or the first of its splits on
a feature that rows do not have. -/
inductive Defect (t : Tree) (place width : Nat) : ForestError → Prop
  | invalid {e : TreeError} (h : t.validate = fail e) : Defect t place width (.invalidTree place e)
  | wide {node feature : Nat} (hvalid : t.validate = .ok ()) (hsplit : t.leaf[node]? = some false)
      (hfeature : t.feature node = .ok feature) (hwide : width ≤ feature)
      (hfirst : ∀ (earlier feature' : Nat), earlier < node → t.leaf[earlier]? = some false →
        t.feature earlier = .ok feature' → feature' < width) :
      Defect t place width (.featureOutOfRange place node feature width)

theorem splitNodes_sorted {t : Tree} (columns : ∀ c, t.columnSize c = t.size) {splits : List Nat}
    (h : t.splitNodes = .ok splits) : splits.Pairwise (· < ·) := by
  have hin : ∀ node ∈ List.range t.size, node < t.size := fun node hn => List.mem_range.mp hn
  cases (splitsAmong_eq columns hin).symm.trans h
  exact List.pairwise_lt_range.sublist List.filter_sublist

/-- The largest feature tells whether all splits stay below a number of features. -/
theorem maxFeature_within {t : Tree} (h : t.WellFormed) (width : Nat) :
    (t.maxFeature = .ok none ∨ ∃ feature < width, t.maxFeature = .ok (some feature)) ↔
      t.Within width := by
  obtain ⟨splits, hsplits, hmem⟩ := splitNodes_ok h.columns
  obtain ⟨features, hfeatures⟩ : ∃ features, splits.mapM t.feature = .ok features :=
    exists_mapM fun node hn => t.feature_ok (h.lt_of_leaf ((hmem node).mp hn))
  have hmax : t.maxFeature = .ok features.max? := by
    simp only [maxFeature, hsplits, hfeatures, ok_bind, pure_eq_ok]
  have hwithin : t.Within width ↔ ∀ feature ∈ features, feature < width := by
    constructor
    · intro hw feature hf
      obtain ⟨node, hn, hf⟩ := (mem_mapM_iff hfeatures).mp hf
      exact hw node feature ((hmem node).mp hn) hf
    · intro hall node feature hl hf
      exact hall feature ((mem_mapM_iff hfeatures).mpr ⟨node, (hmem node).mpr hl, hf⟩)
  rw [hmax, hwithin]
  cases hm : features.max? with
  | none =>
    rw [List.max?_eq_none_iff] at hm
    simp [hm]
  | some feature =>
    obtain ⟨hin, hle⟩ := List.max?_eq_some_iff.mp hm
    constructor
    · rintro (hnone | ⟨_, hlt, hsome⟩) other hother
      · cases hnone
      · cases hsome
        exact Nat.lt_of_le_of_lt (hle other hother) hlt
    · intro hall
      exact Or.inr ⟨feature, hall feature hin, rfl⟩

theorem usable_iff {t : Tree} {width : Nat} :
    t.Usable width ↔ t.WellFormed ∧ t.Within width := by
  constructor
  · rintro ⟨hvalid, hmax⟩
    have hw := wellFormed_of_validate hvalid
    exact ⟨hw, (maxFeature_within hw width).mp hmax⟩
  · rintro ⟨hw, hin⟩
    exact ⟨validate_of_wellFormed hw, (maxFeature_within hw width).mpr hin⟩

end Tree

namespace Forest

/-- The search among nodes in order gives the least one that is wide. -/
theorem firstWideSplit_eq_some_iff {t : Tree} {bound : Nat} {nodes : List Nat}
    (hs : nodes.Pairwise (· < ·)) (hin : ∀ node ∈ nodes, node < t.size) {node feature : Nat} :
    firstWideSplit t bound nodes = .ok (some (node, feature)) ↔
      node ∈ nodes ∧ t.feature node = .ok feature ∧ bound ≤ feature ∧
        ∀ earlier feature', earlier < node → earlier ∈ nodes → t.feature earlier = .ok feature' →
          feature' < bound := by
  induction nodes with
  | nil => simp [firstWideSplit]
  | cons first nodes ih =>
    obtain ⟨hfirst, hrest⟩ := List.pairwise_cons.mp hs
    obtain ⟨hn, hnodes⟩ := List.forall_mem_cons.mp hin
    obtain ⟨found, hf⟩ := t.feature_ok hn
    rw [firstWideSplit, hf, ok_bind]
    by_cases hwide : bound ≤ found
    · rw [if_pos hwide, pure_eq_ok]
      constructor
      · intro h
        cases h
        refine ⟨List.mem_cons_self, hf, hwide, fun earlier _ hlt hmem _ => ?_⟩
        rcases List.mem_cons.mp hmem with rfl | hmem
        · exact absurd hlt (Nat.lt_irrefl earlier)
        · exact absurd (hfirst earlier hmem) (Nat.lt_asymm hlt)
      · rintro ⟨hmem, hfeature, _, hearlier⟩
        rcases List.mem_cons.mp hmem with rfl | hmem
        · cases hf.symm.trans hfeature
          rfl
        · have hbelow := hearlier first found (hfirst node hmem) List.mem_cons_self hf
          omega
    · rw [if_neg hwide, ih hrest hnodes]
      constructor
      · rintro ⟨hmem, hfeature, hle, hearlier⟩
        refine ⟨List.mem_cons_of_mem first hmem, hfeature, hle, ?_⟩
        intro earlier feature' hlt hmem' hf'
        rcases List.mem_cons.mp hmem' with rfl | hmem'
        · cases hf.symm.trans hf'
          exact Nat.lt_of_not_le hwide
        · exact hearlier earlier feature' hlt hmem' hf'
      · rintro ⟨hmem, hfeature, hle, hearlier⟩
        refine ⟨?_, hfeature, hle, fun earlier feature' hlt hmem' =>
          hearlier earlier feature' hlt (List.mem_cons_of_mem first hmem')⟩
        rcases List.mem_cons.mp hmem with rfl | hmem
        · cases hf.symm.trans hfeature
          exact absurd hle hwide
        · exact hmem

/-- In a tree with sound structure the search among its splits finds the first wide one. -/
theorem firstWideSplit_finds {t : Tree} (h : t.WellFormed) (bound : Nat) :
    ∃ splits found, t.splitNodes = .ok splits ∧ firstWideSplit t bound splits = .ok found ∧
      ∀ node feature, found = some (node, feature) ↔
        t.leaf[node]? = some false ∧ t.feature node = .ok feature ∧ bound ≤ feature ∧
          ∀ earlier feature', earlier < node → t.leaf[earlier]? = some false →
            t.feature earlier = .ok feature' → feature' < bound := by
  obtain ⟨splits, hsplits, hmem⟩ := Tree.splitNodes_ok h.columns
  have hin : ∀ node ∈ splits, node < t.size := fun node hn => h.lt_of_leaf ((hmem node).mp hn)
  obtain ⟨found, hfound, _⟩ := firstWideSplit_ok bound hin
  refine ⟨splits, found, hsplits, hfound, fun node feature => ?_⟩
  have hiff : firstWideSplit t bound splits = .ok (some (node, feature)) ↔ _ :=
    firstWideSplit_eq_some_iff (Tree.splitNodes_sorted h.columns hsplits) hin
  rw [hfound, Except.ok.injEq] at hiff
  simpa only [hmem] using hiff

theorem checkTree_eq_fail_iff {f : Forest} {t : Tree} {place : Nat} {e : ForestError} :
    f.checkTree t place = fail e ↔ t.Defect place f.width e := by
  constructor
  · intro h
    rcases bind_eq_error_iff.mp h with h | ⟨_, hvalid, h⟩
    · obtain ⟨e', he, rfl⟩ := Attempt.mapErrors_eq_fail_iff.mp h
      exact .invalid he
    · have hvalid := Attempt.mapErrors_eq_ok_iff.mp hvalid
      obtain ⟨splits, found, hsplits, hfound, hfinds⟩ :=
        firstWideSplit_finds (Tree.wellFormed_of_validate hvalid) f.width
      simp only [hsplits, hfound, lift_ok, ok_bind] at h
      cases found with
      | none => cases h
      | some p =>
        cases h
        obtain ⟨hsplit, hfeature, hwide, hfirst⟩ := (hfinds _ _).mp rfl
        exact .wide hvalid hsplit hfeature hwide hfirst
  · intro h
    cases h with
    | invalid h =>
      exact bind_eq_error_iff.mpr (Or.inl (Attempt.mapErrors_eq_fail_iff.mpr ⟨_, h, rfl⟩))
    | @wide node feature hvalid hsplit hfeature hwide hfirst =>
      obtain ⟨splits, found, hsplits, hfound, hfinds⟩ :=
        firstWideSplit_finds (Tree.wellFormed_of_validate hvalid) f.width
      cases (hfinds node feature).mpr ⟨hsplit, hfeature, hwide, hfirst⟩
      have hcheck := Attempt.mapErrors_eq_ok_iff (f := ForestError.invalidTree place).mpr hvalid
      simp only [checkTree, hcheck, hsplits, hfound, lift_ok, ok_bind]

/-- The defect that the check of a forest meets first, and how it is reported. -/
inductive FirstDefect (f : Forest) : ForestError → Prop
  | baseScore (h : f.baseScore.size ≠ f.groupCount.toNat) :
      FirstDefect f (.baseScoreLength f.groupCount.toNat f.baseScore.size)
  | groups (hbase : f.baseScore.size = f.groupCount.toNat) (h : f.groups.size ≠ f.trees.size) :
      FirstDefect f (.groupsLength f.trees.size f.groups.size)
  | group {place : Nat} {group : UInt32} (hbase : f.baseScore.size = f.groupCount.toNat)
      (hgroups : f.groups.size = f.trees.size) (hat : f.groups[place]? = some group)
      (h : f.groupCount ≤ group)
      (hfirst : ∀ earlier < place, ∀ g, f.groups[earlier]? = some g → g < f.groupCount) :
      FirstDefect f (.groupOutOfRange place group.toNat f.groupCount.toNat)
  | tree {place : Nat} {t : Tree} {e : ForestError} (hbase : f.baseScore.size = f.groupCount.toNat)
      (hgroups : f.groups.size = f.trees.size) (hrange : ∀ group ∈ f.groups, group < f.groupCount)
      (hat : f.trees[place]? = some t) (h : t.Defect place f.width e)
      (hfirst : ∀ earlier < place, ∀ u, f.trees[earlier]? = some u → u.Usable f.width) :
      FirstDefect f e

theorem checkLengths_eq_fail_iff {f : Forest} {e : ForestError} :
    f.checkLengths = fail e ↔
      f.baseScore.size ≠ f.groupCount.toNat ∧
          e = .baseScoreLength f.groupCount.toNat f.baseScore.size ∨
        f.baseScore.size = f.groupCount.toNat ∧ f.groups.size ≠ f.trees.size ∧
          e = .groupsLength f.trees.size f.groups.size := by
  unfold checkLengths
  by_cases hbase : f.baseScore.size = f.groupCount.toNat
  · by_cases hgroups : f.groups.size = f.trees.size
    · simp [hbase, hgroups, fail]
    · simp [hbase, hgroups, fail, eq_comm]
  · simp [hbase, fail, eq_comm]

theorem checkGroups_eq_fail_iff {f : Forest} {e : ForestError} :
    f.checkGroups = fail e ↔ ∃ (place : Nat) (group : UInt32), f.groups[place]? = some group ∧
      f.groupCount ≤ group ∧ e = .groupOutOfRange place group.toNat f.groupCount.toNat ∧
      ∀ earlier < place, ∀ g, f.groups[earlier]? = some g → g < f.groupCount := by
  have hfind : ∀ (place : Nat) (group : UInt32),
      (f.groups.toList.zipIdx.find? fun g => decide (f.groupCount ≤ g.1)) = some (group, place) ↔
        f.groups[place]? = some group ∧ f.groupCount ≤ group ∧
          ∀ earlier < place, ∀ g, f.groups[earlier]? = some g → g < f.groupCount := by
    intro place group
    rw [List.find?_eq_some_iff_getElem, decide_eq_true_eq]
    constructor
    · rintro ⟨hout, i, hi, hat, hfirst⟩
      have hin : i < f.groups.size := by simpa using hi
      rw [List.getElem_zipIdx, Nat.zero_add] at hat
      cases hat
      refine ⟨Array.getElem?_eq_getElem hin, hout, fun earlier hlt g hg => ?_⟩
      obtain ⟨_, rfl⟩ := Array.getElem?_eq_some_iff.mp hg
      simpa using hfirst earlier hlt
    · rintro ⟨hat, hout, hfirst⟩
      obtain ⟨hin, rfl⟩ := Array.getElem?_eq_some_iff.mp hat
      refine ⟨hout, place, by simpa using hin, by simp, fun earlier hlt => ?_⟩
      have hrange := hfirst earlier hlt _ (Array.getElem?_eq_getElem (Nat.lt_trans hlt hin))
      simpa using hrange
  unfold checkGroups
  split
  next group place h =>
    obtain ⟨hat, hout, hfirst⟩ := (hfind place group).mp h
    constructor
    · intro he
      cases he
      exact ⟨place, group, hat, hout, rfl, hfirst⟩
    · rintro ⟨place', group', hat', hout', rfl, hfirst'⟩
      cases h.symm.trans ((hfind place' group').mpr ⟨hat', hout', hfirst'⟩)
      rfl
  next h =>
    refine iff_of_false nofun ?_
    rintro ⟨place, group, hat, hout, _, hfirst⟩
    cases h.symm.trans ((hfind place group).mpr ⟨hat, hout, hfirst⟩)

theorem checkTrees_eq_fail_iff {f : Forest} {e : ForestError} :
    (f.trees.toList.zipIdx.forM fun t => f.checkTree t.1 t.2) = fail e ↔
      ∃ (place : Nat) (t : Tree), f.trees[place]? = some t ∧ t.Defect place f.width e ∧
        ∀ earlier < place, ∀ u, f.trees[earlier]? = some u → u.Usable f.width := by
  have hplaces : ∀ (i : Nat) (t : Tree) (place : Nat),
      f.trees.toList.zipIdx[i]? = some (t, place) ↔ f.trees[i]? = some t ∧ i = place := by
    intro i t place
    simp [List.getElem?_zipIdx]
  have hgood : ∀ (place : Nat) (u : Tree), f.checkTree u place = .ok () ↔ u.Usable f.width :=
    fun place u => checkTree_ok_iff.trans Tree.usable_iff.symm
  rw [fail, forM_eq_error_iff]
  constructor
  · rintro ⟨i, ⟨t, place⟩, hi, he, hfirst⟩
    obtain ⟨ht, rfl⟩ := (hplaces i t place).mp hi
    refine ⟨i, t, ht, checkTree_eq_fail_iff.mp he, fun earlier hlt u hu => ?_⟩
    exact (hgood earlier u).mp (hfirst earlier hlt (u, earlier) ((hplaces _ _ _).mpr ⟨hu, rfl⟩))
  · rintro ⟨place, t, ht, he, hfirst⟩
    refine ⟨place, (t, place), (hplaces _ _ _).mpr ⟨ht, rfl⟩, checkTree_eq_fail_iff.mpr he, ?_⟩
    rintro earlier hlt ⟨u, place'⟩ hin
    obtain ⟨hu, rfl⟩ := (hplaces earlier u place').mp hin
    exact (hgood earlier u).mpr (hfirst earlier hlt u hu)

theorem validate_eq_fail_iff {f : Forest} {e : ForestError} :
    f.validate = fail e ↔ f.FirstDefect e := by
  constructor
  · intro h
    rcases bind_eq_error_iff.mp h with h | ⟨_, hlengths, h⟩
    · rcases checkLengths_eq_fail_iff.mp h with ⟨hbase, rfl⟩ | ⟨hbase, hgroups, rfl⟩
      · exact .baseScore hbase
      · exact .groups hbase hgroups
    obtain ⟨hbase, hgroups⟩ := checkLengths_ok_iff.mp hlengths
    rcases bind_eq_error_iff.mp h with h | ⟨_, hrange, h⟩
    · obtain ⟨place, group, hat, hout, rfl, hfirst⟩ := checkGroups_eq_fail_iff.mp h
      exact .group hbase hgroups hat hout hfirst
    · obtain ⟨place, t, hat, hdefect, hfirst⟩ := checkTrees_eq_fail_iff.mp h
      exact .tree hbase hgroups (checkGroups_ok_iff.mp hrange) hat hdefect hfirst
  · intro h
    cases h with
    | baseScore h =>
      exact bind_eq_error_iff.mpr (Or.inl (checkLengths_eq_fail_iff.mpr (Or.inl ⟨h, rfl⟩)))
    | groups hbase h =>
      have hfail := checkLengths_eq_fail_iff.mpr (Or.inr ⟨hbase, h, rfl⟩)
      exact bind_eq_error_iff.mpr (Or.inl hfail)
    | group hbase hgroups hat h hfirst =>
      have hfail := checkGroups_eq_fail_iff.mpr ⟨_, _, hat, h, rfl, hfirst⟩
      simp only [validate, checkLengths_ok_iff.mpr ⟨hbase, hgroups⟩, hfail, ok_bind, fail_bind]
    | tree hbase hgroups hrange hat h hfirst =>
      have hfail := checkTrees_eq_fail_iff.mpr ⟨_, _, hat, h, hfirst⟩
      simp only [validate, checkLengths_ok_iff.mpr ⟨hbase, hgroups⟩,
        checkGroups_ok_iff.mpr hrange, ok_bind]
      exact hfail

/-- The check accepts the forests that can be used: a base score for each group, a group for each
tree, all groups in range, and usable trees. Any other forest has a first defect, and just that is
reported. The check never faults. -/
theorem validate_reports_first_defect (f : Forest) :
    (f.validate = .ok () ↔ f.baseScore.size = f.groupCount.toNat ∧ f.groups.size = f.trees.size ∧
      (∀ group ∈ f.groups, group < f.groupCount) ∧ ∀ t ∈ f.trees, t.Usable f.width) ∧
    (∀ e, f.validate = fail e ↔ f.FirstDefect e) ∧
    ∀ fault, f.validate ≠ .error (.fault fault) := by
  refine ⟨?_, fun e => validate_eq_fail_iff, validate_ne_fault f⟩
  rw [validate_ok_iff]
  constructor
  · intro h
    exact ⟨h.baseScore, h.groups, h.inRange,
      fun t ht => Tree.usable_iff.mpr ⟨h.trees t ht, h.within t ht⟩⟩
  · intro ⟨hbase, hgroups, hrange, htrees⟩
    exact ⟨hbase, hgroups, hrange, fun t ht => (Tree.usable_iff.mp (htrees t ht)).1,
      fun t ht => (Tree.usable_iff.mp (htrees t ht)).2⟩

/-- A group out of range is reported, though a tree before it has no thresholds. -/
example :
    Forest.validate ⟨#[{ Tree.staircase with thresholds := #[] }, .staircase], #[0, 5], 1, 2,
      #[.zero], none⟩ = fail (.groupOutOfRange 1 5 1) := by
  decide +kernel

end Forest

end TreeEnsemble
