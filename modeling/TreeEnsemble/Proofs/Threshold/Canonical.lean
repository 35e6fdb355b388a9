import Mathlib.Algebra.Order.BigOperators.Group.List
import Mathlib.Algebra.Order.Group.Nat
import Mathlib.Data.List.Sort
import TreeEnsemble.Proofs.Threshold.Coding

/-!
The table of some lists is their canonical form. It has a feature for each list, and the thresholds
of a feature are numbers of its list; each number of the list stands there once, up to equality of
numbers. So a threshold that was put into a table is found there again. Of equal numbers the first
in the total order is kept, so the table does not depend on the order of the lists.
-/

namespace TreeEnsemble

/-- Of equal neighbours one is kept, so each number still has an equal one. -/
theorem exists_eqv_dropRepeats {xs : List Binary32} (hnan : ∀ x ∈ xs, x.isNaN = false)
    {z : Binary32} (hz : z ∈ xs) : ∃ y ∈ dropRepeats xs, y.eqv z = true := by
  fun_induction dropRepeats xs generalizing z with
  | case1 => simp at hz
  | case2 x => exact ⟨z, hz, Binary32.eqv_self (hnan z hz)⟩
  | case3 x y rest he ih =>
    obtain ⟨hx, hys⟩ := List.forall_mem_cons.mp hnan
    obtain ⟨_, hrest⟩ := List.forall_mem_cons.mp hys
    have hkept := @ih (List.forall_mem_cons.mpr ⟨hx, hrest⟩)
    rcases List.mem_cons.mp hz with rfl | hz
    · exact hkept List.mem_cons_self
    · rcases List.mem_cons.mp hz with rfl | hz
      · -- the dropped number equals the one before it
        obtain ⟨w, hw, hwx⟩ := hkept List.mem_cons_self
        exact ⟨w, hw, Binary32.eqv_trans hwx (Binary32.eqv_symm he)⟩
      · exact hkept (List.mem_cons_of_mem x hz)
  | case4 x y rest he ih =>
    obtain ⟨hx, hys⟩ := List.forall_mem_cons.mp hnan
    rcases List.mem_cons.mp hz with rfl | hz
    · exact ⟨z, List.mem_cons_self, Binary32.eqv_self hx⟩
    · obtain ⟨w, hw, hwz⟩ := ih hys hz
      exact ⟨w, List.mem_cons_of_mem x hw, hwz⟩

theorem length_dropRepeats_le (xs : List Binary32) : (dropRepeats xs).length ≤ xs.length := by
  fun_induction dropRepeats xs with
  | case1 => simp
  | case2 => simp
  | case3 x y rest he ih =>
    simp only [List.length_cons] at ih ⊢
    omega
  | case4 x y rest he ih =>
    simp only [List.length_cons] at ih ⊢
    omega

theorem length_sortThresholds_le (xs : List Binary32) : (sortThresholds xs).length ≤ xs.length := by
  have hle := length_dropRepeats_le (xs.mergeSort Binary32.totalLe)
  rw [List.length_mergeSort] at hle
  exact hle

theorem mem_of_mem_sortThresholds {xs : List Binary32} {x : Binary32}
    (h : x ∈ sortThresholds xs) : x ∈ xs :=
  List.mem_mergeSort.mp (mem_of_mem_dropRepeats h)

theorem Increasing.nodup {xs : List Binary32} (h : Increasing xs) : xs.Nodup := by
  refine h.2.imp ?_
  rintro x y hlt rfl
  exact Int.lt_irrefl _ (Binary32.lt_iff.mp hlt).2.2

/-- A list has no more thresholds than there are values that its numbers are taken from. -/
theorem length_sortThresholds_le_of_mem {xs values : List Binary32}
    (hnan : ∀ x ∈ xs, x.isNaN = false) (h : ∀ x ∈ xs, x ∈ values) :
    (sortThresholds xs).length ≤ values.length :=
  (List.subperm_of_subset (increasing_sortThresholds hnan).nodup fun x hx =>
    h x (mem_of_mem_sortThresholds hx)).length_le

/-- Sorting keeps each number of a list once, up to equality of numbers. -/
theorem countP_sortThresholds {xs : List Binary32} (hnan : ∀ x ∈ xs, x.isNaN = false)
    {x : Binary32} (hx : x ∈ xs) : (sortThresholds xs).countP (·.eqv x) = 1 := by
  have hsorted : ∀ y ∈ xs.mergeSort Binary32.totalLe, y.isNaN = false :=
    fun y hy => hnan y (List.mem_mergeSort.mp hy)
  obtain ⟨y, hy, hyx⟩ := exists_eqv_dropRepeats hsorted (List.mem_mergeSort.mpr hx)
  have hany : (sortThresholds xs).any (·.eqv x) = true := List.any_eq_true.mpr ⟨y, hy, hyx⟩
  rw [countP_eqv (increasing_sortThresholds hnan), if_pos hany]

/-- Of equal numbers the one kept is the first in the total order. -/
theorem mem_dropRepeats_iff {xs : List Binary32} (hnan : ∀ x ∈ xs, x.isNaN = false)
    (hs : xs.Pairwise fun x y => x.totalRank ≤ y.totalRank) {z : Binary32} :
    z ∈ dropRepeats xs ↔ z ∈ xs ∧ ∀ w ∈ xs, w.eqv z = true → z.totalRank ≤ w.totalRank := by
  fun_induction dropRepeats xs with
  | case1 => simp
  | case2 x =>
    refine ⟨fun hz => ⟨hz, fun w hw _ => ?_⟩, fun h => h.1⟩
    rw [List.mem_singleton.mp hw, List.mem_singleton.mp hz]
  | case3 x y rest he ih =>
    obtain ⟨hx, hys⟩ := List.forall_mem_cons.mp hnan
    obtain ⟨hfirst, hrest⟩ := List.pairwise_cons.mp hs
    have hxy := hfirst y List.mem_cons_self
    have hkept := @ih (List.forall_mem_cons.mpr ⟨hx, (List.forall_mem_cons.mp hys).2⟩)
      (hs.sublist ((List.sublist_cons_self y rest).cons_cons x))
    rw [hkept]
    constructor
    · rintro ⟨hz, hleast⟩
      refine ⟨?_, fun w hw hwz => ?_⟩
      · rcases List.mem_cons.mp hz with rfl | hz
        · exact List.mem_cons_self
        · exact List.mem_cons_of_mem x (List.mem_cons_of_mem y hz)
      · rcases List.mem_cons.mp hw with rfl | hw
        · exact hleast w List.mem_cons_self hwz
        · rcases List.mem_cons.mp hw with rfl | hw
          · -- the dropped number comes after the one that it equals
            have hxz := Binary32.eqv_trans (Binary32.eqv_symm he) hwz
            exact Int.le_trans (hleast x List.mem_cons_self hxz) hxy
          · exact hleast w (List.mem_cons_of_mem x hw) hwz
    · rintro ⟨hz, hleast⟩
      have hless : ∀ w ∈ x :: rest, w.eqv z = true → z.totalRank ≤ w.totalRank := by
        intro w hw
        apply hleast w
        rcases List.mem_cons.mp hw with rfl | hw
        · exact List.mem_cons_self
        · exact List.mem_cons_of_mem x (List.mem_cons_of_mem y hw)
      refine ⟨?_, hless⟩
      rcases List.mem_cons.mp hz with rfl | hz
      · exact List.mem_cons_self
      · rcases List.mem_cons.mp hz with rfl | hz
        · have hzx := hless x List.mem_cons_self (Binary32.eqv_symm he)
          rw [Binary32.totalRank_inj (Int.le_antisymm hzx hxy)]
          exact List.mem_cons_self
        · exact List.mem_cons_of_mem x hz
  | case4 x y rest he ih =>
    obtain ⟨hx, hys⟩ := List.forall_mem_cons.mp hnan
    obtain ⟨hfirst, hrest⟩ := List.pairwise_cons.mp hs
    rw [List.mem_cons, ih hys hrest]
    -- a number after `y` lies above `x`, since `y` does
    have hapart : ∀ w ∈ y :: rest, ¬x.eqv w = true := by
      intro w hw hxw
      obtain ⟨hx, hw', hr⟩ := Binary32.eqv_iff.mp hxw
      have hxy := Binary32.rank_le_of_totalRank_le (hfirst y List.mem_cons_self)
      have hyw : y.rank ≤ w.rank := by
        rcases List.mem_cons.mp hw with rfl | hw
        · exact Int.le_refl _
        · exact Binary32.rank_le_of_totalRank_le ((List.pairwise_cons.mp hrest).1 w hw)
      exact he (Binary32.eqv_iff.mpr ⟨hys y List.mem_cons_self, hx, by omega⟩)
    constructor
    · rintro (rfl | ⟨hz, hleast⟩)
      · refine ⟨List.mem_cons_self, fun w hw _ => ?_⟩
        rcases List.mem_cons.mp hw with rfl | hw
        · exact Int.le_refl _
        · exact hfirst w hw
      · refine ⟨List.mem_cons_of_mem x hz, fun w hw hwz => ?_⟩
        rcases List.mem_cons.mp hw with rfl | hw
        · exact absurd hwz (hapart z hz)
        · exact hleast w hw hwz
    · rintro ⟨hz, hleast⟩
      rcases List.mem_cons.mp hz with rfl | hz
      · exact Or.inl rfl
      · exact Or.inr ⟨hz, fun w hw => hleast w (List.mem_cons_of_mem x hw)⟩

theorem mem_sortThresholds_iff {xs : List Binary32} (hnan : ∀ x ∈ xs, x.isNaN = false)
    {z : Binary32} :
    z ∈ sortThresholds xs ↔
      z ∈ xs ∧ ∀ w ∈ xs, w.eqv z = true → z.totalRank ≤ w.totalRank := by
  have hsorted : ∀ x ∈ xs.mergeSort Binary32.totalLe, x.isNaN = false :=
    fun x hx => hnan x (List.mem_mergeSort.mp hx)
  simp only [sortThresholds, mem_dropRepeats_iff hsorted (totalLe_sorted xs), List.mem_mergeSort]

/-- An increasing list is known by its members. -/
theorem Increasing.eq_of_mem_iff {xs ys : List Binary32} (hxs : Increasing xs)
    (hys : Increasing ys) (h : ∀ z, z ∈ xs ↔ z ∈ ys) : xs = ys := by
  have hirrefl : Std.Irrefl fun x y : Binary32 => x.lt y = true :=
    ⟨fun x hx => Int.lt_irrefl _ (Binary32.lt_iff.mp hx).2.2⟩
  have hanti : Std.Antisymm fun x y : Binary32 => x.lt y = true :=
    ⟨fun x y hxy hyx => absurd (Binary32.lt_trans hxy hyx) (hirrefl.irrefl x)⟩
  exact hxs.2.eq_of_mem_iff hys.2 h

def SameMembers (xs ys : List Binary32) : Prop := ∀ x, x ∈ ys ↔ x ∈ xs

theorem any_eq_of_sameMembers {xs ys : List Binary32} (h : SameMembers xs ys)
    (p : Binary32 → Bool) : ys.any p = xs.any p := by
  rw [Bool.eq_iff_iff, List.any_eq_true, List.any_eq_true]
  simp only [h _]

/-- Neither the order of a list nor how often its members stand in it has a say. -/
theorem sortThresholds_congr {xs ys : List Binary32} (hnan : ∀ x ∈ xs, x.isNaN = false)
    (h : SameMembers xs ys) : sortThresholds ys = sortThresholds xs := by
  have hnan' : ∀ y ∈ ys, y.isNaN = false := fun y hy => hnan y ((h y).mp hy)
  apply (increasing_sortThresholds hnan').eq_of_mem_iff (increasing_sortThresholds hnan)
  intro z
  simp only [mem_sortThresholds_iff hnan', mem_sortThresholds_iff hnan, h _]

namespace ThresholdTable

theorem addFeatures_ok (t : ThresholdTable) (feature : Nat) {lists : List (List Binary32)}
    (hnan : ∀ xs ∈ lists, ∀ x ∈ xs, x.isNaN = false) :
    ∃ u, t.addFeatures feature lists = .ok u := by
  induction lists generalizing t feature with
  | nil => exact ⟨t, rfl⟩
  | cons xs lists ih =>
    obtain ⟨hxs, hlists⟩ := List.forall_mem_cons.mp hnan
    have hclean : ¬xs.any Binary32.isNaN = true := by simpa using hxs
    obtain ⟨u, hu⟩ := ih (t.addFeature (sortThresholds xs)) (feature + 1) hlists
    refine ⟨u, ?_⟩
    rw [addFeatures, if_neg hclean]
    exact hu

theorem isNaN_of_addFeatures {t u : ThresholdTable} {feature : Nat} {lists : List (List Binary32)}
    (h : t.addFeatures feature lists = .ok u) : ∀ xs ∈ lists, ∀ x ∈ xs, x.isNaN = false := by
  induction lists generalizing t feature with
  | nil => simp
  | cons xs lists ih =>
    rw [addFeatures] at h
    split at h
    next => cases h
    next hclean => exact List.forall_mem_cons.mpr ⟨by simpa using hclean, ih h⟩

theorem thresholds_addFeatures {t u : ThresholdTable} {feature : Nat}
    {lists : List (List Binary32)} (h : t.addFeatures feature lists = .ok u) :
    u.thresholds = t.thresholds ++ (lists.flatMap sortThresholds).toArray := by
  induction lists generalizing t feature with
  | nil =>
    cases h
    simp
  | cons xs lists ih =>
    rw [addFeatures] at h
    split at h
    next => cases h
    next =>
      have hadded : (t.addFeature (sortThresholds xs)).thresholds =
          t.thresholds ++ (sortThresholds xs).toArray := rfl
      rw [ih h, hadded, Array.append_assoc, List.flatMap_cons]
      simp

theorem size_addFeatures {t u : ThresholdTable} {feature : Nat} {lists : List (List Binary32)}
    (h : t.addFeatures feature lists = .ok u) :
    u.thresholds.size = t.thresholds.size + (lists.flatMap sortThresholds).length := by
  simp only [thresholds_addFeatures h, Array.size_append, List.size_toArray]

theorem size_addFeatures_le {t u : ThresholdTable} {feature : Nat} {lists : List (List Binary32)}
    (h : t.addFeatures feature lists = .ok u) :
    u.thresholds.size ≤ t.thresholds.size + lists.flatten.length := by
  rw [size_addFeatures h, List.length_flatMap, List.length_flatten]
  exact Nat.add_le_add_left (List.sum_le_sum fun xs _ => length_sortThresholds_le xs) _

/-- Features added to a table follow those that it had, in order. -/
theorem thresholdsOf_addFeatures {t u : ThresholdTable} {feature : Nat}
    {lists : List (List Binary32)} (hu : t.addFeatures feature lists = .ok u) (h : t.WellFormed)
    (hpos : 0 < t.offsets.size) (hcount : u.thresholdCount < 2 ^ 32) :
    u.featureCount = t.featureCount + lists.length ∧
      (∀ old < t.featureCount, u.thresholdsOf old = t.thresholdsOf old) ∧
      ∀ (i : Nat) (xs : List Binary32), lists[i]? = some xs →
        u.thresholdsOf (t.featureCount + i) = .ok (sortThresholds xs) := by
  induction lists generalizing t feature with
  | nil =>
    cases hu
    exact ⟨rfl, fun _ _ => rfl, fun i xs hi => by simp at hi⟩
  | cons ys lists ih =>
    rw [addFeatures] at hu
    split at hu
    next => cases hu
    next hnan =>
      have hnan : ∀ y ∈ ys, y.isNaN = false := by simpa using hnan
      have hroom : t.thresholds.size + (sortThresholds ys).length < 2 ^ 32 := by
        have hsize := size_le_addFeatures hu
        simp only [addFeature, Array.size_append, List.size_toArray] at hsize
        unfold thresholdCount at hcount
        omega
      have hgrown := wellFormed_addFeature h hpos hroom (increasing_sortThresholds hnan)
      have hplace := featureCount_addFeature (sortThresholds ys) hpos
      obtain ⟨hwidth, hold, hnew⟩ := ih hu hgrown (by simp [addFeature])
      rw [hplace] at hwidth hold hnew
      refine ⟨?_, fun old hlt => ?_, fun i xs hi => ?_⟩
      · rw [List.length_cons]
        omega
      · rw [hold old (by omega), thresholdsOf_addFeature_old h _ hlt]
      · cases i with
        | zero =>
          cases hi
          rw [Nat.add_zero, hold t.featureCount (by omega)]
          exact thresholdsOf_addFeature_new h hpos hroom
        | succ i =>
          have hat := hnew i xs hi
          rwa [show t.featureCount + 1 + i = t.featureCount + (i + 1) by omega] at hat

/-- The table of some lists has a feature for each list, with the numbers of the list, as long as
its offsets fit 32 bits. -/
theorem canonical_of_ofLists {lists : List (List Binary32)} {t : ThresholdTable}
    (ht : ofLists lists = .ok t) (hcount : t.thresholdCount < 2 ^ 32) :
    t.WellFormed ∧ t.featureCount = lists.length ∧
      ∀ (feature : Nat) (xs : List Binary32), lists[feature]? = some xs →
        ∃ ys, t.thresholdsOf feature = .ok ys ∧ (∀ y ∈ ys, y ∈ xs) ∧
          ∀ x ∈ xs, ys.countP (·.eqv x) = 1 := by
  have hnan := isNaN_of_addFeatures ht
  obtain ⟨hwidth, _, hlists⟩ := thresholdsOf_addFeatures ht wellFormed_start (by simp) hcount
  have hstart : (ThresholdTable.mk #[] #[0]).featureCount = 0 := rfl
  rw [hstart, Nat.zero_add] at hwidth
  refine ⟨(wellFormed_ofLists_iff ht).mpr hcount, hwidth, fun feature xs hxs => ?_⟩
  have hread := hlists feature xs hxs
  rw [hstart, Nat.zero_add] at hread
  have hclean := hnan xs (List.mem_of_getElem? hxs)
  exact ⟨_, hread, fun y hy => mem_of_mem_sortThresholds hy,
    fun x hx => countP_sortThresholds hclean hx⟩

theorem ofLists_canonical {lists : List (List Binary32)}
    (hnan : ∀ xs ∈ lists, ∀ x ∈ xs, x.isNaN = false)
    (hfit : lists.flatten.length < 2 ^ 32) :
    ∃ t, ofLists lists = .ok t ∧ t.WellFormed ∧ t.featureCount = lists.length ∧
      ∀ (feature : Nat) (xs : List Binary32), lists[feature]? = some xs →
        ∃ ys, t.thresholdsOf feature = .ok ys ∧ (∀ y ∈ ys, y ∈ xs) ∧
          ∀ x ∈ xs, ys.countP (·.eqv x) = 1 := by
  obtain ⟨t, ht⟩ := addFeatures_ok ⟨#[], #[0]⟩ 0 hnan
  have hcount : t.thresholdCount < 2 ^ 32 := by
    have hsize := size_addFeatures_le ht
    simp only [List.size_toArray, List.length_nil] at hsize
    unfold thresholdCount
    omega
  exact ⟨t, ht, canonical_of_ofLists ht hcount⟩

theorem addFeatures_congr (t : ThresholdTable) (feature : Nat) {lists lists' : List (List Binary32)}
    (h : List.Forall₂ SameMembers lists lists') :
    t.addFeatures feature lists' = t.addFeatures feature lists := by
  induction h generalizing t feature with
  | nil => rfl
  | @cons xs ys rest rest' hsame _ ih =>
    rw [addFeatures, addFeatures, any_eq_of_sameMembers hsame]
    split
    next => rfl
    next hnan =>
      have hnan : ∀ x ∈ xs, x.isNaN = false := by simpa using hnan
      rw [sortThresholds_congr hnan hsame, ih]

/-- Lists with the same members, feature by feature, have one table. -/
theorem ofLists_congr {lists lists' : List (List Binary32)}
    (h : List.Forall₂ SameMembers lists lists') : ofLists lists' = ofLists lists :=
  addFeatures_congr ⟨#[], #[0]⟩ 0 h

/-- The first of the lists that has a NaN. -/
def FirstNaN (lists : List (List Binary32)) (feature : Nat) : Prop :=
  (∃ xs, lists[feature]? = some xs ∧ ∃ x ∈ xs, x.isNaN = true) ∧
    ∀ earlier < feature, ∀ xs, lists[earlier]? = some xs → ∀ x ∈ xs, x.isNaN = false

theorem firstNaN_zero {xs : List Binary32} {lists : List (List Binary32)} :
    FirstNaN (xs :: lists) 0 ↔ xs.any Binary32.isNaN = true := by
  simp [FirstNaN]

theorem firstNaN_succ {xs : List Binary32} {lists : List (List Binary32)} {feature : Nat} :
    FirstNaN (xs :: lists) (feature + 1) ↔
      ¬xs.any Binary32.isNaN = true ∧ FirstNaN lists feature := by
  have hclean : ¬xs.any Binary32.isNaN = true ↔ ∀ x ∈ xs, x.isNaN = false := by simp
  rw [hclean]
  constructor
  · intro ⟨hat, hbefore⟩
    exact ⟨hbefore 0 (Nat.succ_pos feature) xs rfl, hat,
      fun earlier hlt => hbefore (earlier + 1) (Nat.succ_lt_succ hlt)⟩
  · intro ⟨hxs, hat, hbefore⟩
    refine ⟨hat, fun earlier hlt ys hys => ?_⟩
    cases earlier with
    | zero =>
      cases hys
      exact hxs
    | succ earlier => exact hbefore earlier (Nat.lt_of_succ_lt_succ hlt) ys hys

theorem addFeatures_error_iff {t : ThresholdTable} {feature : Nat} {lists : List (List Binary32)}
    {e : QuantizeError} :
    t.addFeatures feature lists = .error e ↔
      ∃ place, FirstNaN lists place ∧ e = .nanFeatureThreshold (feature + place) := by
  induction lists generalizing t feature with
  | nil =>
    refine iff_of_false nofun ?_
    rintro ⟨place, ⟨⟨xs, hxs, _⟩, _⟩, _⟩
    cases hxs
  | cons xs lists ih =>
    rw [addFeatures]
    split
    next hnan =>
      constructor
      · intro h
        cases h
        exact ⟨0, firstNaN_zero.mpr hnan, rfl⟩
      · rintro ⟨place, hfirst, he⟩
        cases place with
        | zero => rw [he, Nat.add_zero]
        | succ place => exact absurd hnan (firstNaN_succ.mp hfirst).1
    next hclean =>
      rw [ih]
      constructor
      · rintro ⟨place, hfirst, he⟩
        refine ⟨place + 1, firstNaN_succ.mpr ⟨hclean, hfirst⟩, ?_⟩
        rw [he, Nat.add_right_comm, Nat.add_assoc]
      · rintro ⟨place, hfirst, he⟩
        cases place with
        | zero => exact absurd (firstNaN_zero.mp hfirst) hclean
        | succ place =>
          refine ⟨place, (firstNaN_succ.mp hfirst).2, ?_⟩
          rw [he, Nat.add_right_comm, Nat.add_assoc]

theorem ofLists_ok_iff {lists : List (List Binary32)} :
    (∃ t, ofLists lists = .ok t) ↔ ∀ xs ∈ lists, ∀ x ∈ xs, x.isNaN = false :=
  ⟨fun ⟨_, h⟩ => isNaN_of_addFeatures h, addFeatures_ok ⟨#[], #[0]⟩ 0⟩

/-- Lists are refused for a NaN and for nothing else; the first of them that has one is named. -/
theorem ofLists_error_iff {lists : List (List Binary32)} {e : QuantizeError} :
    ofLists lists = .error e ↔
      ∃ feature, FirstNaN lists feature ∧ e = .nanFeatureThreshold feature := by
  simp only [ofLists, addFeatures_error_iff, Nat.zero_add]

end ThresholdTable

end TreeEnsemble
