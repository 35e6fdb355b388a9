import TreeEnsemble.Proofs.Threshold.Table

/-!
Tables of lists. Sorting a list and dropping repeats leaves its numbers in strictly increasing
order, and each feature added at the end of a well-formed table keeps it well formed, as long as
its offset fits 32 bits.
-/

namespace TreeEnsemble

theorem totalLe_sorted (xs : List Binary32) :
    (xs.mergeSort Binary32.totalLe).Pairwise fun x y => x.totalRank ≤ y.totalRank := by
  have hs : (xs.mergeSort Binary32.totalLe).Pairwise (Binary32.totalLe · ·) := by
    apply List.pairwise_mergeSort
    · intro x y z hxy hyz
      simp only [Binary32.totalLe, decide_eq_true_eq] at hxy hyz ⊢
      omega
    · intro x y
      simp only [Binary32.totalLe, Bool.or_eq_true, decide_eq_true_eq]
      omega
  exact hs.imp fun h => by simpa [Binary32.totalLe] using h

theorem mem_of_mem_dropRepeats {xs : List Binary32} {z : Binary32} (h : z ∈ dropRepeats xs) :
    z ∈ xs := by
  fun_induction dropRepeats xs with
  | case1 => exact h
  | case2 => exact h
  | case3 x y rest he ih =>
    rcases List.mem_cons.mp (ih h) with rfl | hz
    · exact List.mem_cons_self
    · exact List.mem_cons_of_mem _ (List.mem_cons_of_mem _ hz)
  | case4 x y rest he ih =>
    rcases List.mem_cons.mp h with rfl | hz
    · exact List.mem_cons_self
    · exact List.mem_cons_of_mem _ (ih hz)

theorem increasing_dropRepeats {xs : List Binary32} (hnan : ∀ x ∈ xs, x.isNaN = false)
    (hs : xs.Pairwise fun x y => x.rank ≤ y.rank) : Increasing (dropRepeats xs) := by
  refine ⟨fun x hx => hnan x (mem_of_mem_dropRepeats hx), ?_⟩
  fun_induction dropRepeats xs with
  | case1 => exact .nil
  | case2 x => exact List.pairwise_singleton _ x
  | case3 x y rest he ih =>
    apply ih
    · intro z hz
      rcases List.mem_cons.mp hz with rfl | hz
      · exact hnan z List.mem_cons_self
      · exact hnan z (List.mem_cons_of_mem _ (List.mem_cons_of_mem _ hz))
    · exact hs.sublist ((List.sublist_cons_self y rest).cons_cons x)
  | case4 x y rest he ih =>
    have hs' := List.pairwise_cons.mp hs
    refine List.pairwise_cons.mpr
      ⟨?_, ih (fun z hz => hnan z (List.mem_cons_of_mem _ hz)) hs'.2⟩
    intro z hz
    have hx := hnan x List.mem_cons_self
    have hy := hnan y (List.mem_cons_of_mem _ List.mem_cons_self)
    have hz' := mem_of_mem_dropRepeats hz
    have hxy : x.rank ≠ y.rank := fun hr => he (Binary32.eqv_iff.mpr ⟨hy, hx, hr.symm⟩)
    have hle := hs'.1 y List.mem_cons_self
    have hyz : y.rank ≤ z.rank := by
      rcases List.mem_cons.mp hz' with rfl | hr
      · omega
      · exact (List.pairwise_cons.mp hs'.2).1 z hr
    exact Binary32.lt_iff.mpr ⟨hx, hnan z (List.mem_cons_of_mem _ hz'), by omega⟩

theorem increasing_sortThresholds {xs : List Binary32} (hnan : ∀ x ∈ xs, x.isNaN = false) :
    Increasing (sortThresholds xs) := by
  apply increasing_dropRepeats
  · exact fun x hx => hnan x (List.mem_mergeSort.mp hx)
  · exact (totalLe_sorted xs).imp Binary32.rank_le_of_totalRank_le

theorem rank_bounds {x : Binary32} (hx : x.isNaN = false) :
    -(Binary32.infinityMagnitude : Int) ≤ x.rank ∧ x.rank ≤ Binary32.infinityMagnitude := by
  simp only [Binary32.isNaN, decide_eq_false_iff_not] at hx
  unfold Binary32.rank
  split <;> omega

/-- An increasing list takes a place on the line of numbers for each of its elements. -/
theorem Increasing.length_le {xs : List Binary32} (h : Increasing xs) {low : Int}
    (hlow : ∀ x ∈ xs, low ≤ x.rank) :
    xs.length ≤ ((Binary32.infinityMagnitude : Int) + 1 - low).toNat := by
  obtain ⟨hnan, hord⟩ := h
  induction xs generalizing low with
  | nil => exact Nat.zero_le _
  | cons x xs ih =>
    obtain ⟨hx, hxs⟩ := List.pairwise_cons.mp hord
    have hnext : ∀ y ∈ xs, x.rank + 1 ≤ y.rank := by
      intro y hy
      obtain ⟨_, _, hlt⟩ := Binary32.lt_iff.mp (hx y hy)
      omega
    have hrest := ih hnext (fun y hy => hnan y (List.mem_cons_of_mem x hy)) hxs
    have hfirst := hlow x List.mem_cons_self
    have hmax := (rank_bounds (hnan x List.mem_cons_self)).2
    rw [List.length_cons]
    omega

theorem Increasing.length_lt {xs : List Binary32} (h : Increasing xs) : xs.length < 2 ^ 32 := by
  have hle := h.length_le fun x hx => (rank_bounds (h.1 x hx)).1
  unfold Binary32.infinityMagnitude at hle
  omega

namespace ThresholdTable

theorem region_eq_ok {t : ThresholdTable} {feature : Nat} {first last : UInt32}
    (hf : t.offsets[feature]? = some first) (hl : t.offsets[feature + 1]? = some last)
    (hle : first ≤ last) (hb : last.toNat ≤ t.thresholds.size) :
    t.region feature = .ok ⟨first.toNat, last.toNat⟩ := by
  simp [region, hf, hl, hle, hb]

theorem thresholdsOf_addFeature_old {t : ThresholdTable} (h : t.WellFormed) (xs : List Binary32)
    {feature : Nat} (hf : feature < t.featureCount) :
    (t.addFeature xs).thresholdsOf feature = t.thresholdsOf feature := by
  unfold featureCount at hf
  have hfirst : t.offsets[feature]? = some t.offsets[feature] :=
    Array.getElem?_eq_getElem (by omega)
  have hlast : t.offsets[feature + 1]? = some t.offsets[feature + 1] :=
    Array.getElem?_eq_getElem (by omega)
  have hle := h.ascending feature _ _ hfirst hlast
  have hb := h.offset_le_size hlast
  have hr := region_eq_ok hfirst hlast hle hb
  have hr' : (t.addFeature xs).region feature =
      .ok ⟨t.offsets[feature].toNat, t.offsets[feature + 1].toNat⟩ := by
    refine region_eq_ok ?_ ?_ hle ?_
    · rw [addFeature, Array.getElem?_push, if_neg (by omega), hfirst]
    · rw [addFeature, Array.getElem?_push, if_neg (by omega), hlast]
    · simp only [addFeature, Array.size_append]
      omega
  have hextract : (t.thresholds ++ xs.toArray).extract t.offsets[feature].toNat
      t.offsets[feature + 1].toNat =
      t.thresholds.extract t.offsets[feature].toNat t.offsets[feature + 1].toNat := by
    rw [Array.extract_append, Nat.sub_eq_zero_of_le hb]
    simp
  rw [thresholdsOf, thresholdsOf, hr, hr', ok_bind, ok_bind, Span.read, Span.read, addFeature,
    hextract]

theorem thresholdsOf_addFeature_new {t : ThresholdTable} (h : t.WellFormed) {xs : List Binary32}
    (hpos : 0 < t.offsets.size) (hfit : t.thresholds.size + xs.length < 2 ^ 32) :
    (t.addFeature xs).thresholdsOf t.featureCount = .ok xs := by
  have hfirst : t.offsets[t.featureCount]? = some t.offsets[t.offsets.size - 1] :=
    Array.getElem?_eq_getElem (by unfold featureCount; omega)
  have hsize := h.last _ hfirst
  have hnew : (UInt32.ofNat (t.thresholds ++ xs.toArray).size).toNat =
      t.thresholds.size + xs.length := by
    simp only [Array.size_append, List.size_toArray]
    exact UInt32.toNat_ofNat_of_lt' hfit
  have hr : (t.addFeature xs).region t.featureCount =
      .ok ⟨t.thresholds.size, t.thresholds.size + xs.length⟩ := by
    rw [← hsize, hsize, ← hnew, ← hsize]
    refine region_eq_ok ?_ ?_ ?_ ?_
    · rw [addFeature, Array.getElem?_push, if_neg (by unfold featureCount; omega), hfirst]
    · rw [addFeature, Array.getElem?_push, if_pos (by unfold featureCount; omega)]
    · rw [UInt32.le_iff_toNat_le]
      omega
    · rw [hnew]
      simp [addFeature]
  rw [thresholdsOf, hr]
  simp [Span.read, addFeature]

theorem featureCount_addFeature {t : ThresholdTable} (xs : List Binary32)
    (hpos : 0 < t.offsets.size) : (t.addFeature xs).featureCount = t.featureCount + 1 := by
  simp only [featureCount, addFeature, Array.size_push]
  omega

theorem wellFormed_addFeature {t : ThresholdTable} (h : t.WellFormed) {xs : List Binary32}
    (hpos : 0 < t.offsets.size) (hfit : t.thresholds.size + xs.length < 2 ^ 32)
    (hxs : Increasing xs) : (t.addFeature xs).WellFormed := by
  have hnew : (UInt32.ofNat (t.thresholds ++ xs.toArray).size).toNat =
      t.thresholds.size + xs.length := by
    simp only [Array.size_append, List.size_toArray]
    exact UInt32.toNat_ofNat_of_lt' hfit
  have hold : ∀ i < t.offsets.size, (t.addFeature xs).offsets[i]? = t.offsets[i]? := by
    intro i hi
    rw [addFeature, Array.getElem?_push, if_neg (by omega)]
  have hend : (t.addFeature xs).offsets[t.offsets.size]? =
      some (UInt32.ofNat (t.thresholds ++ xs.toArray).size) := by
    rw [addFeature, Array.getElem?_push, if_pos rfl]
  exact {
    noOffsets := fun h0 => by simp [addFeature] at h0
    first := fun first hf => h.first first (hold 0 hpos ▸ hf)
    ascending := by
      intro i first last hf hl
      have hi := (Array.getElem?_eq_some_iff.mp hl).1
      simp only [addFeature, Array.size_push] at hi
      rw [hold i (by omega)] at hf
      by_cases hin : i + 1 < t.offsets.size
      · rw [hold (i + 1) hin] at hl
        exact h.ascending i first last hf hl
      · have hi : i + 1 = t.offsets.size := by omega
        rw [hi, hend] at hl
        cases hl
        have := h.offset_le_size hf
        rw [UInt32.le_iff_toNat_le, hnew]
        omega
    last := by
      intro last hl
      have hsize : (t.addFeature xs).offsets.size - 1 = t.offsets.size := by simp [addFeature]
      rw [hsize, hend] at hl
      cases hl
      rw [hnew]
      simp [addFeature]
    increasing := by
      intro feature ys hys
      by_cases hin : feature < t.featureCount
      · rw [thresholdsOf_addFeature_old h xs hin] at hys
        exact h.increasing feature ys hys
      · by_cases heq : feature = t.featureCount
        · rw [heq, thresholdsOf_addFeature_new h hpos hfit] at hys
          cases hys
          exact hxs
        · rw [thresholdsOf_uncovered (by rw [featureCount_addFeature xs hpos]; omega)] at hys
          cases hys
          exact increasing_nil }

theorem getElem?_addFeatures {t u : ThresholdTable} {feature : Nat} {lists : List (List Binary32)}
    (h : t.addFeatures feature lists = .ok u) {i : Nat} {o : UInt32} (ho : t.offsets[i]? = some o) :
    u.offsets[i]? = some o := by
  induction lists generalizing t feature with
  | nil =>
    cases h
    exact ho
  | cons xs lists ih =>
    rw [addFeatures] at h
    split at h
    next => nomatch h
    next =>
      have hi := (Array.getElem?_eq_some_iff.mp ho).1
      apply ih h
      rw [addFeature, Array.getElem?_push, if_neg (by omega)]
      exact ho

/-- The offsets of a feature that was read were not cut off at 32 bits: the thresholds of the
feature alone are too few to bring the last offset back to the first one. -/
theorem fits_of_read {t u : ThresholdTable} (h : t.WellFormed) (hpos : 0 < t.offsets.size)
    {feature : Nat} {lists : List (List Binary32)} {xs ys : List Binary32} (hxs : Increasing xs)
    (hu : (t.addFeature xs).addFeatures feature lists = .ok u)
    (hread : u.thresholdsOf t.featureCount = .ok ys) :
    t.thresholds.size + xs.length < 2 ^ 32 := by
  have hplace : t.featureCount + 1 = t.offsets.size := by
    unfold featureCount
    omega
  have hold : t.offsets[t.featureCount]? = some t.offsets[t.offsets.size - 1] :=
    Array.getElem?_eq_getElem (by omega)
  have hfirst : u.offsets[t.featureCount]? = some t.offsets[t.offsets.size - 1] := by
    apply getElem?_addFeatures hu
    rw [addFeature, Array.getElem?_push, if_neg (by omega)]
    exact hold
  have hlast : u.offsets[t.featureCount + 1]? =
      some (UInt32.ofNat (t.thresholds ++ xs.toArray).size) := by
    apply getElem?_addFeatures hu
    rw [addFeature, Array.getElem?_push, if_pos hplace]
  obtain ⟨r, hr, _⟩ := bind_eq_ok_iff.mp hread
  simp only [region, hfirst, hlast] at hr
  split at hr
  next hle =>
    have hsize := h.last _ hold
    have hxs := hxs.length_lt
    have hle := UInt32.le_iff_toNat_le.mp hle.1
    have hfit := t.offsets[t.offsets.size - 1].toNat_lt
    simp only [Array.size_append, List.size_toArray, UInt32.toNat_ofNat'] at hle
    omega
  next => nomatch hr

theorem size_le_addFeatures {t u : ThresholdTable} {feature : Nat} {lists : List (List Binary32)}
    (h : t.addFeatures feature lists = .ok u) : t.thresholds.size ≤ u.thresholds.size := by
  induction lists generalizing t feature with
  | nil =>
    cases h
    exact Nat.le_refl _
  | cons xs lists ih =>
    rw [addFeatures] at h
    split at h
    next => nomatch h
    next =>
      have hrest := ih h
      simp only [addFeature, Array.size_append] at hrest
      omega

/-- Adding features keeps a table well formed, if no offset is cut off on the way. -/
theorem wellFormed_addFeatures {t u : ThresholdTable} {feature : Nat}
    {lists : List (List Binary32)} (hu : t.addFeatures feature lists = .ok u) (h : t.WellFormed)
    (hpos : 0 < t.offsets.size)
    (hfit : ∀ (s : ThresholdTable) (next : Nat) (rest : List (List Binary32)) (i : Nat)
      (xs : List Binary32), s.WellFormed → 0 < s.offsets.size →
      s.featureCount = t.featureCount + i → lists[i]? = some xs → Increasing (sortThresholds xs) →
      (s.addFeature (sortThresholds xs)).addFeatures next rest = .ok u →
      s.thresholds.size + (sortThresholds xs).length < 2 ^ 32) :
    u.WellFormed := by
  induction lists generalizing t feature with
  | nil =>
    cases hu
    exact h
  | cons xs lists ih =>
    rw [addFeatures] at hu
    split at hu
    next => nomatch hu
    next hnan =>
      have hnan : ∀ x ∈ xs, x.isNaN = false := by simpa using hnan
      have hinc := increasing_sortThresholds hnan
      have hroom := hfit t _ lists 0 xs h hpos rfl rfl hinc hu
      refine ih hu (wellFormed_addFeature h hpos hroom hinc) (by simp [addFeature]) ?_
      intro s next rest i ys hs hpos' hplace hget
      rw [featureCount_addFeature _ hpos, Nat.add_right_comm] at hplace
      exact hfit s next rest (i + 1) ys hs hpos' hplace hget

theorem wellFormed_start : (ThresholdTable.mk #[] #[0]).WellFormed :=
  wellFormed_noFeatures (Nat.le_refl 1) fun _ hf => (Option.some.inj hf).symm

theorem WellFormed.thresholdCount_lt {t : ThresholdTable} (h : t.WellFormed) :
    t.thresholdCount < 2 ^ 32 := by
  rcases Nat.eq_zero_or_pos t.offsets.size with hnone | hpos
  · have hsize := h.noOffsets hnone
    unfold thresholdCount
    omega
  · obtain ⟨last, _, hsize⟩ := (h.cut hpos).last
    have hlast := last.toNat_lt
    unfold thresholdCount
    omega

/-- The table of some lists is well formed as long as its offsets fit 32 bits. -/
theorem wellFormed_ofLists_iff {lists : List (List Binary32)} {t : ThresholdTable}
    (h : ofLists lists = .ok t) : t.WellFormed ↔ t.thresholdCount < 2 ^ 32 := by
  refine ⟨WellFormed.thresholdCount_lt, fun hcount => ?_⟩
  refine wellFormed_addFeatures h wellFormed_start (by simp) fun s _ _ _ xs _ _ _ _ _ hu => ?_
  have hsize := size_le_addFeatures hu
  simp only [addFeature, Array.size_append, List.size_toArray] at hsize
  unfold thresholdCount at hcount
  omega

/-- The tables that the operations make. -/
inductive Made : ThresholdTable → Prop
  | empty : Made empty
  | ofLists {lists : List (List Binary32)} {t : ThresholdTable} (h : ofLists lists = .ok t) : Made t
  | ofParts {thresholds : Array Binary32} {offsets : Array UInt32} {t : ThresholdTable}
      (h : ofParts thresholds offsets = .ok t) : Made t

/-- Every feature has fewer than 2^30 thresholds, so that all codes fit 32 bits. -/
def Small (t : ThresholdTable) : Prop :=
  ∀ feature, ∃ xs, t.thresholdsOf feature = .ok xs ∧ xs.length < 2 ^ 30

theorem WellFormed.small {t : ThresholdTable} (h : t.WellFormed)
    (hcount : t.thresholdCount < 2 ^ 30) : t.Small := by
  intro feature
  obtain ⟨xs, hxs, _⟩ := h.thresholdsOf_ok feature
  have hle := length_thresholdsOf_le hxs
  exact ⟨xs, hxs, by omega⟩

theorem Made.wellFormed {t : ThresholdTable} (h : t.Made) (hsmall : t.Small) : t.WellFormed := by
  cases h with
  | empty => exact wellFormed_noFeatures (Nat.zero_le 1) nofun
  | ofLists h =>
    refine wellFormed_addFeatures h wellFormed_start (by simp)
      fun s _ _ _ xs hs hpos _ _ hinc hu => ?_
    -- the added feature stays where it is in the final table
    obtain ⟨ys, hys, _⟩ := hsmall s.featureCount
    exact fits_of_read hs hpos hinc hu hys
  | ofParts h => exact (ofParts_ok h).2

end ThresholdTable

end TreeEnsemble
