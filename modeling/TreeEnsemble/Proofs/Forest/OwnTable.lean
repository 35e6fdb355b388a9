import TreeEnsemble.Proofs.Forest.Splits
import TreeEnsemble.Proofs.Threshold.Canonical

/-!
Quantization of a forest with the table of its own thresholds. It succeeds unless a split has a NaN
for a threshold or a feature out of range, and then the table has just the thresholds that the
splits use, each once. No threshold that was collected is missing when it is looked up.
-/

namespace TreeEnsemble.Forest

/-- A table has just the thresholds that splits of the forest use, each once up to equality of
numbers. -/
structure Minimal (f : Forest) (table : ThresholdTable) : Prop where
  featureCount : table.featureCount = f.width
  thresholds : ∀ feature < f.width, ∃ xs, table.thresholdsOf feature = .ok xs ∧
    (∀ y ∈ xs, ∃ place node, f.SplitAt place node feature y) ∧
    ∀ place node x, f.SplitAt place node feature x → xs.countP (·.eqv x) = 1

theorem mem_thresholdsOn {feature : Nat} {splits : List (Nat × Binary32)} {x : Binary32} :
    x ∈ thresholdsOn feature splits ↔ (feature, x) ∈ splits := by
  simp only [thresholdsOn, List.mem_filterMap]
  constructor
  · intro ⟨s, hs, hx⟩
    split at hx
    next heq =>
      cases hx
      cases heq
      exact hs
    next => nomatch hx
  · intro hs
    exact ⟨(feature, x), hs, by simp⟩

theorem length_thresholdsOn (feature : Nat) (splits : List (Nat × Binary32)) :
    (thresholdsOn feature splits).length = splits.countP fun s => decide (s.1 = feature) := by
  rw [thresholdsOn, List.length_filterMap_eq_countP]
  refine List.countP_congr fun s _ => ?_
  by_cases h : s.1 = feature <;> simp [h]

/-- The lists of all features together have a number for each split on one of the features. -/
theorem length_flatten_thresholdsOn (splits : List (Nat × Binary32)) (n : Nat) :
    ((List.range n).map fun feature => thresholdsOn feature splits).flatten.length =
      splits.countP fun s => decide (s.1 < n) := by
  induction n with
  | zero => simp
  | succ n ih =>
    have hsplit : (splits.countP fun s => decide (s.1 < n + 1)) =
        (splits.countP fun s => decide (s.1 < n)) + splits.countP fun s => decide (s.1 = n) := by
      clear ih
      induction splits with
      | nil => simp
      | cons s splits ih =>
        simp only [List.countP_cons, ih, decide_eq_true_eq]
        split <;> split <;> split <;> omega
    simp only [List.range_succ, List.map_append, List.map_cons, List.map_nil, List.flatten_append,
      List.flatten_cons, List.flatten_nil, List.append_nil, List.length_append, ih,
      length_thresholdsOn, hsplit]

theorem not_offends_iff {f : Forest} :
    (∀ place node e, ¬f.Offends place node e) ↔
      ∀ place node feature x, f.SplitAt place node feature x →
        x.isNaN = false ∧ feature < f.width := by
  constructor
  · intro hgood place node feature x ⟨t, ht, hsplit⟩
    have hnan : x.isNaN = false := by
      rw [← Bool.not_eq_true]
      exact fun hnan => hgood place node _ ⟨t, ht, feature, x, hsplit, Or.inl ⟨hnan, rfl⟩⟩
    refine ⟨hnan, Nat.lt_of_not_le fun hwide => ?_⟩
    exact hgood place node _ ⟨t, ht, feature, x, hsplit, Or.inr ⟨hnan, hwide, rfl⟩⟩
  · intro hgood place node e ⟨t, ht, feature, x, hsplit, hbad⟩
    obtain ⟨hnan, hin⟩ := hgood place node feature x ⟨t, ht, hsplit⟩
    rcases hbad with ⟨hbad, _⟩ | ⟨_, hwide, _⟩
    · rw [hnan] at hbad
      nomatch hbad
    · omega

/-- The table of the forest's own thresholds, if there is one, has offsets of 32 bits. -/
def OffsetsFit (f : Forest) : Prop :=
  ∀ table, f.ownTable = .ok table → table.thresholdCount < 2 ^ 32

theorem ownTable_of_splits {f : Forest} {splits : List (Nat × Binary32)}
    (h : f.splits = .ok splits) {table : ThresholdTable} :
    f.ownTable = .ok table ↔ ThresholdTable.ofLists
      ((List.range f.width).map fun feature => thresholdsOn feature splits) = .ok table := by
  simp only [ownTable, h, ok_bind]
  cases ThresholdTable.ofLists _ with
  | ok found => simp
  | error e => simp [fail_ne_ok]

/-- A forest finds its own table unless a split offends; then the first such split is reported. -/
theorem ownTable_cases_of_fit {f : Forest} (hf : ∀ t ∈ f.trees, t.WellFormed)
    (hfit : f.OffsetsFit) :
    (∃ table, f.ownTable = .ok table ∧ table.WellFormed ∧ f.Minimal table) ∧
        (∀ place node e, ¬f.Offends place node e) ∨
      ∃ place node e, f.ownTable = fail e ∧ f.FirstOffence place node e := by
  rcases splits_cases hf with ⟨⟨splits, hsplits⟩, hgood⟩ | ⟨place, node, e, he, hfirst⟩
  · left
    obtain ⟨hlen, hmem⟩ := splits_ok hf hsplits
    have hnan : ∀ xs ∈ (List.range f.width).map fun feature => thresholdsOn feature splits,
        ∀ x ∈ xs, x.isNaN = false := by
      intro xs hxs x hx
      obtain ⟨feature, _, rfl⟩ := List.mem_map.mp hxs
      obtain ⟨place, node, hsplit⟩ := (hmem feature x).mp (mem_thresholdsOn.mp hx)
      exact (not_offends_iff.mp hgood place node feature x hsplit).1
    obtain ⟨table, htable⟩ := ThresholdTable.ofLists_ok_iff.mpr hnan
    have hown := (ownTable_of_splits hsplits).mpr htable
    obtain ⟨hwell, hwidth, hlists⟩ :=
      ThresholdTable.canonical_of_ofLists htable (hfit table hown)
    refine ⟨⟨table, hown, hwell, by simpa using hwidth, fun feature hin => ?_⟩, hgood⟩
    · obtain ⟨xs, hxs, hof, hone⟩ := hlists feature (thresholdsOn feature splits) (by simp [hin])
      refine ⟨xs, hxs, fun y hy => (hmem feature y).mp (mem_thresholdsOn.mp (hof y hy)), ?_⟩
      intro place node x hsplit
      exact hone x (mem_thresholdsOn.mpr ((hmem feature x).mpr ⟨place, node, hsplit⟩))
  · right
    refine ⟨place, node, e, ?_, hfirst⟩
    simp only [ownTable, he, fail_bind]

/-- The table of a forest has no more thresholds than the forest has splits. -/
theorem thresholdCount_ownTable_le {f : Forest} {table : ThresholdTable}
    (hf : ∀ t ∈ f.trees, t.WellFormed) (h : f.ownTable = .ok table) :
    table.thresholdCount ≤ f.splitCount := by
  obtain ⟨splits, hsplits, _⟩ := bind_eq_ok_iff.mp h
  obtain ⟨hlen, _⟩ := splits_ok hf hsplits
  have hsize := ThresholdTable.size_addFeatures_le ((ownTable_of_splits hsplits).mp h)
  have hsum := length_flatten_thresholdsOn splits f.width
  have hle := List.countP_le_length (p := fun s => decide (s.1 < f.width)) (l := splits)
  simp only [List.size_toArray, List.length_nil] at hsize
  unfold ThresholdTable.thresholdCount
  omega

theorem offsetsFit_of_splitCount {f : Forest} (hf : ∀ t ∈ f.trees, t.WellFormed)
    (hcount : f.splitCount < 2 ^ 32) : f.OffsetsFit :=
  fun _ h => Nat.lt_of_le_of_lt (thresholdCount_ownTable_le hf h) hcount

/-- A feature has no more thresholds than there are values that thresholds are taken from. -/
theorem offsetsFit_of_values {f : Forest} (hf : ∀ t ∈ f.trees, t.WellFormed)
    (values : List Binary32)
    (h : ∀ place node feature x, f.SplitAt place node feature x → x ∈ values)
    (hcount : f.width * values.length < 2 ^ 32) : f.OffsetsFit := by
  intro table htable
  obtain ⟨splits, hsplits, _⟩ := bind_eq_ok_iff.mp htable
  obtain ⟨_, hmem⟩ := splits_ok hf hsplits
  have hlists := (ownTable_of_splits hsplits).mp htable
  have hnan := ThresholdTable.isNaN_of_addFeatures hlists
  have hsize := ThresholdTable.size_addFeatures hlists
  have hsum := List.sum_le_card_nsmul (((List.range f.width).map fun feature =>
    thresholdsOn feature splits).map fun xs => (sortThresholds xs).length) values.length
  simp only [List.length_map, List.length_range, Nat.nsmul_eq_mul] at hsum
  simp only [List.size_toArray, List.length_nil] at hsize
  refine Nat.lt_of_le_of_lt ?_ hcount
  rw [ThresholdTable.thresholdCount, hsize, Nat.zero_add, List.length_flatMap]
  refine hsum fun n hn => ?_
  obtain ⟨xs, hxs, rfl⟩ := List.mem_map.mp hn
  refine length_sortThresholds_le_of_mem (hnan xs hxs) fun x hx => ?_
  obtain ⟨feature, _, rfl⟩ := List.mem_map.mp hxs
  obtain ⟨place, node, hsplit⟩ := (hmem feature x).mp (mem_thresholdsOn.mp hx)
  exact h place node feature x hsplit

theorem ownTable_cases {f : Forest} (hf : ∀ t ∈ f.trees, t.WellFormed)
    (hcount : f.splitCount < 2 ^ 30) :
    (∃ table, f.ownTable = .ok table ∧ table.WellFormed ∧ f.Minimal table) ∧
        (∀ place node e, ¬f.Offends place node e) ∨
      ∃ place node e, f.ownTable = fail e ∧ f.FirstOffence place node e :=
  ownTable_cases_of_fit hf (offsetsFit_of_splitCount hf (by omega))

theorem exists_thresholdsOf {table : ThresholdTable} {feature : Nat} {x : Binary32}
    {bin? : Option Int32} (h : table.thresholdBin feature x = .ok bin?) :
    ∃ xs, table.thresholdsOf feature = .ok xs := by
  obtain ⟨_, hlocate, _⟩ := bind_eq_ok_iff.mp h
  obtain ⟨r, hregion, _⟩ := bind_eq_ok_iff.mp hlocate
  exact ⟨_, bind_eq_ok_iff.mpr ⟨r, hregion, rfl⟩⟩

/-- The own table of a forest that it codes has no offset that was cut off: features with splits
were read, and others have no thresholds. -/
theorem wellFormed_of_coded {f : Forest} {table : ThresholdTable}
    (hf : ∀ t ∈ f.trees, t.WellFormed) (hown : f.ownTable = .ok table)
    (hcoded : ∀ t ∈ f.trees, t.CodedBy table) : table.WellFormed := by
  obtain ⟨splits, hsplits, _⟩ := bind_eq_ok_iff.mp hown
  obtain ⟨_, hmem⟩ := splits_ok hf hsplits
  have hlists := (ownTable_of_splits hsplits).mp hown
  refine ThresholdTable.wellFormed_addFeatures hlists ThresholdTable.wellFormed_start (by simp)
    fun s next rest feature xs hs hpos hplace hget hinc hu => ?_
  cases xs with
  | nil =>
    have hcount := hs.thresholdCount_lt
    simpa [sortThresholds, dropRepeats, ThresholdTable.thresholdCount] using hcount
  | cons x xs =>
    obtain ⟨hplace, hxs⟩ : s.featureCount = feature ∧ thresholdsOn feature splits = x :: xs := by
      have hstart : (ThresholdTable.mk #[] #[0]).featureCount = 0 := rfl
      rw [List.getElem?_map, Option.map_eq_some_iff] at hget
      obtain ⟨i, hi, hxs⟩ := hget
      obtain ⟨_, hi⟩ := List.getElem?_eq_some_iff.mp hi
      rw [List.getElem_range] at hi
      exact ⟨by omega, hi ▸ hxs⟩
    have hlisted : (feature, x) ∈ splits := mem_thresholdsOn.mp (hxs ▸ List.mem_cons_self)
    obtain ⟨place, node, t, ht, hsplit⟩ := (hmem feature x).mp hlisted
    obtain ⟨feature', _, _, _, codes⟩ :=
      (hcoded t (Array.mem_of_getElem? ht)).splits node hsplit.1
    cases Except.ok.inj (codes.feature_eq.symm.trans hsplit.2.1)
    obtain ⟨ys, hys⟩ := exists_thresholdsOf codes.ofThreshold
    exact ThresholdTable.fits_of_read hs hpos hinc hu (hplace ▸ hys)

/-- What was collected is found again: with its own table a forest is coded. -/
theorem quantizeWith_minimal {f : Forest} {table : ThresholdTable}
    (hf : ∀ t ∈ f.trees, t.WellFormed) (ht : table.WellFormed) (hmin : f.Minimal table)
    (hgood : ∀ place node e, ¬f.Offends place node e) :
    ∃ trees, f.quantizeWith table = .ok (f.withCodes trees table, .ok ()) := by
  rcases quantizeWith_outcome hf ht with
    ⟨hsmall, _⟩ | ⟨_, ⟨hcoded, _⟩ | ⟨place, node, feature, x, _, hfirst⟩⟩
  · have hwidth := hmin.featureCount
    omega
  · exact hcoded
  · obtain ⟨t, htree, hl, hfeature, hx, hnot⟩ := hfirst.1
    have hsplit : f.SplitAt place node feature x := ⟨t, htree, hl, hfeature, hx⟩
    obtain ⟨xs, hxs, _, hone⟩ :=
      hmin.thresholds feature (not_offends_iff.mp hgood place node feature x hsplit).2
    have hpos : 0 < xs.countP (·.eqv x) := by
      rw [hone place node x hsplit]
      exact Nat.one_pos
    exact absurd ⟨xs, hxs, List.countP_pos_iff.mp hpos⟩ hnot

theorem quantize_of_ownTable {f : Forest} {table : ThresholdTable} (h : f.ownTable = .ok table) :
    f.quantize = f.quantizeWith table := by
  simp only [quantize, h]
  rfl

theorem quantize_of_refused {f : Forest} {e : QuantizeError} (h : f.ownTable = fail e) :
    f.quantize = .ok (f, .error e) := by
  simp only [quantize, h]
  rfl

/-- A forest is coded with its own table unless a split offends. -/
theorem quantize_succeeds_iff {f : Forest} (hf : ∀ t ∈ f.trees, t.WellFormed)
    (hfit : f.OffsetsFit) :
    (∃ g, f.quantize = .ok (g, .ok ())) ↔ ∀ place node feature x, f.SplitAt place node feature x →
      x.isNaN = false ∧ feature < f.width := by
  rcases ownTable_cases_of_fit hf hfit with
    ⟨⟨table, hown, htable, hmin⟩, hgood⟩ | ⟨place, node, e, hown, hfirst⟩
  · obtain ⟨trees, hwith⟩ := quantizeWith_minimal hf htable hmin hgood
    exact iff_of_true ⟨_, (quantize_of_ownTable hown).trans hwith⟩ (not_offends_iff.mp hgood)
  · refine iff_of_false (fun ⟨g, hq⟩ => ?_) fun hall =>
      not_offends_iff.mpr hall place node e hfirst.1
    rw [quantize_of_refused hown] at hq
    cases hq

theorem quantize_of_splits {f : Forest} {splits : List (Nat × Binary32)}
    (hf : ∀ t ∈ f.trees, t.WellFormed) (hcount : f.splitCount < 2 ^ 30)
    (h : f.splits = .ok splits) : ∃ g, f.quantize = .ok (g, .ok ()) := by
  rcases splits_cases hf with ⟨_, hgood⟩ | ⟨_, _, _, he, _⟩
  · have hfit := offsetsFit_of_splitCount hf (Nat.lt_trans hcount (by decide))
    exact (quantize_succeeds_iff hf hfit).mpr (not_offends_iff.mp hgood)
  · cases h.symm.trans he

/-- What a forest has after it was coded with its own table. -/
theorem quantize_ok {f g : Forest} (hf : f.WellFormed) (hcount : f.splitCount < 2 ^ 30)
    (hq : f.quantize = .ok (g, .ok ())) :
    ∃ table, g.table = some table ∧ table.WellFormed ∧ table.Small ∧ g.WellFormed ∧
      g.width ≤ table.featureCount ∧ ∀ t ∈ g.trees, t.CodedBy table := by
  obtain ⟨table, hown, hwith⟩ := quantizeWith_ownTable hq
  obtain ⟨hcov, htable, hwidth, hg, hcoded⟩ := quantizeWith_ok hf hwith
  rcases ownTable_cases hf.trees hcount with ⟨⟨table', hown', hwell, _⟩, _⟩ | ⟨_, _, _, he, _⟩
  · cases Except.ok.inj (hown.symm.trans hown')
    have hle := thresholdCount_ownTable_le hf.trees hown
    exact ⟨table, htable, hwell, hwell.small (by omega), hg, hwidth ▸ hcov, hcoded⟩
  · cases hown.symm.trans he

/-- Forests with the same splits are given the same codes. -/
theorem SameSplits.quantizeWith_ok {f f' : Forest} (h : f.SameSplits f') {table : ThresholdTable}
    {trees : List Tree} (hq : f.quantizeWith table = .ok (f.withCodes trees table, .ok ())) :
    ∃ trees', f'.quantizeWith table = .ok (f'.withCodes trees' table, .ok ()) ∧
      ∀ (place : Nat) t', f'.trees[place]? = some t' → ∃ t, trees[place]? = some t ∧
        trees'[place]? = some (t'.withBins t.thresholdBins t.zeroBins) := by
  obtain ⟨hcov, coded, hcoded, hg⟩ := quantizeWith_coded hq
  have htrees : trees = coded := by simpa [withCodes] using congrArg Forest.trees hg
  subst htrees
  obtain ⟨hlen, hat⟩ := mapM_eq_ok hcoded
  have hlen : trees.length = f.trees.size := hlen
  have hsize := h.size
  have hcodes : ∀ (place : Nat) t', f'.trees[place]? = some t' → ∃ t, trees[place]? = some t ∧
      t'.assignBins table = .ok (t'.withBins t.thresholdBins t.zeroBins) := by
    intro place t' ht'
    have hn := (Array.getElem?_eq_some_iff.mp ht').1
    have hin : place < f.trees.size := by omega
    have hin' : place < trees.length := by omega
    have ht : f.trees[place]? = some f.trees[place] := Array.getElem?_eq_getElem hin
    have hc : trees[place]? = some trees[place] := List.getElem?_eq_getElem hin'
    exact ⟨trees[place], hc, (h.trees place _ t' ht ht').assignBins_eq
      (hat place _ _ (Array.getElem?_toList.trans ht) hc)⟩
  let trees' := List.zipWith (fun t' t => t'.withBins t.thresholdBins t.zeroBins)
    f'.trees.toList trees
  have hget : ∀ (place : Nat) t' t, f'.trees[place]? = some t' → trees[place]? = some t →
      trees'[place]? = some (t'.withBins t.thresholdBins t.zeroBins) := by
    intro place t' t ht' hc
    simp [trees', List.getElem?_zipWith, ht', hc]
  refine ⟨trees', quantizeWith_ok_iff.mpr ⟨h.width ▸ hcov, trees', mapM_eq_ok_of_at ?_ ?_, rfl⟩, ?_⟩
  · simp only [trees', List.length_zipWith, Array.length_toList]
    omega
  · intro place t' u ht' hu
    rw [Array.getElem?_toList] at ht'
    obtain ⟨t, hc, hassign⟩ := hcodes place t' ht'
    cases Option.some.inj ((hget place t' t ht' hc).symm.trans hu)
    exact hassign
  · intro place t' ht'
    obtain ⟨t, hc, _⟩ := hcodes place t' ht'
    exact ⟨t, hc, hget place t' t ht' hc⟩

/-- A stump on the one feature. Its leaves have a NaN for a threshold and a feature out of range. -/
def untidyStump (threshold : Binary32) : Tree where
  features := #[0, 9, 9]
  thresholds := #[threshold, .quietNaN, .quietNaN]
  thresholdBins := #[]
  zeroBins := #[]
  comparisons := #[.lt, .lt, .lt]
  left := #[1, 0, 0]
  right := #[2, 0, 0]
  defaultLeft := #[false, false, false]
  missingAsZero := #[false, false, false]
  leaf := #[false, true, true]
  values := #[.zero, ⟨0x3f800000⟩, ⟨0x40000000⟩]

/-- One stump at zero, the other one at negative zero. -/
def bothZeros : Forest where
  trees := #[untidyStump .zero, untidyStump ⟨0x80000000⟩]
  groups := #[0, 0]
  groupCount := 1
  featureCount := 1
  baseScore := #[.zero]
  table := none

end TreeEnsemble.Forest
