import TreeEnsemble.Proofs.Forest.Validation
import TreeEnsemble.Proofs.Threshold.Partition

/-!
What a successful quantization leaves behind: the same forest with the table, and at every split the
codes that the table gives its threshold and zero.
-/

namespace TreeEnsemble

/-- A run that collects results has one for each element, in order. -/
theorem mapM_eq_ok {ε α β : Type} {f : α → Except ε β} {xs : List α} {ys : List β}
    (h : xs.mapM f = .ok ys) :
    ys.length = xs.length ∧ ∀ (i : Nat) x y, xs[i]? = some x → ys[i]? = some y → f x = .ok y := by
  induction xs generalizing ys with
  | nil =>
    cases h
    exact ⟨rfl, by simp⟩
  | cons x xs ih =>
    rw [List.mapM_cons] at h
    obtain ⟨y, hy, h⟩ := bind_eq_ok_iff.mp h
    obtain ⟨rest, hrest, h⟩ := bind_eq_ok_iff.mp h
    cases h
    obtain ⟨hlen, hat⟩ := ih hrest
    refine ⟨by simp [hlen], fun i x' y' hx hy' => ?_⟩
    cases i with
    | zero =>
      cases hx
      cases hy'
      exact hy
    | succ i => exact hat i x' y' hx hy'

theorem Attempt.settle_eq_ok_ok {ε α : Type} {x : Attempt ε α} {a : α}
    (h : x.settle = .ok (.ok a)) : x = .ok a := by
  rcases x with (fault | e) | b
  · nomatch h
  · nomatch h
  · cases h
    rfl

theorem Attempt.settle_eq_ok_error {ε α : Type} {x : Attempt ε α} {e : ε}
    (h : x.settle = .ok (.error e)) : x = fail e := by
  rcases x with (fault | e') | b
  · nomatch h
  · cases h
    rfl
  · nomatch h

namespace Tree

/-- The tree with other codes. -/
def withBins (t : Tree) (thresholdBins zeroBins : Array Int32) : Tree :=
  { t with thresholdBins := thresholdBins, zeroBins := zeroBins }

/-- A split on a feature has the codes that a table gives its threshold and zero. -/
structure SplitCodes (t : Tree) (table : ThresholdTable) (node feature : Nat)
    (threshold : Binary32) (bin zero : Int32) : Prop where
  feature_eq : t.feature node = .ok feature
  threshold_eq : t.threshold node = .ok threshold
  bin_eq : t.thresholdBin node = .ok bin
  zero_eq : t.zeroBin node = .ok zero
  ofThreshold : table.thresholdBin feature threshold = .ok (some bin)
  ofZero : table.valueBin feature .zero = .ok zero

/-- The codes of a tree's splits come from a table. -/
structure CodedBy (t : Tree) (table : ThresholdTable) : Prop where
  bins : t.hasBins = true
  splits : ∀ node : Nat, t.leaf[node]? = some false →
    ∃ feature threshold bin zero, t.SplitCodes table node feature threshold bin zero

theorem follow_withBins (t : Tree) (thresholdBins zeroBins : Array Int32) (node : Nat)
    (path : List Side) :
    (t.withBins thresholdBins zeroBins).follow node path = t.follow node path := by
  induction path generalizing node with
  | nil => rfl
  | cons side path ih =>
    have hchild : (t.withBins thresholdBins zeroBins).child? node side = t.child? node side := by
      cases side <;> rfl
    simp only [follow, hchild, ih]

theorem columnSize_withBins (t : Tree) (thresholdBins zeroBins : Array Int32) (c : Column) :
    (t.withBins thresholdBins zeroBins).columnSize c = t.columnSize c := by
  cases c <;> rfl

theorem WellFormed.withBins {t : Tree} (h : t.WellFormed) {thresholdBins zeroBins : Array Int32}
    (hbins : (thresholdBins.size = 0 ∧ zeroBins.size = 0) ∨
      (thresholdBins.size = t.size ∧ zeroBins.size = t.size)) :
    (t.withBins thresholdBins zeroBins).WellFormed where
  columns := fun c => (t.columnSize_withBins thresholdBins zeroBins c).trans (h.columns c)
  nonempty := h.nonempty
  bins := hbins
  children := fun node side child hc => h.children node side child (by cases side <;> exact hc)
  onePath := fun node hn => by
    simp only [follow_withBins]
    exact h.onePath node hn

theorem WellFormed.clearBins {t : Tree} (h : t.WellFormed) : t.clearBins.WellFormed :=
  h.withBins (Or.inl ⟨rfl, rfl⟩)

theorem nodeBins_split {t : Tree} {table : ThresholdTable} {node : Nat} {b : Int32 × Int32}
    (hl : t.leaf[node]? = some false) (h : t.nodeBins table node = .ok b) :
    ∃ feature threshold, t.feature node = .ok feature ∧ t.threshold node = .ok threshold ∧
      table.thresholdBin feature threshold = .ok (some b.1) ∧
      table.valueBin feature .zero = .ok b.2 := by
  obtain ⟨leaf, hleaf, h⟩ := bind_eq_ok_iff.mp h
  cases (fetch_eq_ok_iff.mpr hl).symm.trans (lift_eq_ok_iff.mp hleaf)
  obtain ⟨feature, hf, h⟩ := bind_eq_ok_iff.mp h
  obtain ⟨threshold, ht, h⟩ := bind_eq_ok_iff.mp h
  obtain ⟨bin?, hbin, h⟩ := bind_eq_ok_iff.mp h
  cases bin? with
  | none => exact absurd h fail_ne_ok
  | some bin =>
    obtain ⟨zero, hz, h⟩ := bind_eq_ok_iff.mp h
    cases h
    exact ⟨feature, threshold, lift_eq_ok_iff.mp hf, lift_eq_ok_iff.mp ht, lift_eq_ok_iff.mp hbin,
      lift_eq_ok_iff.mp hz⟩

/-- Assigning codes changes nothing else. -/
theorem assignBins_ok {t u : Tree} {table : ThresholdTable} (h : t.assignBins table = .ok u) :
    ∃ thresholdBins zeroBins, u = t.withBins thresholdBins zeroBins ∧
      thresholdBins.size = t.size ∧ zeroBins.size = t.size ∧
      (t.leaf.size = t.size → u.CodedBy table) := by
  obtain ⟨bins, hbins, h⟩ := bind_eq_ok_iff.mp h
  cases h
  obtain ⟨hlen, hat⟩ := mapM_eq_ok hbins
  rw [List.length_range] at hlen
  refine ⟨_, _, rfl, by simp [hlen], by simp [hlen], fun hsize => ⟨?_, fun node hl => ?_⟩⟩
  · simp [hasBins, hlen, size]
  · have hl : t.leaf[node]? = some false := hl
    have hn : node < t.size := hsize ▸ (Array.getElem?_eq_some_iff.mp hl).1
    have hb : bins[node]? = some bins[node] := List.getElem?_eq_getElem (by omega)
    obtain ⟨feature, threshold, hf, ht, hbin, hz⟩ :=
      nodeBins_split hl (hat node node _ (by simp [hn]) hb)
    refine ⟨feature, threshold, bins[node].1, bins[node].2, ?_⟩
    exact {
      feature_eq := hf
      threshold_eq := ht
      bin_eq := fetch_eq_ok_iff.mpr (by simp [hb])
      zero_eq := fetch_eq_ok_iff.mpr (by simp [hb])
      ofThreshold := hbin
      ofZero := hz }

end Tree

namespace Forest

theorem codedTrees_ok {f : Forest} {table : ThresholdTable} {trees : List Tree}
    (h : f.codedTrees table = .ok trees) :
    trees.length = f.trees.size ∧ ∀ t ∈ trees, ∃ u ∈ f.trees, u.assignBins table = .ok t := by
  obtain ⟨hlen, hat⟩ := mapM_eq_ok h
  refine ⟨hlen, fun t ht => ?_⟩
  obtain ⟨i, hi⟩ := List.mem_iff_getElem?.mp ht
  have hin := (List.getElem?_eq_some_iff.mp hi).1
  rw [hlen] at hin
  have hu := List.getElem?_eq_getElem hin
  exact ⟨_, Array.mem_toList_iff.mp (List.mem_of_getElem? hu), hat i _ t hu hi⟩

theorem codedTrees_wellFormed {f : Forest} {table : ThresholdTable} {trees : List Tree}
    (hf : ∀ t ∈ f.trees, t.WellFormed) (h : f.codedTrees table = .ok trees) :
    ∀ t ∈ trees, t.WellFormed ∧ t.CodedBy table := by
  intro t ht
  obtain ⟨u, hu, hassign⟩ := (codedTrees_ok h).2 t ht
  obtain ⟨_, _, rfl, hts, hzs, hcodes⟩ := Tree.assignBins_ok hassign
  exact ⟨(hf u hu).withBins (Or.inr ⟨hts, hzs⟩), hcodes (Tree.size_leaf (hf u hu).columns)⟩

/-- The forest with the trees coded by a table. -/
def withCodes (f : Forest) (trees : List Tree) (table : ThresholdTable) : Forest :=
  { f with trees := trees.toArray, table := some table }

/-- A quantization with a table refuses the table, or codes all trees, or clears them all. -/
theorem quantizeWith_cases {f g : Forest} {table : ThresholdTable} {r : Except QuantizeError Unit}
    (h : f.quantizeWith table = .ok (g, r)) :
    (table.featureCount < f.width ∧ g = f ∧
      r = .error (.tableTooSmall table.featureCount f.width)) ∨
    f.width ≤ table.featureCount ∧
      ((∃ trees, f.codedTrees table = .ok trees ∧ g = f.withCodes trees table ∧ r = .ok ()) ∨
        ∃ e, f.codedTrees table = fail e ∧ g = f.clearBins ∧ r = .error e) := by
  unfold quantizeWith at h
  split at h
  next hsmall =>
    cases h
    exact Or.inl ⟨hsmall, rfl, rfl⟩
  next hwidth =>
    have hcov : f.width ≤ table.featureCount := Nat.not_lt.mp hwidth
    obtain ⟨outcome, hsettle, h⟩ := bind_eq_ok_iff.mp h
    cases outcome with
    | ok trees =>
      cases h
      exact Or.inr ⟨hcov, Or.inl ⟨trees, Attempt.settle_eq_ok_ok hsettle, rfl, rfl⟩⟩
    | error e =>
      cases h
      exact Or.inr ⟨hcov, Or.inr ⟨e, Attempt.settle_eq_ok_error hsettle, rfl, rfl⟩⟩

theorem quantize_cases {f g : Forest} {r : Except QuantizeError Unit}
    (h : f.quantize = .ok (g, r)) :
    (∃ e, f.ownTable = fail e ∧ g = f ∧ r = .error e) ∨
      ∃ table, f.ownTable = .ok table ∧ f.quantizeWith table = .ok (g, r) := by
  obtain ⟨outcome, hsettle, h⟩ := bind_eq_ok_iff.mp h
  cases outcome with
  | ok table => exact Or.inr ⟨table, Attempt.settle_eq_ok_ok hsettle, h⟩
  | error e =>
    cases h
    exact Or.inl ⟨e, Attempt.settle_eq_ok_error hsettle, rfl, rfl⟩

/-- A forest that is quantized is coded with its own table. -/
theorem quantizeWith_ownTable {f g : Forest} (h : f.quantize = .ok (g, .ok ())) :
    ∃ table, f.ownTable = .ok table ∧ f.quantizeWith table = .ok (g, .ok ()) := by
  rcases quantize_cases h with ⟨_, _, _, hr⟩ | hown
  · nomatch hr
  · exact hown

theorem quantizeWith_coded {f g : Forest} {table : ThresholdTable}
    (h : f.quantizeWith table = .ok (g, .ok ())) :
    f.width ≤ table.featureCount ∧
      ∃ trees, f.codedTrees table = .ok trees ∧ g = f.withCodes trees table := by
  rcases quantizeWith_cases h with ⟨_, _, hr⟩ | ⟨hcov, ⟨trees, ht, hg, _⟩ | ⟨_, _, _, hr⟩⟩
  · nomatch hr
  · exact ⟨hcov, trees, ht, hg⟩
  · nomatch hr

/-- A successful quantization keeps the forest well formed, and codes every tree. -/
theorem quantizeWith_ok {f g : Forest} {table : ThresholdTable} (h : f.WellFormed)
    (hq : f.quantizeWith table = .ok (g, .ok ())) :
    f.width ≤ table.featureCount ∧ g.table = some table ∧ g.width = f.width ∧ g.WellFormed ∧
      ∀ t ∈ g.trees, t.CodedBy table := by
  obtain ⟨hcov, trees, hcoded, rfl⟩ := quantizeWith_coded hq
  obtain ⟨hlen, hof⟩ := codedTrees_ok hcoded
  have hwell := codedTrees_wellFormed h.trees hcoded
  refine ⟨hcov, rfl, rfl, ?_, fun t ht => (hwell t (List.mem_toArray.mp ht)).2⟩
  exact {
    baseScore := h.baseScore
    groups := by simpa [withCodes, hlen] using h.groups
    inRange := h.inRange
    trees := fun t ht => (hwell t (List.mem_toArray.mp ht)).1
    within := fun t ht => by
      obtain ⟨u, hu, hassign⟩ := hof t (List.mem_toArray.mp ht)
      obtain ⟨_, _, rfl, _, _, _⟩ := Tree.assignBins_ok hassign
      exact h.within u hu }

theorem isQuantized_of_codedBy {f : Forest} {table : ThresholdTable} (htable : f.table = some table)
    (hcoded : ∀ t ∈ f.trees, t.CodedBy table) : f.isQuantized = true := by
  rw [isQuantized, htable, Bool.and_eq_true, Array.all_eq_true']
  exact ⟨rfl, fun t ht => (hcoded t ht).bins⟩

/-- Two staircases, each with a group of its own. -/
def staircases : Forest where
  trees := #[.staircase, .staircase]
  groups := #[1, 0]
  groupCount := 2
  featureCount := 2
  baseScore := #[.zero, ⟨0x3f800000⟩]
  table := none

/-- A table with the thresholds of the staircases, one more, and one feature more. -/
def staircaseTable : ThresholdTable :=
  ⟨#[⟨0x3f000000⟩, ⟨0xbf800000⟩, ⟨0x3f800000⟩, .zero], #[0, 1, 3, 4]⟩

theorem ofParts_staircaseTable :
    ThresholdTable.ofParts staircaseTable.thresholds staircaseTable.offsets =
      .ok staircaseTable := by
  decide +kernel

/-- The staircases with the codes of the table. -/
def codedStaircases : Forest :=
  let coded := Tree.staircase.withBins #[0, 0, 0, 0, 0] #[-1, 0, 1, 0, 0]
  { staircases with trees := #[coded, coded], table := some staircaseTable }

theorem quantizeWith_staircases :
    staircases.quantizeWith staircaseTable = .ok (codedStaircases, .ok ()) := by
  decide +kernel

end Forest

end TreeEnsemble
