import TreeEnsemble.Proofs.Forest.Quantization
import TreeEnsemble.Proofs.Tree.Walk

/-!
Quantization is all or nothing. A table that covers too few features changes nothing, one that lacks
a threshold of a split leaves no code behind, and in every case only the codes and the table of a
forest change. What a successful quantization gives depends on nothing that an earlier one left.
-/

namespace TreeEnsemble

/-- A run that collects results ends at the first element that is bad, if there is one. -/
theorem mapM_first_bad {ε α β : Type} {f : α → Except ε β} {Bad : α → ε → Prop} {xs : List α}
    (h : ∀ x ∈ xs, (∃ b, f x = .ok b) ∧ (∀ e, ¬Bad x e) ∨ ∃ e, f x = .error e ∧ Bad x e) :
    (∃ ys, xs.mapM f = .ok ys) ∧ (∀ x ∈ xs, ∀ e, ¬Bad x e) ∨
      ∃ (i : Nat) (x : α) (e : ε), xs[i]? = some x ∧ Bad x e ∧ xs.mapM f = .error e ∧
        ∀ j < i, ∀ y, xs[j]? = some y → ∀ e, ¬Bad y e := by
  induction xs with
  | nil => exact Or.inl ⟨⟨[], rfl⟩, nofun⟩
  | cons x xs ih =>
    rw [List.mapM_cons]
    obtain ⟨hx, hxs⟩ := List.forall_mem_cons.mp h
    rcases hx with ⟨⟨b, hb⟩, hgood⟩ | ⟨e, he, hbad⟩
    · rcases ih hxs with ⟨⟨ys, hys⟩, hall⟩ | ⟨i, y, e, hi, hbad, he, hbefore⟩
      · left
        refine ⟨⟨b :: ys, ?_⟩, List.forall_mem_cons.mpr ⟨hgood, hall⟩⟩
        simp only [hb, hys, ok_bind, pure_eq_ok]
      · right
        refine ⟨i + 1, y, e, hi, hbad, ?_, fun j hj z hz => ?_⟩
        · simp only [hb, he, ok_bind, error_bind]
        · cases j with
          | zero =>
            cases hz
            exact hgood
          | succ j => exact hbefore j (by omega) z hz
    · right
      refine ⟨0, x, e, rfl, hbad, ?_, fun j hj => by omega⟩
      simp only [he, error_bind]

/-- The same for elements with nodes of their own, of which the first bad one counts. -/
theorem mapM_first_bad_node {ε α β : Type} {f : α → Except ε β} {Bad : α → Nat → ε → Prop}
    {xs : List α}
    (h : ∀ x ∈ xs, (∃ b, f x = .ok b) ∧ (∀ node e, ¬Bad x node e) ∨
      ∃ node e, f x = .error e ∧ Bad x node e ∧ ∀ earlier < node, ∀ e, ¬Bad x earlier e) :
    (∃ ys, xs.mapM f = .ok ys) ∧ (∀ x ∈ xs, ∀ node e, ¬Bad x node e) ∨
      ∃ (i : Nat) (x : α) (node : Nat) (e : ε), xs[i]? = some x ∧ Bad x node e ∧
        xs.mapM f = .error e ∧ (∀ earlier < node, ∀ e, ¬Bad x earlier e) ∧
        ∀ j < i, ∀ y, xs[j]? = some y → ∀ node e, ¬Bad y node e := by
  let First : α → ε → Prop := fun x e =>
    ∃ node, Bad x node e ∧ ∀ earlier < node, ∀ e, ¬Bad x earlier e
  have hfirst : ∀ x ∈ xs, (∃ b, f x = .ok b) ∧ (∀ e, ¬First x e) ∨
      ∃ e, f x = .error e ∧ First x e := by
    intro x hx
    rcases h x hx with ⟨hok, hgood⟩ | ⟨node, e, he, hbad⟩
    · exact Or.inl ⟨hok, fun e ⟨node, hbad, _⟩ => hgood node e hbad⟩
    · exact Or.inr ⟨e, he, node, hbad⟩
  -- without a first bad node there is none
  have hclean : ∀ x ∈ xs, (∀ e, ¬First x e) → ∀ node e, ¬Bad x node e := by
    intro x hx hgood
    rcases h x hx with ⟨_, hall⟩ | ⟨node, e, _, hbad⟩
    · exact hall
    · exact absurd ⟨node, hbad⟩ (hgood e)
  rcases mapM_first_bad hfirst with
    ⟨hok, hgood⟩ | ⟨i, x, e, hi, ⟨node, hbad, hearlier⟩, he, hbefore⟩
  · exact Or.inl ⟨hok, fun x hx => hclean x hx (hgood x hx)⟩
  · refine Or.inr ⟨i, x, node, e, hi, hbad, he, hearlier, fun j hj y hy => ?_⟩
    exact hclean y (List.mem_of_getElem? hy) (hbefore j hj y hy)

/-- Of two places that come first, by trees and in a tree by nodes, neither is before the other. -/
theorem first_place_unique {P : Nat → Nat → Prop} {place place' node node' : Nat}
    (h : P place node)
    (hfirst : ∀ p n, p < place ∨ p = place ∧ n < node → ¬P p n) (h' : P place' node')
    (hfirst' : ∀ p n, p < place' ∨ p = place' ∧ n < node' → ¬P p n) :
    place' = place ∧ node' = node := by
  by_contra hne
  rcases (by omega : (place' < place ∨ place' = place ∧ node' < node) ∨
    (place < place' ∨ place = place' ∧ node < node')) with hlt | hlt
  · exact hfirst place' node' hlt h'
  · exact hfirst' place node hlt h

theorem exists_error_of_mapM {ε α β : Type} {f : α → Except ε β} {xs : List α} {e : ε}
    (h : xs.mapM f = .error e) : ∃ x ∈ xs, f x = .error e := by
  induction xs with
  | nil => nomatch h
  | cons x xs ih =>
    rw [List.mapM_cons] at h
    rcases bind_eq_error_iff.mp h with h | ⟨_, _, h⟩
    · exact ⟨x, List.mem_cons_self, h⟩
    rcases bind_eq_error_iff.mp h with h | ⟨_, _, h⟩
    · obtain ⟨y, hy, he⟩ := ih h
      exact ⟨y, List.mem_cons_of_mem x hy, he⟩
    · nomatch h

namespace ThresholdTable

/-- A feature has a threshold that equals a number. -/
def Lists (t : ThresholdTable) (feature : Nat) (x : Binary32) : Prop :=
  ∃ xs, t.thresholdsOf feature = .ok xs ∧ ∃ y ∈ xs, y.eqv x = true

theorem thresholdBin_cases {t : ThresholdTable} (h : t.WellFormed) (feature : Nat) (x : Binary32) :
    (t.Lists feature x ∧ ∃ bin, t.thresholdBin feature x = .ok (some bin)) ∨
      ¬t.Lists feature x ∧ t.thresholdBin feature x = .ok none := by
  obtain ⟨xs, hxs, _⟩ := h.thresholdsOf_ok feature
  have hbin := thresholdBin_eq h hxs x
  by_cases hany : xs.any (·.eqv x) = true
  · rw [if_pos hany] at hbin
    exact Or.inl ⟨⟨xs, hxs, List.any_eq_true.mp hany⟩, _, hbin⟩
  · rw [if_neg hany] at hbin
    refine Or.inr ⟨?_, hbin⟩
    rintro ⟨ys, hys, hlisted⟩
    cases Except.ok.inj (hxs.symm.trans hys)
    exact hany (List.any_eq_true.mpr hlisted)

end ThresholdTable

namespace Tree

/-- A split has a threshold that a table does not list for its feature. -/
def Unlisted (t : Tree) (table : ThresholdTable) (node feature : Nat) (x : Binary32) : Prop :=
  t.leaf[node]? = some false ∧ t.feature node = .ok feature ∧ t.threshold node = .ok x ∧
    ¬table.Lists feature x

theorem nodeBins_cases {t : Tree} {table : ThresholdTable}
    (columns : ∀ c, t.columnSize c = t.size) (ht : table.WellFormed) {node : Nat}
    (hn : node < t.size) :
    (∃ b, t.nodeBins table node = .ok b) ∧ (∀ feature x, ¬t.Unlisted table node feature x) ∨
      ∃ feature x, t.nodeBins table node = fail (.thresholdNotInTable feature x) ∧
        t.Unlisted table node feature x := by
  rcases leaf_or_split columns hn with hl | ⟨hl, _⟩
  · left
    refine ⟨⟨(0, 0), ?_⟩, fun feature x h => ?_⟩
    · simp only [nodeBins, isLeaf, fetch_eq_ok_iff.mpr hl, lift_ok, ok_bind, if_true, pure_eq_ok]
    · cases hl.symm.trans h.1
  · obtain ⟨feature, hf⟩ := t.feature_ok hn
    obtain ⟨x, hx⟩ : ∃ x, t.threshold node = .ok x := fetch_column (columns .thresholds) hn
    have hsplit : t.isLeaf node = .ok false := fetch_eq_ok_iff.mpr hl
    rcases table.thresholdBin_cases ht feature x with ⟨hlists, bin, hbin⟩ | ⟨hnot, hbin⟩
    · left
      obtain ⟨zero, hzero⟩ := ht.valueBin_ok feature .zero
      refine ⟨⟨(bin, zero), ?_⟩, fun feature' x' h => ?_⟩
      · simp only [nodeBins, hsplit, hf, hx, hbin, hzero, lift_ok, ok_bind, pure_eq_ok]
        rfl
      · cases Except.ok.inj (hf.symm.trans h.2.1)
        cases Except.ok.inj (hx.symm.trans h.2.2.1)
        exact h.2.2.2 hlists
    · right
      refine ⟨feature, x, ?_, hl, hf, hx, hnot⟩
      simp only [nodeBins, hsplit, hf, hx, hbin, lift_ok, ok_bind]
      rfl

/-- Codes are assigned unless a split is not listed; then the first such split is reported. -/
theorem assignBins_cases {t : Tree} {table : ThresholdTable}
    (columns : ∀ c, t.columnSize c = t.size) (ht : table.WellFormed) :
    (∃ u, t.assignBins table = .ok u) ∧ (∀ node feature x, ¬t.Unlisted table node feature x) ∨
      ∃ node feature x, t.assignBins table = fail (.thresholdNotInTable feature x) ∧
        t.Unlisted table node feature x ∧
        ∀ earlier < node, ∀ feature x, ¬t.Unlisted table earlier feature x := by
  let Bad : Nat → Failure QuantizeError → Prop := fun node e =>
    ∃ feature x, e = .error (.thresholdNotInTable feature x) ∧ t.Unlisted table node feature x
  have hin : ∀ {node feature x}, t.Unlisted table node feature x → node < t.size := by
    intro node feature x h
    rw [← size_leaf columns]
    exact (Array.getElem?_eq_some_iff.mp h.1).1
  have hnode : ∀ node ∈ List.range t.size,
      (∃ b, t.nodeBins table node = .ok b) ∧ (∀ e, ¬Bad node e) ∨
        ∃ e, t.nodeBins table node = .error e ∧ Bad node e := by
    intro node hn
    rcases nodeBins_cases columns ht (List.mem_range.mp hn) with ⟨hok, hgood⟩ | ⟨f, x, he, hbad⟩
    · exact Or.inl ⟨hok, fun e ⟨feature, x, _, h⟩ => hgood feature x h⟩
    · exact Or.inr ⟨_, he, f, x, rfl, hbad⟩
  rcases mapM_first_bad hnode with ⟨⟨bins, hbins⟩, hgood⟩ | ⟨i, node, e, hi, hbad, he, hbefore⟩
  · left
    refine ⟨⟨_, bind_eq_ok_iff.mpr ⟨bins, hbins, rfl⟩⟩, fun node feature x h => ?_⟩
    exact hgood node (List.mem_range.mpr (hin h)) _ ⟨feature, x, rfl, h⟩
  · right
    obtain ⟨feature, x, rfl, hbad⟩ := hbad
    have hplace : i = node := by
      have := List.getElem?_eq_some_iff.mp hi
      simpa using this.2
    refine ⟨node, feature, x, ?_, hbad, fun earlier hlt feature' x' h => ?_⟩
    · simp only [assignBins, he, error_bind]
      rfl
    · exact hbefore earlier (hplace ▸ hlt) earlier (by simp [hin h]) _ ⟨feature', x', rfl, h⟩

/-- The one error of coding a node is a threshold that is not listed. -/
theorem nodeBins_error {t : Tree} {table : ThresholdTable} {node : Nat} {e : QuantizeError}
    (h : t.nodeBins table node = fail e) : ∃ feature x, e = .thresholdNotInTable feature x := by
  rcases bind_eq_error_iff.mp h with h | ⟨leaf, _, h⟩
  · exact absurd h lift_ne_fail
  cases leaf with
  | true => cases h
  | false =>
    rcases bind_eq_error_iff.mp h with h | ⟨feature, _, h⟩
    · exact absurd h lift_ne_fail
    rcases bind_eq_error_iff.mp h with h | ⟨x, _, h⟩
    · exact absurd h lift_ne_fail
    rcases bind_eq_error_iff.mp h with h | ⟨bin?, _, h⟩
    · exact absurd h lift_ne_fail
    cases bin? with
    | none =>
      cases h
      exact ⟨feature, x, rfl⟩
    | some bin =>
      rcases bind_eq_error_iff.mp h with h | ⟨_, _, h⟩
      · exact absurd h lift_ne_fail
      · cases h

theorem clearBins_of_assignBins {t u : Tree} {table : ThresholdTable}
    (h : t.assignBins table = .ok u) : u.clearBins = t.clearBins := by
  obtain ⟨thresholdBins, zeroBins, rfl, _⟩ := assignBins_ok h
  rfl

end Tree

namespace Forest

/-- A split of a tree of the forest has a threshold that a table does not list. -/
def Unlisted (f : Forest) (table : ThresholdTable) (place node feature : Nat) (x : Binary32) :
    Prop :=
  ∃ t, f.trees[place]? = some t ∧ t.Unlisted table node feature x

/-- The first such split, by trees and in a tree by nodes. -/
def FirstUnlisted (f : Forest) (table : ThresholdTable) (place node feature : Nat) (x : Binary32) :
    Prop :=
  f.Unlisted table place node feature x ∧
    ∀ place' node', place' < place ∨ place' = place ∧ node' < node →
      ∀ feature' x', ¬f.Unlisted table place' node' feature' x'

theorem Unlisted.unique {f : Forest} {table : ThresholdTable} {place node feature feature' : Nat}
    {x x' : Binary32} (h : f.Unlisted table place node feature x)
    (h' : f.Unlisted table place node feature' x') : feature = feature' ∧ x = x' := by
  obtain ⟨t, ht, _, hf, hx, _⟩ := h
  obtain ⟨t', ht', _, hf', hx', _⟩ := h'
  cases Option.some.inj (ht.symm.trans ht')
  exact ⟨Except.ok.inj (hf.symm.trans hf'), Except.ok.inj (hx.symm.trans hx')⟩

theorem FirstUnlisted.unique {f : Forest} {table : ThresholdTable}
    {place place' node node' feature feature' : Nat} {x x' : Binary32}
    (h : f.FirstUnlisted table place node feature x)
    (h' : f.FirstUnlisted table place' node' feature' x') : feature = feature' ∧ x = x' := by
  have hsame := first_place_unique (P := fun place node =>
    ∃ feature x, f.Unlisted table place node feature x) ⟨_, _, h.1⟩
    (fun p n hlt ⟨feature, x, hbad⟩ => h.2 p n hlt feature x hbad) ⟨_, _, h'.1⟩
    (fun p n hlt ⟨feature, x, hbad⟩ => h'.2 p n hlt feature x hbad)
  obtain ⟨rfl, rfl⟩ := hsame
  exact h.1.unique h'.1

theorem codedTrees_cases {f : Forest} {table : ThresholdTable} (hf : ∀ t ∈ f.trees, t.WellFormed)
    (ht : table.WellFormed) :
    (∃ trees, f.codedTrees table = .ok trees) ∧
        (∀ place node feature x, ¬f.Unlisted table place node feature x) ∨
      ∃ place node feature x, f.codedTrees table = fail (.thresholdNotInTable feature x) ∧
        f.FirstUnlisted table place node feature x := by
  let Bad : Tree → Nat → Failure QuantizeError → Prop := fun t node e =>
    ∃ feature x, e = .error (.thresholdNotInTable feature x) ∧ t.Unlisted table node feature x
  have htree : ∀ t ∈ f.trees.toList,
      (∃ u, t.assignBins table = .ok u) ∧ (∀ node e, ¬Bad t node e) ∨
        ∃ node e, t.assignBins table = .error e ∧ Bad t node e ∧
          ∀ earlier < node, ∀ e, ¬Bad t earlier e := by
    intro t hmem
    have columns := (hf t (Array.mem_toList_iff.mp hmem)).columns
    rcases Tree.assignBins_cases columns ht with
      ⟨hok, hgood⟩ | ⟨node, feature, x, he, hbad, hearlier⟩
    · exact Or.inl ⟨hok, fun node _ ⟨feature, x, _, h⟩ => hgood node feature x h⟩
    · refine Or.inr ⟨node, _, he, ⟨feature, x, rfl, hbad⟩, fun earlier hlt _ h => ?_⟩
      obtain ⟨feature', x', _, h⟩ := h
      exact hearlier earlier hlt feature' x' h
  rcases mapM_first_bad_node htree with
    ⟨hok, hgood⟩ | ⟨place, t, node, e, hplace, hbad, he, hearlier, hbefore⟩
  · refine Or.inl ⟨hok, fun place node feature x ⟨t, hplace, h⟩ => ?_⟩
    have hmem := List.mem_of_getElem? (Array.getElem?_toList.trans hplace)
    exact hgood t hmem node _ ⟨feature, x, rfl, h⟩
  · obtain ⟨feature, x, rfl, hbad⟩ := hbad
    rw [Array.getElem?_toList] at hplace
    refine Or.inr ⟨place, node, feature, x, he, ⟨t, hplace, hbad⟩, ?_⟩
    intro place' node' hlt feature' x' ⟨t', hplace', h⟩
    rcases hlt with hlt | ⟨rfl, hlt⟩
    · have ht' := Array.getElem?_toList.trans hplace'
      exact hbefore place' hlt t' ht' node' _ ⟨feature', x', rfl, h⟩
    · cases Option.some.inj (hplace.symm.trans hplace')
      exact hearlier node' hlt _ ⟨feature', x', rfl, h⟩

theorem clearBins_clearBins (f : Forest) : f.clearBins.clearBins = f.clearBins := by
  simp [clearBins, Tree.clearBins]

/-- Forests that differ in their tables and codes only. -/
theorem eq_of_clearBins {f g : Forest} (h : g.clearBins = f.clearBins) :
    g.width = f.width ∧ g.groupCount = f.groupCount ∧ g.baseScore = f.baseScore := by
  have hwidth : g.clearBins.width = f.clearBins.width := by rw [h]
  have hcount : g.clearBins.groupCount = f.clearBins.groupCount := by rw [h]
  have hbase : g.clearBins.baseScore = f.clearBins.baseScore := by rw [h]
  exact ⟨hwidth, hcount, hbase⟩

theorem clearBins_withCodes {f : Forest} {table : ThresholdTable} {trees : List Tree}
    (h : f.codedTrees table = .ok trees) : (f.withCodes trees table).clearBins = f.clearBins := by
  obtain ⟨hlen, hat⟩ := mapM_eq_ok h
  have htrees : trees.map Tree.clearBins = f.trees.toList.map Tree.clearBins := by
    refine List.ext_getElem (by simpa using hlen) fun i hi hi' => ?_
    have hin : i < trees.length := by simpa using hi
    have hin' : i < f.trees.toList.length := by simpa using hi'
    simp only [List.getElem_map]
    exact Tree.clearBins_of_assignBins
      (hat i _ _ (List.getElem?_eq_getElem hin') (List.getElem?_eq_getElem hin))
  have harray : trees.toArray.map Tree.clearBins = f.trees.map Tree.clearBins := by
    rw [List.map_toArray, htrees, ← Array.toList_map, Array.toArray_toList]
  simp only [clearBins, withCodes, harray]

/-- Whatever the outcome, a quantization changes nothing but the table and the codes. -/
theorem clearBins_quantizeWith {f g : Forest} {table : ThresholdTable}
    {r : Except QuantizeError Unit} (h : f.quantizeWith table = .ok (g, r)) :
    g.clearBins = f.clearBins := by
  rcases quantizeWith_cases h with ⟨_, rfl, _⟩ | ⟨_, ⟨trees, ht, rfl, _⟩ | ⟨_, _, rfl, _⟩⟩
  · rfl
  · exact clearBins_withCodes ht
  · exact clearBins_clearBins f

theorem clearBins_quantize {f g : Forest} {r : Except QuantizeError Unit}
    (h : f.quantize = .ok (g, r)) : g.clearBins = f.clearBins := by
  rcases quantize_cases h with ⟨_, _, rfl, _⟩ | ⟨_, _, hq⟩
  · rfl
  · exact clearBins_quantizeWith hq

theorem codedTrees_clearBins (f : Forest) (table : ThresholdTable) :
    f.clearBins.codedTrees table = f.codedTrees table := by
  simp only [codedTrees, clearBins, Array.toList_map, List.mapM_map]
  rfl

theorem ownTable_clearBins (f : Forest) : f.clearBins.ownTable = f.ownTable := by
  have hsplits : f.clearBins.splits = f.splits := by
    simp only [splits, clearBins, Array.toList_map, List.zipIdx_map, List.mapM_map]
    rfl
  simp only [ownTable, hsplits]
  rfl

theorem quantizeWith_ok_iff {f g : Forest} {table : ThresholdTable} :
    f.quantizeWith table = .ok (g, .ok ()) ↔ f.width ≤ table.featureCount ∧
      ∃ trees, f.codedTrees table = .ok trees ∧ g = f.withCodes trees table := by
  refine ⟨quantizeWith_coded, ?_⟩
  rintro ⟨hcov, trees, htrees, rfl⟩
  simp only [quantizeWith, if_neg (Nat.not_lt.mpr hcov), htrees]
  rfl

/-- A successful quantization does not look at the codes that were there. -/
theorem quantizeWith_ok_congr {f f' g : Forest} {table : ThresholdTable}
    (hsame : f'.clearBins = f.clearBins) (h : f.quantizeWith table = .ok (g, .ok ())) :
    f'.quantizeWith table = .ok (g, .ok ()) := by
  obtain ⟨hcov, trees, htrees, rfl⟩ := quantizeWith_coded h
  obtain ⟨hwidth, _⟩ := eq_of_clearBins hsame
  have htrees' : f'.codedTrees table = .ok trees := by
    rw [← codedTrees_clearBins, hsame, codedTrees_clearBins, htrees]
  have hcodes : f'.withCodes trees table = f.withCodes trees table :=
    show f'.clearBins.withCodes trees table = f.clearBins.withCodes trees table from hsame ▸ rfl
  exact quantizeWith_ok_iff.mpr ⟨hwidth ▸ hcov, trees, htrees', hcodes.symm⟩

theorem quantize_ok_congr {f f' g : Forest} (hsame : f'.clearBins = f.clearBins)
    (h : f.quantize = .ok (g, .ok ())) : f'.quantize = .ok (g, .ok ()) := by
  obtain ⟨table, hown, hq⟩ := quantizeWith_ownTable h
  have hown' : f'.ownTable = .ok table := by
    rw [← ownTable_clearBins, hsame, ownTable_clearBins, hown]
  simp only [quantize, hown']
  exact quantizeWith_ok_congr hsame hq

/-- A partitioned table is refused, or codes every split, or lacks the threshold of a first one. -/
theorem quantizeWith_outcome {f : Forest} {table : ThresholdTable}
    (hf : ∀ t ∈ f.trees, t.WellFormed) (ht : table.WellFormed) :
    (table.featureCount < f.width ∧
      f.quantizeWith table = .ok (f, .error (.tableTooSmall table.featureCount f.width))) ∨
    f.width ≤ table.featureCount ∧
      ((∃ trees, f.quantizeWith table = .ok (f.withCodes trees table, .ok ())) ∧
          (∀ place node feature x, ¬f.Unlisted table place node feature x) ∨
        ∃ place node feature x,
          f.quantizeWith table = .ok (f.clearBins, .error (.thresholdNotInTable feature x)) ∧
          f.FirstUnlisted table place node feature x) := by
  by_cases hsmall : table.featureCount < f.width
  · exact Or.inl ⟨hsmall, if_pos hsmall⟩
  · refine Or.inr ⟨Nat.not_lt.mp hsmall, ?_⟩
    rcases codedTrees_cases hf ht with ⟨⟨trees, htrees⟩, hall⟩ | ⟨place, node, feature, x, he, h⟩
    · exact Or.inl ⟨⟨trees, quantizeWith_ok_iff.mpr ⟨Nat.not_lt.mp hsmall, trees, htrees, rfl⟩⟩, hall⟩
    · refine Or.inr ⟨place, node, feature, x, ?_, h⟩
      simp only [quantizeWith, if_neg hsmall, he]
      rfl

theorem no_codes_clearBins (f : Forest) :
    f.clearBins.table = none ∧
      ∀ t ∈ f.clearBins.trees, t.thresholdBins = #[] ∧ t.zeroBins = #[] := by
  refine ⟨rfl, fun t ht => ?_⟩
  obtain ⟨u, _, rfl⟩ := Array.mem_map.mp ht
  exact ⟨rfl, rfl⟩

theorem codedTrees_error {f : Forest} {table : ThresholdTable} {e : QuantizeError}
    (h : f.codedTrees table = fail e) : ∃ feature x, e = .thresholdNotInTable feature x := by
  obtain ⟨t, _, ht⟩ := exists_error_of_mapM h
  rcases bind_eq_error_iff.mp ht with hbins | ⟨_, _, hok⟩
  · obtain ⟨node, _, hnode⟩ := exists_error_of_mapM hbins
    exact Tree.nodeBins_error hnode
  · nomatch hok

theorem quantize_error_unchanged {f g : Forest} {e : QuantizeError}
    (h : f.quantize = .ok (g, .error e))
    (he : (∃ place node, e = .nanThreshold place node) ∨
      ∃ place node feature width, e = .featureOutOfRange place node feature width) : g = f := by
  rcases quantize_cases h with ⟨_, _, hg, _⟩ | ⟨table, _, hq⟩
  · exact hg
  rcases quantizeWith_cases hq with ⟨_, hg, _⟩ | ⟨_, ⟨_, _, _, hr⟩ | ⟨e', hcoded, _, hr⟩⟩
  · exact hg
  · nomatch hr
  · obtain ⟨feature, x, rfl⟩ := codedTrees_error hcoded
    cases hr
    rcases he with ⟨_, _, he⟩ | ⟨_, _, _, _, he⟩ <;> nomatch he

theorem splitOf_ne_fault {t : Tree} (columns : ∀ c, t.columnSize c = t.size) (place bound : Nat)
    {node : Nat} (hn : node < t.size) (fault : Fault) :
    splitOf t place bound node ≠ .error (.fault fault) := by
  rcases Tree.leaf_or_split columns hn with hl | ⟨hl, _⟩
  · simp only [splitOf, Tree.isLeaf, fetch_eq_ok_iff.mpr hl, lift_ok, ok_bind, if_true]
    intro h
    cases h
  · obtain ⟨feature, hf⟩ := t.feature_ok hn
    obtain ⟨x, hx⟩ : ∃ x, t.threshold node = .ok x := Tree.fetch_column (columns .thresholds) hn
    simp only [splitOf, Tree.isLeaf, fetch_eq_ok_iff.mpr hl, hf, hx, lift_ok, ok_bind,
      Bool.false_eq_true, if_false]
    intro h
    split at h
    next => cases h
    next => split at h <;> cases h

theorem ownTable_ne_fault {f : Forest} (hf : ∀ t ∈ f.trees, t.WellFormed) (fault : Fault) :
    f.ownTable ≠ .error (.fault fault) := by
  intro h
  rcases bind_eq_error_iff.mp h with h | ⟨splits, _, h⟩
  · rcases bind_eq_error_iff.mp h with h | ⟨_, _, h⟩
    · obtain ⟨t, ht, h⟩ := exists_error_of_mapM h
      rcases bind_eq_error_iff.mp h with h | ⟨_, _, h⟩
      · obtain ⟨node, hn, h⟩ := exists_error_of_mapM h
        have hmem := Array.mem_toList_iff.mp (List.fst_mem_of_mem_zipIdx ht)
        exact splitOf_ne_fault (hf t.1 hmem).columns t.2 f.width (List.mem_range.mp hn) fault h
      · nomatch h
    · nomatch h
  · dsimp only at h
    split at h <;> nomatch h

/-- A forest either finds its own table and is coded with that, or stays as it was. -/
theorem quantize_eq {f : Forest} (hf : ∀ t ∈ f.trees, t.WellFormed) :
    (∃ e, f.quantize = .ok (f, .error e)) ∨
      ∃ table, f.ownTable = .ok table ∧ f.quantize = f.quantizeWith table := by
  unfold quantize
  cases hown : f.ownTable with
  | ok table => exact Or.inr ⟨table, rfl, rfl⟩
  | error e =>
    cases e with
    | fault fault => exact absurd hown (ownTable_ne_fault hf fault)
    | error e => exact Or.inl ⟨e, rfl⟩

/-- Each exit of a quantization and the forest that it leaves, with any table. -/
theorem quantizeWith_exits {f g : Forest} {table : ThresholdTable} {r : Except QuantizeError Unit}
    (h : f.quantizeWith table = .ok (g, r)) :
    (r = .error (.tableTooSmall table.featureCount f.width) ↔ table.featureCount < f.width) ∧
      (table.featureCount < f.width → g = f) ∧
      ∀ feature x, r = .error (.thresholdNotInTable feature x) →
        g.table = none ∧ ∀ t ∈ g.trees, t.thresholdBins = #[] ∧ t.zeroBins = #[] := by
  rcases quantizeWith_cases h with
    ⟨hsmall, rfl, rfl⟩ | ⟨hcov, ⟨_, _, _, rfl⟩ | ⟨e, hcoded, rfl, rfl⟩⟩
  · exact ⟨iff_of_true rfl hsmall, fun _ => rfl, nofun⟩
  · exact ⟨iff_of_false nofun (Nat.not_lt.mpr hcov), fun _ => by omega, nofun⟩
  · obtain ⟨feature, x, rfl⟩ := codedTrees_error hcoded
    exact ⟨iff_of_false nofun (Nat.not_lt.mpr hcov), fun _ => by omega,
      fun _ _ _ => no_codes_clearBins f⟩

/-- Quantization is all or nothing. With any table it changes only the codes and the table of a
forest, leaves everything as it was if the table covers too few features, and leaves no code and no
table if a threshold is not in the table. With a partitioned table it has an answer, fails on a
threshold exactly if some split is not listed, and reports the first one. A forest that finds no
table of its own stays as it was. A success does not depend on the codes and the table before. -/
theorem quantization_all_or_nothing {f : Forest} (hf : ∀ t ∈ f.trees, t.validate = .ok ()) :
    (∀ table g r, f.quantizeWith table = .ok (g, r) →
      g.clearBins = f.clearBins ∧
      (r = .error (.tableTooSmall table.featureCount f.width) ↔ table.featureCount < f.width) ∧
      (table.featureCount < f.width → g = f) ∧
      ∀ feature x, r = .error (.thresholdNotInTable feature x) →
        g.table = none ∧ ∀ t ∈ g.trees, t.thresholdBins = #[] ∧ t.zeroBins = #[]) ∧
    (∀ table : ThresholdTable, table.Partitioned → ∃ g r, f.quantizeWith table = .ok (g, r) ∧
      (f.width ≤ table.featureCount →
        ((∃ feature x, r = .error (.thresholdNotInTable feature x)) ↔
          ∃ place node feature x, f.Unlisted table place node feature x)) ∧
      (∀ feature x, r = .error (.thresholdNotInTable feature x) →
        ∃ place node, f.FirstUnlisted table place node feature x) ∧
      (r = .ok () ↔ f.width ≤ table.featureCount ∧
        ∀ place node feature x, ¬f.Unlisted table place node feature x)) ∧
    ((∃ e, f.quantize = .ok (f, .error e)) ∨
      ∃ table, f.ownTable = .ok table ∧ f.quantize = f.quantizeWith table) ∧
    (∀ g r, f.quantize = .ok (g, r) → g.clearBins = f.clearBins ∧
      ((∃ place node, r = .error (.nanThreshold place node)) ∨
        (∃ place node feature width, r = .error (.featureOutOfRange place node feature width)) →
        g = f)) ∧
    ∀ f' g : Forest, f'.clearBins = f.clearBins →
      (f.quantize = .ok (g, .ok ()) → f'.quantize = .ok (g, .ok ())) ∧
      ∀ table, f.quantizeWith table = .ok (g, .ok ()) → f'.quantizeWith table = .ok (g, .ok ()) := by
  have hwell : ∀ t ∈ f.trees, t.WellFormed := fun t ht => Tree.wellFormed_of_validate (hf t ht)
  refine ⟨fun table g r h => ⟨clearBins_quantizeWith h, quantizeWith_exits h⟩, ?_,
    quantize_eq hwell, fun g r h => ⟨clearBins_quantize h, ?_⟩,
    fun f' g hsame => ⟨quantize_ok_congr hsame, fun table => quantizeWith_ok_congr hsame⟩⟩
  · intro table ht
    have htable := ThresholdTable.wellFormed_iff_partitioned.mpr ht
    rcases quantizeWith_outcome hwell htable with
      ⟨hsmall, hq⟩ | ⟨hcov, ⟨⟨trees, hq⟩, hall⟩ | ⟨place, node, feature, x, hq, hfirst⟩⟩
    · refine ⟨_, _, hq, fun h => by omega, nofun, nofun, fun h => by omega⟩
    · refine ⟨_, _, hq, fun _ => ⟨nofun, ?_⟩, nofun, fun _ => ⟨hcov, hall⟩, fun _ => rfl⟩
      rintro ⟨place, node, feature, x, h⟩
      exact absurd h (hall place node feature x)
    · refine ⟨_, _, hq, fun _ => ⟨fun _ => ?_, fun _ => ⟨feature, x, rfl⟩⟩, ?_, nofun, ?_⟩
      · exact ⟨place, node, feature, x, hfirst.1⟩
      · intro feature' x' h
        cases h
        exact ⟨place, node, hfirst⟩
      · rintro ⟨_, hall⟩
        exact absurd hfirst.1 (hall place node feature x)
  · rintro (⟨place, node, rfl⟩ | ⟨place, node, feature, width, rfl⟩)
    · exact quantize_error_unchanged h (Or.inl ⟨place, node, rfl⟩)
    · exact quantize_error_unchanged h (Or.inr ⟨place, node, feature, width, rfl⟩)

/-- A table that lacks the second threshold of the staircases. -/
def poorTable : ThresholdTable := ⟨#[⟨0x3f000000⟩], #[0, 1, 1]⟩

/-- Coded staircases lose all codes to a table that lacks a threshold, which is the first one that
it lacks. With the table that they have codes from, they are coded as if they had none. -/
theorem quantization_of_codedStaircases :
    codedStaircases.quantizeWith poorTable =
        .ok (staircases, .error (.thresholdNotInTable 1 ⟨0xbf800000⟩)) ∧
      (∃ place node, codedStaircases.FirstUnlisted poorTable place node 1 ⟨0xbf800000⟩) ∧
      codedStaircases.quantizeWith staircaseTable = .ok (codedStaircases, .ok ()) := by
  have hrun : codedStaircases.quantizeWith poorTable =
      .ok (staircases, .error (.thresholdNotInTable 1 ⟨0xbf800000⟩)) := by decide +kernel
  have hparts : ThresholdTable.ofParts #[⟨0x3f000000⟩] #[0, 1, 1] = .ok poorTable := by
    decide +kernel
  have hpoor := ThresholdTable.wellFormed_iff_partitioned.mp (ThresholdTable.ofParts_ok hparts).2
  have hsame : codedStaircases.clearBins = staircases.clearBins := by decide +kernel
  obtain ⟨_, hanswer, _, _, _⟩ :=
    quantization_all_or_nothing (f := codedStaircases) (by decide +kernel)
  obtain ⟨_, _, _, _, hagain⟩ :=
    quantization_all_or_nothing (f := staircases) (by decide +kernel)
  obtain ⟨g, r, hq, _, hfirst, _⟩ := hanswer poorTable hpoor
  cases Except.ok.inj (hq.symm.trans hrun)
  exact ⟨hrun, hfirst _ _ rfl,
    (hagain codedStaircases codedStaircases hsame).2 staircaseTable quantizeWith_staircases⟩

end Forest

end TreeEnsemble
