import TreeEnsemble.Proofs.Forest.Rollback

/-!
The splits that a forest collects for its own table. Collecting stops at the first split that has a
NaN for a threshold or a feature out of range; if there is none, every split is collected, and
nothing else. What leaves have in the columns of splits is never looked at.
-/

namespace TreeEnsemble

/-- Runs over lists of one length agree if they agree place by place. -/
theorem mapM_congr_at {ε α β γ : Type} {f : α → Except ε γ} {g : β → Except ε γ} {xs : List α}
    {ys : List β} (hlen : xs.length = ys.length)
    (h : ∀ (i : Nat) x y, xs[i]? = some x → ys[i]? = some y → f x = g y) :
    xs.mapM f = ys.mapM g := by
  induction xs generalizing ys with
  | nil =>
    cases ys with
    | nil => rfl
    | cons y ys => simp at hlen
  | cons x xs ih =>
    cases ys with
    | nil => simp at hlen
    | cons y ys =>
      have hfirst := h 0 x y rfl rfl
      have hrest := ih (by simpa using hlen) fun i x' y' hx hy => h (i + 1) x' y' hx hy
      rw [List.mapM_cons, List.mapM_cons, hfirst, hrest]

theorem mapM_eq_ok_of_at {ε α β : Type} {f : α → Except ε β} {xs : List α} {ys : List β}
    (hlen : xs.length = ys.length)
    (h : ∀ (i : Nat) x y, xs[i]? = some x → ys[i]? = some y → f x = .ok y) :
    xs.mapM f = .ok ys := by
  have hgiven : ys.mapM (fun y => (pure (id y) : Except ε β)) = .ok ys := by
    rw [List.mapM_pure, List.map_id, pure_eq_ok]
  exact (mapM_congr_at hlen h).trans hgiven

namespace Tree

/-- A node is a split on a feature, with a threshold. -/
def SplitAt (t : Tree) (node feature : Nat) (x : Binary32) : Prop :=
  t.leaf[node]? = some false ∧ t.feature node = .ok feature ∧ t.threshold node = .ok x

def splitCount (t : Tree) : Nat := t.leaf.toList.countP (!·)

/-- A split that cannot be collected, and the error for it. A NaN is reported first. -/
def Offends (t : Tree) (place bound node : Nat) (e : QuantizeError) : Prop :=
  ∃ feature x, t.SplitAt node feature x ∧
    (x.isNaN = true ∧ e = .nanThreshold place node ∨
      x.isNaN = false ∧ bound ≤ feature ∧ e = .featureOutOfRange place node feature bound)

/-- Trees with the same splits in the same places. Leaves may differ in the columns of splits. -/
structure SameSplits (t u : Tree) : Prop where
  size : u.size = t.size
  leaf : u.leaf = t.leaf
  feature : ∀ node : Nat, t.leaf[node]? = some false → u.features[node]? = t.features[node]?
  threshold : ∀ node : Nat, t.leaf[node]? = some false → u.thresholds[node]? = t.thresholds[node]?

theorem SplitAt.unique {t : Tree} {node feature feature' : Nat} {x x' : Binary32}
    (h : t.SplitAt node feature x) (h' : t.SplitAt node feature' x') :
    feature = feature' ∧ x = x' :=
  ⟨Except.ok.inj (h.2.1.symm.trans h'.2.1), Except.ok.inj (h.2.2.symm.trans h'.2.2)⟩

theorem SplitAt.lt_size {t : Tree} (columns : ∀ c, t.columnSize c = t.size) {node feature : Nat}
    {x : Binary32} (h : t.SplitAt node feature x) : node < t.size := by
  rw [← size_leaf columns]
  exact (Array.getElem?_eq_some_iff.mp h.1).1

theorem leaf_or_splitAt {t : Tree} (columns : ∀ c, t.columnSize c = t.size) {node : Nat}
    (hn : node < t.size) :
    t.leaf[node]? = some true ∨ ∃ feature x, t.SplitAt node feature x := by
  rcases leaf_or_split columns hn with hl | ⟨hl, _⟩
  · exact Or.inl hl
  · obtain ⟨feature, hf⟩ := t.feature_ok hn
    obtain ⟨x, hx⟩ : ∃ x, t.threshold node = .ok x := fetch_column (columns .thresholds) hn
    exact Or.inr ⟨feature, x, hl, hf, hx⟩

theorem SameSplits.feature_eq {t u : Tree} (h : t.SameSplits u) {node : Nat}
    (hl : t.leaf[node]? = some false) : u.feature node = t.feature node := by
  simp only [Tree.feature, fetch, h.feature node hl]

theorem SameSplits.threshold_eq {t u : Tree} (h : t.SameSplits u) {node : Nat}
    (hl : t.leaf[node]? = some false) : u.threshold node = t.threshold node := by
  simp only [Tree.threshold, fetch, h.threshold node hl]

theorem SameSplits.isLeaf_eq {t u : Tree} (h : t.SameSplits u) (node : Nat) :
    u.isLeaf node = t.isLeaf node := by
  simp only [isLeaf, h.leaf]

theorem SameSplits.nodeBins_eq {t u : Tree} (h : t.SameSplits u) (table : ThresholdTable)
    (node : Nat) : u.nodeBins table node = t.nodeBins table node := by
  unfold nodeBins
  rw [h.isLeaf_eq]
  cases hleaf : t.isLeaf node with
  | error fault => rfl
  | ok leaf =>
    cases leaf with
    | true => rfl
    | false =>
      have hl := fetch_eq_ok_iff.mp hleaf
      simp only [lift_ok, ok_bind, h.feature_eq hl, h.threshold_eq hl]

/-- The codes that a tree is given depend on its splits only. -/
theorem SameSplits.assignBins_eq {t u : Tree} (h : t.SameSplits u) {table : ThresholdTable}
    {coded : Tree} (hcoded : t.assignBins table = .ok coded) :
    u.assignBins table = .ok (u.withBins coded.thresholdBins coded.zeroBins) := by
  obtain ⟨bins, hbins, hcoded⟩ := bind_eq_ok_iff.mp hcoded
  cases hcoded
  have hnode : u.nodeBins table = t.nodeBins table := funext (h.nodeBins_eq table)
  refine bind_eq_ok_iff.mpr ⟨bins, ?_, rfl⟩
  rw [hnode, h.size, hbins]

end Tree

namespace Forest

theorem splitOf_leaf {t : Tree} {place bound node : Nat} (h : t.leaf[node]? = some true) :
    splitOf t place bound node = .ok none := by
  simp only [splitOf, Tree.isLeaf, fetch_eq_ok_iff.mpr h, lift_ok, ok_bind, if_true, pure_eq_ok]

/-- What a split gives. -/
theorem splitOf_split {t : Tree} {place bound node feature : Nat} {x : Binary32}
    (h : t.SplitAt node feature x) :
    splitOf t place bound node =
      if x.isNaN then fail (.nanThreshold place node)
      else if bound ≤ feature then fail (.featureOutOfRange place node feature bound)
      else .ok (some (feature, x)) := by
  simp only [splitOf, Tree.isLeaf, fetch_eq_ok_iff.mpr h.1, h.2.1, h.2.2, lift_ok, ok_bind,
    Bool.false_eq_true, if_false, pure_eq_ok]

/-- A split is collected unless it offends. -/
theorem splitOf_cases {t : Tree} {node feature : Nat} {x : Binary32}
    (h : t.SplitAt node feature x) (place bound : Nat) :
    splitOf t place bound node = .ok (some (feature, x)) ∧
        (∀ e, ¬t.Offends place bound node e) ∨
      ∃ e, splitOf t place bound node = fail e ∧ t.Offends place bound node e := by
  rw [splitOf_split h]
  cases hnan : x.isNaN with
  | true => exact Or.inr ⟨_, rfl, feature, x, h, Or.inl ⟨hnan, rfl⟩⟩
  | false =>
    by_cases hwide : bound ≤ feature
    · right
      refine ⟨_, ?_, feature, x, h, Or.inr ⟨hnan, hwide, rfl⟩⟩
      rw [if_neg (by simp), if_pos hwide]
    · left
      constructor
      · rw [if_neg (by simp), if_neg hwide]
      · intro e ⟨feature', x', h', hbad⟩
        obtain ⟨rfl, rfl⟩ := h.unique h'
        rcases hbad with ⟨hbad, _⟩ | ⟨_, hbad, _⟩
        · rw [hnan] at hbad
          nomatch hbad
        · exact hwide hbad

theorem not_offends_of_leaf {t : Tree} {place bound node : Nat} (h : t.leaf[node]? = some true)
    (e : QuantizeError) : ¬t.Offends place bound node e := by
  intro ⟨_, _, hsplit, _⟩
  cases h.symm.trans hsplit.1

theorem splitOf_eq_ok {t : Tree} {place bound node : Nat} (columns : ∀ c, t.columnSize c = t.size)
    (hn : node < t.size) {o : Option (Nat × Binary32)} (h : splitOf t place bound node = .ok o) :
    t.leaf[node]? = some true ∧ o = none ∨
      ∃ feature x, t.SplitAt node feature x ∧ o = some (feature, x) := by
  rcases Tree.leaf_or_splitAt columns hn with hl | ⟨feature, x, hsplit⟩
  · rw [splitOf_leaf hl] at h
    exact Or.inl ⟨hl, (Except.ok.inj h).symm⟩
  · rcases splitOf_cases hsplit place bound with ⟨hok, _⟩ | ⟨e, he, _⟩
    · rw [hok] at h
      exact Or.inr ⟨feature, x, hsplit, (Except.ok.inj h).symm⟩
    · rw [he] at h
      exact absurd h fail_ne_ok

/-- What is collected from a tree are its splits. -/
theorem splitsOf_ok {t : Tree} {place bound : Nat} (columns : ∀ c, t.columnSize c = t.size)
    {splits : List (Nat × Binary32)} (h : splitsOf t place bound = .ok splits) :
    splits.length = t.splitCount ∧
      ∀ feature x, (feature, x) ∈ splits ↔ ∃ node, t.SplitAt node feature x := by
  obtain ⟨options, hoptions, h⟩ := bind_eq_ok_iff.mp h
  cases h
  obtain ⟨hlen, hat⟩ := mapM_eq_ok hoptions
  rw [List.length_range] at hlen
  have hnode : ∀ (node : Nat) o, options[node]? = some o →
      t.leaf[node]? = some true ∧ o = none ∨
        ∃ feature x, t.SplitAt node feature x ∧ o = some (feature, x) := by
    intro node o ho
    have hn : node < t.size := hlen ▸ (List.getElem?_eq_some_iff.mp ho).1
    exact splitOf_eq_ok columns hn (hat node node o (by simp [hn]) ho)
  refine ⟨?_, fun feature x => ⟨fun hmem => ?_, fun ⟨node, hsplit⟩ => ?_⟩⟩
  · have hkinds : options.map Option.isSome = t.leaf.toList.map (!·) := by
      refine List.ext_getElem (by simp [hlen, Tree.size_leaf columns]) fun node hn hn' => ?_
      have hn : node < options.length := by simpa using hn
      simp only [List.getElem_map, Array.getElem_toList]
      rcases hnode node _ (List.getElem?_eq_getElem hn) with ⟨hl, ho⟩ | ⟨_, _, hsplit, ho⟩
      · have hl := (Array.getElem?_eq_some_iff.mp hl).2
        rw [ho, hl]
        rfl
      · have hl := (Array.getElem?_eq_some_iff.mp hsplit.1).2
        rw [ho, hl]
        rfl
    have hcount := congrArg (List.countP id) hkinds
    rw [List.countP_map, List.countP_map] at hcount
    rw [List.length_filterMap_eq_countP]
    exact hcount
  · obtain ⟨o, hmem, rfl⟩ := List.mem_filterMap.mp hmem
    obtain ⟨node, hget⟩ := List.mem_iff_getElem?.mp hmem
    rcases hnode node _ hget with ⟨_, ho⟩ | ⟨_, _, hsplit, ho⟩
    · nomatch ho
    · cases ho
      exact ⟨node, hsplit⟩
  · have hn := hsplit.lt_size columns
    have hget : options[node]? = some options[node] := List.getElem?_eq_getElem (by omega)
    rcases hnode node _ hget with ⟨hl, _⟩ | ⟨feature', x', hsplit', ho⟩
    · cases hl.symm.trans hsplit.1
    · obtain ⟨rfl, rfl⟩ := hsplit.unique hsplit'
      exact List.mem_filterMap.mpr ⟨_, List.mem_of_getElem? hget, ho⟩

/-- The splits of a tree are collected unless one offends; then the first such split is reported. -/
theorem splitsOf_cases {t : Tree} (columns : ∀ c, t.columnSize c = t.size) (place bound : Nat) :
    (∃ splits, splitsOf t place bound = .ok splits) ∧ (∀ node e, ¬t.Offends place bound node e) ∨
    ∃ node e, splitsOf t place bound = fail e ∧ t.Offends place bound node e ∧
      ∀ earlier < node, ∀ e, ¬t.Offends place bound earlier e := by
  let Bad : Nat → Failure QuantizeError → Prop := fun node e =>
    ∃ error, e = .error error ∧ t.Offends place bound node error
  have hin : ∀ {node e}, t.Offends place bound node e → node < t.size :=
    fun ⟨_, _, hsplit, _⟩ => hsplit.lt_size columns
  have hnode : ∀ node ∈ List.range t.size,
      (∃ o, splitOf t place bound node = .ok o) ∧ (∀ e, ¬Bad node e) ∨
        ∃ e, splitOf t place bound node = .error e ∧ Bad node e := by
    intro node hn
    rcases Tree.leaf_or_splitAt columns (List.mem_range.mp hn) with hl | ⟨feature, x, hsplit⟩
    · exact Or.inl ⟨⟨none, splitOf_leaf hl⟩, fun _ ⟨e, _, h⟩ => not_offends_of_leaf hl e h⟩
    · rcases splitOf_cases hsplit place bound with ⟨hok, hgood⟩ | ⟨e, he, hbad⟩
      · exact Or.inl ⟨⟨_, hok⟩, fun _ ⟨e, _, h⟩ => hgood e h⟩
      · exact Or.inr ⟨_, he, e, rfl, hbad⟩
  rcases mapM_first_bad hnode with ⟨⟨options, hok⟩, hgood⟩ | ⟨i, node, _, hi, hbad, he, hbefore⟩
  · left
    refine ⟨⟨_, bind_eq_ok_iff.mpr ⟨options, hok, rfl⟩⟩, fun node e h => ?_⟩
    exact hgood node (List.mem_range.mpr (hin h)) _ ⟨e, rfl, h⟩
  · right
    obtain ⟨e, rfl, hbad⟩ := hbad
    have hplace : i = node := by simpa using (List.getElem?_eq_some_iff.mp hi).2
    refine ⟨node, e, ?_, hbad, fun earlier hlt e' h => ?_⟩
    · simp only [splitsOf, he, error_bind]
      rfl
    · exact hbefore earlier (hplace ▸ hlt) earlier (by simp [hin h]) _ ⟨e', rfl, h⟩

/-- A node of a tree of the forest is a split on a feature, with a threshold. -/
def SplitAt (f : Forest) (place node feature : Nat) (x : Binary32) : Prop :=
  ∃ t, f.trees[place]? = some t ∧ t.SplitAt node feature x

def splitCount (f : Forest) : Nat := (f.trees.toList.flatMap fun t => t.leaf.toList).countP (!·)

/-- A split of the forest that cannot be collected, and the error for it. -/
def Offends (f : Forest) (place node : Nat) (e : QuantizeError) : Prop :=
  ∃ t, f.trees[place]? = some t ∧ t.Offends place f.width node e

/-- The first such split, by trees and in a tree by nodes. -/
def FirstOffence (f : Forest) (place node : Nat) (e : QuantizeError) : Prop :=
  f.Offends place node e ∧
    ∀ place' node', place' < place ∨ place' = place ∧ node' < node →
      ∀ e', ¬f.Offends place' node' e'

theorem Offends.unique {f : Forest} {place node : Nat} {e e' : QuantizeError}
    (h : f.Offends place node e) (h' : f.Offends place node e') : e = e' := by
  obtain ⟨t, ht, feature, x, hsplit, hbad⟩ := h
  obtain ⟨t', ht', feature', x', hsplit', hbad'⟩ := h'
  cases Option.some.inj (ht.symm.trans ht')
  obtain ⟨rfl, rfl⟩ := hsplit.unique hsplit'
  rcases hbad with ⟨hnan, rfl⟩ | ⟨hnan, _, rfl⟩
  · rcases hbad' with ⟨_, rfl⟩ | ⟨hnot, _, _⟩
    · rfl
    · rw [hnan] at hnot
      nomatch hnot
  · rcases hbad' with ⟨hnot, _⟩ | ⟨_, _, rfl⟩
    · rw [hnan] at hnot
      nomatch hnot
    · rfl

theorem FirstOffence.unique {f : Forest} {place place' node node' : Nat} {e e' : QuantizeError}
    (h : f.FirstOffence place node e) (h' : f.FirstOffence place' node' e') : e = e' := by
  have hsame := first_place_unique (P := fun place node => ∃ e, f.Offends place node e)
    ⟨e, h.1⟩ (fun p n hlt ⟨e, hbad⟩ => h.2 p n hlt e hbad)
    ⟨e', h'.1⟩ (fun p n hlt ⟨e, hbad⟩ => h'.2 p n hlt e hbad)
  obtain ⟨rfl, rfl⟩ := hsame
  exact h.1.unique h'.1

/-- What is collected from a forest are its splits. -/
theorem splits_ok {f : Forest} (hf : ∀ t ∈ f.trees, t.WellFormed) {splits : List (Nat × Binary32)}
    (h : f.splits = .ok splits) :
    splits.length = f.splitCount ∧
      ∀ feature x, (feature, x) ∈ splits ↔ ∃ place node, f.SplitAt place node feature x := by
  obtain ⟨perTree, hrun, h⟩ := bind_eq_ok_iff.mp h
  cases h
  obtain ⟨hlen, hat⟩ := mapM_eq_ok hrun
  have hsize : perTree.length = f.trees.size := by simpa using hlen
  have htree : ∀ (place : Nat) t splits, f.trees[place]? = some t → perTree[place]? = some splits →
      splits.length = t.splitCount ∧
        ∀ feature x, (feature, x) ∈ splits ↔ ∃ node, t.SplitAt node feature x := by
    intro place t splits ht hsplits
    have hgot := hat place (t, place) splits (by simp [List.getElem?_zipIdx, ht]) hsplits
    exact splitsOf_ok (hf t (Array.mem_of_getElem? ht)).columns hgot
  refine ⟨?_, fun feature x => ⟨fun hmem => ?_, fun ⟨place, node, t, ht, hsplit⟩ => ?_⟩⟩
  · rw [List.length_flatten, splitCount, List.countP_flatMap]
    refine congrArg List.sum (List.ext_getElem (by simp [hsize]) fun place hn hn' => ?_)
    have hn : place < perTree.length := by simpa using hn
    have ht : f.trees[place]? = some f.trees[place] := Array.getElem?_eq_getElem (by omega)
    have hcount := (htree place _ _ ht (List.getElem?_eq_getElem hn)).1
    simpa [Tree.splitCount] using hcount
  · obtain ⟨splits, hsplits, hmem⟩ := List.mem_flatten.mp hmem
    obtain ⟨place, hget⟩ := List.mem_iff_getElem?.mp hsplits
    have hn := (List.getElem?_eq_some_iff.mp hget).1
    have ht : f.trees[place]? = some f.trees[place] := Array.getElem?_eq_getElem (by omega)
    obtain ⟨node, hsplit⟩ := ((htree place _ _ ht hget).2 feature x).mp hmem
    exact ⟨place, node, _, ht, hsplit⟩
  · have hn := (Array.getElem?_eq_some_iff.mp ht).1
    have hget : perTree[place]? = some perTree[place] := List.getElem?_eq_getElem (by omega)
    have hmem := ((htree place t _ ht hget).2 feature x).mpr ⟨node, hsplit⟩
    exact List.mem_flatten.mpr ⟨_, List.mem_of_getElem? hget, hmem⟩

/-- The splits are collected unless one offends; then the first such split is reported. -/
theorem splits_cases {f : Forest} (hf : ∀ t ∈ f.trees, t.WellFormed) :
    (∃ splits, f.splits = .ok splits) ∧ (∀ place node e, ¬f.Offends place node e) ∨
      ∃ place node e, f.splits = fail e ∧ f.FirstOffence place node e := by
  let Bad : Tree × Nat → Nat → Failure QuantizeError → Prop := fun t node e =>
    ∃ error, e = .error error ∧ t.1.Offends t.2 f.width node error
  have htree : ∀ t ∈ f.trees.toList.zipIdx,
      (∃ splits, splitsOf t.1 t.2 f.width = .ok splits) ∧ (∀ node e, ¬Bad t node e) ∨
        ∃ node e, splitsOf t.1 t.2 f.width = .error e ∧ Bad t node e ∧
          ∀ earlier < node, ∀ e, ¬Bad t earlier e := by
    intro t hmem
    have hin := Array.mem_toList_iff.mp (List.fst_mem_of_mem_zipIdx hmem)
    rcases splitsOf_cases (hf t.1 hin).columns t.2 f.width with
      ⟨hok, hgood⟩ | ⟨node, error, he, hbad, hearlier⟩
    · exact Or.inl ⟨hok, fun node _ ⟨error, _, h⟩ => hgood node error h⟩
    · refine Or.inr ⟨node, _, he, ⟨error, rfl, hbad⟩, fun earlier hlt _ h => ?_⟩
      obtain ⟨error', _, h⟩ := h
      exact hearlier earlier hlt error' h
  have hat : ∀ (place : Nat) t, f.trees[place]? = some t →
      f.trees.toList.zipIdx[place]? = some (t, place) := by
    intro place t ht
    simp [List.getElem?_zipIdx, ht]
  rcases mapM_first_bad_node htree with
    ⟨⟨perTree, hok⟩, hgood⟩ | ⟨i, ⟨t, place⟩, node, e, hi, hbad, he, hearlier, hbefore⟩
  · left
    refine ⟨⟨_, bind_eq_ok_iff.mpr ⟨perTree, hok, rfl⟩⟩, fun place node error ⟨t, ht, h⟩ => ?_⟩
    exact hgood (t, place) (List.mem_of_getElem? (hat place t ht)) node _ ⟨error, rfl, h⟩
  · obtain ⟨error, rfl, hbad⟩ := hbad
    have hplace : f.trees[i]? = some t ∧ i = place := by
      simpa [List.getElem?_zipIdx] using hi
    obtain ⟨ht, rfl⟩ := hplace
    refine Or.inr ⟨i, node, error, ?_, ⟨t, ht, hbad⟩, fun place' node' hlt error' h => ?_⟩
    · simp only [splits, he, error_bind]
      rfl
    · obtain ⟨t', ht', h⟩ := h
      rcases hlt with hlt | ⟨rfl, hlt⟩
      · exact hbefore place' hlt (t', place') (hat place' t' ht') node' _ ⟨error', rfl, h⟩
      · cases Option.some.inj (ht.symm.trans ht')
        exact hearlier node' hlt _ ⟨error', rfl, h⟩

/-- Forests of one width whose trees have the same splits in the same places. -/
structure SameSplits (f g : Forest) : Prop where
  width : g.width = f.width
  size : g.trees.size = f.trees.size
  trees : ∀ (place : Nat) t u, f.trees[place]? = some t → g.trees[place]? = some u → t.SameSplits u

end Forest

end TreeEnsemble
