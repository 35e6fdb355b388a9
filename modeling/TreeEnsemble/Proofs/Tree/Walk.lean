import TreeEnsemble.Proofs.Tree.Paths
import TreeEnsemble.Tree.Route

/-!
Walks through a well-formed tree. Each step leads to a child on one side, so a walk from the root
follows a path, and paths are shorter than the tree is large: every walk ends at a leaf.
-/

namespace TreeEnsemble.Tree

/-- The columns that walks on a scale read are there for every node. -/
def Readable (t : Tree) : Scale → Prop
  | .raw => True
  | .binned => t.hasBins = true

theorem size_bins {t : Tree} (h : t.hasBins = true) :
    t.thresholdBins.size = t.size ∧ t.zeroBins.size = t.size := by
  simpa [hasBins] using h

theorem fetch_column {α : Type} {a : Array α} {n node : Nat} (hs : a.size = n) (hn : node < n) :
    ∃ x, fetch a node = .ok x :=
  ⟨_, fetch_of_lt (hs ▸ hn)⟩

theorem order_ok {t : Tree} (h : t.WellFormed) {scale : Scale} (hs : t.Readable scale) {node : Nat}
    (hn : node < t.size) (slot : Slot) : ∃ order, scale.order t node slot = .ok order := by
  cases scale with
  | raw =>
    obtain ⟨x, hx⟩ := fetch_column (h.columns .thresholds) hn
    exact ⟨slot.asFloat.compare? x, bind_eq_ok_iff.mpr ⟨x, hx, rfl⟩⟩
  | binned =>
    obtain ⟨bin, hbin⟩ := fetch_column (size_bins hs).1 hn
    exact ⟨_, bind_eq_ok_iff.mpr ⟨bin, hbin, rfl⟩⟩

theorem zeroSlot_ok {t : Tree} {scale : Scale} (hs : t.Readable scale) {node : Nat}
    (hn : node < t.size) : ∃ slot, scale.zeroSlot t node = .ok slot := by
  cases scale with
  | raw => exact ⟨.ofFloat .zero, rfl⟩
  | binned =>
    obtain ⟨bin, hbin⟩ := fetch_column (size_bins hs).2 hn
    exact ⟨.ofBin bin, bind_eq_ok_iff.mpr ⟨bin, hbin, rfl⟩⟩

theorem branch_ok {t : Tree} (h : t.WellFormed) {scale : Scale} (hs : t.Readable scale) {node : Nat}
    (hsplit : ∀ side, ∃ child, t.child? node side = some child) (hn : node < t.size) (slot : Slot) :
    ∃ side child, t.branch scale node slot = .ok child ∧ t.child? node side = some child := by
  obtain ⟨comparison, hc⟩ := fetch_column (h.columns .comparisons) hn
  obtain ⟨order, ho⟩ := order_ok h hs hn slot
  obtain ⟨l, hl⟩ := hsplit .left
  obtain ⟨r, hr⟩ := hsplit .right
  have hb : t.branch scale node slot =
      if comparison.holds order then t.leftChild node else t.rightChild node := by
    simp only [branch, Tree.comparison, hc, ho, ok_bind]
  cases hold : comparison.holds order with
  | true => exact ⟨.left, l, by rw [hb, hold, if_pos rfl, leftChild_of_child? hl], hl⟩
  | false => exact ⟨.right, r, by rw [hb, hold, if_neg nofun, rightChild_of_child? hr], hr⟩

theorem childFor_present {t : Tree} {scale : Scale} {slots : Array Slot} {node feature : Nat}
    {slot : Slot} (hf : t.feature node = .ok feature) (hp : present? slots feature = some slot) :
    t.childFor scale slots node = t.branch scale node slot := by
  simp only [childFor, hf, ok_bind, hp]

theorem childFor_asZero {t : Tree} {scale : Scale} {slots : Array Slot} {node feature : Nat}
    {slot : Slot} (hf : t.feature node = .ok feature) (hp : present? slots feature = none)
    (hz : t.readsZero node = .ok true) (hs : scale.zeroSlot t node = .ok slot) :
    t.childFor scale slots node = t.branch scale node slot := by
  simp only [childFor, hf, ok_bind, hp, hz, hs, ↓reduceIte]

theorem childFor_default {t : Tree} {scale : Scale} {slots : Array Slot} {node feature : Nat}
    (hf : t.feature node = .ok feature) (hp : present? slots feature = none)
    (hz : t.readsZero node = .ok false) :
    t.childFor scale slots node = t.defaultChild node := by
  simp only [childFor, hf, ok_bind, hp, hz, Bool.false_eq_true, ↓reduceIte]

/-- Where a value is missing, two walks agree if they agree on what stands for zero. -/
theorem childFor_absent {t u : Tree} {scale scale' : Scale} {slots slots' : Array Slot}
    {node feature : Nat} {zero zero' : Slot} (hf : t.feature node = .ok feature)
    (hf' : u.feature node = .ok feature) (hs : present? slots feature = none)
    (hs' : present? slots' feature = none) (hreads : t.readsZero node = u.readsZero node)
    (hdefault : t.defaultChild node = u.defaultChild node)
    (hzero : scale.zeroSlot t node = .ok zero) (hzero' : scale'.zeroSlot u node = .ok zero')
    (hbranch : t.branch scale node zero = u.branch scale' node zero') :
    t.childFor scale slots node = u.childFor scale' slots' node := by
  simp only [childFor, hf, hf', ok_bind, hs, hs', hreads, hdefault, hzero, hzero', hbranch]

theorem defaultChild_ok {t : Tree} (h : t.WellFormed) {node : Nat} (hn : node < t.size)
    (hsplit : ∀ side, ∃ child, t.child? node side = some child) :
    ∃ side child, t.defaultChild node = .ok child ∧ t.child? node side = some child := by
  obtain ⟨toLeft, ht⟩ := fetch_column (h.columns .defaultLeft) hn
  obtain ⟨l, hl⟩ := hsplit .left
  obtain ⟨r, hr⟩ := hsplit .right
  cases toLeft with
  | true => exact ⟨.left, l, by simp [defaultChild, goesLeft, ht, leftChild_of_child? hl], hl⟩
  | false => exact ⟨.right, r, by simp [defaultChild, goesLeft, ht, rightChild_of_child? hr], hr⟩

theorem feature_ok (t : Tree) {node : Nat} (hn : node < t.size) :
    ∃ feature, t.feature node = .ok feature :=
  ⟨_, bind_eq_ok_iff.mpr ⟨_, fetch_of_lt hn, rfl⟩⟩

theorem childFor_ok {t : Tree} (h : t.WellFormed) {scale : Scale} (hs : t.Readable scale)
    (slots : Array Slot) {node : Nat} (hn : node < t.size)
    (hsplit : ∀ side, ∃ child, t.child? node side = some child) :
    ∃ side child, t.childFor scale slots node = .ok child ∧ t.child? node side = some child := by
  obtain ⟨feature, hf⟩ := t.feature_ok hn
  cases hp : present? slots feature with
  | some slot =>
    rw [childFor_present hf hp]
    exact branch_ok h hs hsplit hn slot
  | none =>
    obtain ⟨zero, hz⟩ := fetch_column (h.columns .missingAsZero) hn
    cases zero with
    | true =>
      obtain ⟨slot, hslot⟩ := zeroSlot_ok hs hn
      rw [childFor_asZero hf hp hz hslot]
      exact branch_ok h hs hsplit hn slot
    | false =>
      rw [childFor_default hf hp hz]
      exact defaultChild_ok h hn hsplit

/-- A walk from the end of a path needs as much fuel as the tree has nodes beyond the path. -/
theorem routeWithin_ok {t : Tree} (h : t.WellFormed) {scale : Scale} (hs : t.Readable scale)
    (slots : Array Slot) {fuel : Nat} {path : List Side} {node : Nat}
    (hp : t.follow 0 path = some node) (hf : t.size ≤ path.length + fuel) :
    ∃ route, t.routeWithin scale slots fuel node = .ok route ∧ t.leaf[route.leaf]? = some true := by
  induction fuel generalizing path node with
  | zero =>
    -- no path is as long as the tree is large
    have := h.length_lt hp
    omega
  | succ fuel ih =>
    have hn := h.follow_lt hp
    rcases leaf_or_split h.columns hn with hl | ⟨hl, hsplit⟩
    · exact ⟨⟨[], node⟩, by simp [routeWithin, isLeaf, fetch_eq_ok_iff.mpr hl], hl⟩
    · obtain ⟨side, child, hc, hchild⟩ := childFor_ok h hs slots hn hsplit
      have hext : t.follow 0 (path ++ [side]) = some child := by rw [follow_snoc, hp]; exact hchild
      have hless : t.size ≤ (path ++ [side]).length + fuel := by
        simp only [List.length_append, List.length_singleton]
        omega
      obtain ⟨route, hr, hleaf⟩ := ih hext hless
      refine ⟨{ route with splits := node :: route.splits }, ?_, hleaf⟩
      simp [routeWithin, isLeaf, fetch_eq_ok_iff.mpr hl, hc, hr]

theorem leafFor_ok {t : Tree} (h : t.WellFormed) {scale : Scale} (hs : t.Readable scale)
    (slots : Array Slot) :
    ∃ leaf, t.leafFor scale slots = .ok leaf ∧ t.leaf[leaf]? = some true := by
  have hstart : t.follow 0 [] = some 0 := rfl
  have hfuel : t.size ≤ ([] : List Side).length + (t.size + 1) := by
    simp only [List.length_nil]
    omega
  obtain ⟨route, hr, hl⟩ := routeWithin_ok h hs slots hstart hfuel
  exact ⟨route.leaf, by simp [leafFor, leafFrom, routeFrom, hr], hl⟩

theorem leafValue_ok {t : Tree} (h : t.WellFormed) {leaf : Nat} (hl : t.leaf[leaf]? = some true) :
    ∃ x, t.leafValue leaf = .ok x := by
  exact fetch_column (h.columns .values) (h.lt_of_leaf hl)

/-- Two walks that choose the same child at every split take the same route. -/
theorem routeWithin_congr {t u : Tree} {scale scale' : Scale} {slots slots' : Array Slot}
    (hleaf : t.leaf = u.leaf)
    (h : ∀ node, t.leaf[node]? = some false →
      t.childFor scale slots node = u.childFor scale' slots' node) (fuel node : Nat) :
    t.routeWithin scale slots fuel node = u.routeWithin scale' slots' fuel node := by
  induction fuel generalizing node with
  | zero => rfl
  | succ fuel ih =>
    have hsame : t.isLeaf node = u.isLeaf node := by rw [isLeaf, isLeaf, hleaf]
    simp only [routeWithin, ← hsame]
    cases hl : t.isLeaf node with
    | error e => rfl
    | ok leaf =>
      cases leaf with
      | true => rfl
      | false => simp only [h node (fetch_eq_ok_iff.mp hl), ih]

theorem leafFor_congr {t u : Tree} {scale scale' : Scale} {slots slots' : Array Slot}
    (hsize : t.size = u.size) (hleaf : t.leaf = u.leaf)
    (h : ∀ node, t.leaf[node]? = some false →
      t.childFor scale slots node = u.childFor scale' slots' node) :
    t.leafFor scale slots = u.leafFor scale' slots' := by
  simp only [leafFor, leafFrom, routeFrom, hsize, routeWithin_congr hleaf h]

end TreeEnsemble.Tree
