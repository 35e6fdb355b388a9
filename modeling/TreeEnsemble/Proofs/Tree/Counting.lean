import Mathlib.Data.List.Nodup
import Mathlib.Data.List.ProdSigma
import TreeEnsemble.Proofs.Forest.Splits
import TreeEnsemble.Proofs.Tree.Descent

/-!
Well-formed trees are full binary trees. The one path to a node other than the root ends with one
link, so the links of the splits lead to all nodes but the root, each once. Two links for each split
make one leaf more than there are splits, and a walk, which meets no split twice, tests no more
splits than that.
-/

namespace TreeEnsemble.Tree

variable {t : Tree}

namespace WellFormed

theorem reaches (h : t.WellFormed) {node : Nat} (hn : node < t.size) : t.Reaches node :=
  (h.onePath node hn).exists

theorem child?_ne_root (h : t.WellFormed) (node : Nat) (side : Side) :
    t.child? node side ≠ some 0 := by
  intro hc
  obtain ⟨path, hpath⟩ := h.reaches (h.lt_of_leaf (split_of_child? hc))
  have hagain : t.follow 0 (path ++ [side]) = some 0 := by
    rw [follow_snoc, hpath]
    exact hc
  have hroot : t.follow 0 [] = some 0 := rfl
  have hlen := congrArg List.length (h.follow_inj hagain hroot)
  simp at hlen

theorem exists_link (h : t.WellFormed) {node : Nat} (hn : node < t.size) (hpos : 0 < node) :
    ∃ parent side, t.child? parent side = some node := by
  obtain ⟨path, hpath⟩ := h.reaches hn
  rcases List.eq_nil_or_concat path with rfl | ⟨init, side, rfl⟩
  · cases Option.some.inj hpath
    omega
  · rw [List.concat_eq_append] at hpath
    obtain ⟨parent, _, hc⟩ := follow_snoc_eq_some hpath
    exact ⟨parent, side, hc⟩

/-- Two links to one node would end two paths to it. -/
theorem link_unique (h : t.WellFormed) {parent parent' node : Nat} {side side' : Side}
    (hc : t.child? parent side = some node) (hc' : t.child? parent' side' = some node) :
    parent = parent' ∧ side = side' := by
  obtain ⟨path, hpath⟩ := h.reaches (h.lt_of_leaf (split_of_child? hc))
  obtain ⟨path', hpath'⟩ := h.reaches (h.lt_of_leaf (split_of_child? hc'))
  have hext : t.follow 0 (path ++ [side]) = some node := by
    rw [follow_snoc, hpath]
    exact hc
  have hext' : t.follow 0 (path' ++ [side']) = some node := by
    rw [follow_snoc, hpath']
    exact hc'
  obtain ⟨hinit, hlast⟩ := List.append_inj' (h.follow_inj hext hext') rfl
  subst hinit
  exact ⟨Option.some.inj (hpath.symm.trans hpath'), List.singleton_inj.mp hlast⟩

end WellFormed

/-- The splits of a tree in increasing order. -/
def splitList (t : Tree) : List Nat :=
  (List.range t.size).filter fun node => t.leaf[node]? == some false

theorem splitNodes_eq (columns : ∀ c, t.columnSize c = t.size) :
    t.splitNodes = .ok t.splitList :=
  splitsAmong_eq columns fun _ hn => List.mem_range.mp hn

theorem WellFormed.mem_splitList (h : t.WellFormed) {node : Nat} :
    node ∈ t.splitList ↔ t.leaf[node]? = some false := by
  simp only [splitList, List.mem_filter, List.mem_range, beq_iff_eq]
  exact ⟨fun hn => hn.2, fun hl => ⟨h.lt_of_leaf hl, hl⟩⟩

theorem nodup_splitList (t : Tree) : t.splitList.Nodup := List.nodup_range.filter _

theorem length_splitList (columns : ∀ c, t.columnSize c = t.size) :
    t.splitList.length = t.splitCount := by
  have hmarks : (List.range t.size).map (t.leaf[·]?) = t.leaf.toList.map some := by
    refine List.ext_getElem (by simp [size_leaf columns]) fun node hn _ => ?_
    have hin : node < t.leaf.size := by simpa [size_leaf columns] using hn
    simp [hin]
  have hcount := congrArg (List.countP (· == some false)) hmarks
  rw [List.countP_map, List.countP_map] at hcount
  rw [splitList, ← List.countP_eq_length_filter, splitCount]
  refine hcount.trans (List.countP_congr fun leaf _ => ?_)
  cases leaf <;> decide

theorem leafCount_add_splitCount (t : Tree) : t.leafCount + t.splitCount = t.leaf.size := by
  have hsplit := List.length_eq_countP_add_countP id (l := t.leaf.toList)
  simp only [Array.length_toList, id_eq] at hsplit
  simp only [leafCount, splitCount, hsplit]
  congr 1
  exact List.countP_congr fun leaf _ => by cases leaf <;> decide

/-- The links of the splits lead to the nodes other than the root, to each of them once. -/
theorem WellFormed.perm_links (h : t.WellFormed) :
    ((t.splitList ×ˢ [Side.left, Side.right]).map fun link => t.child? link.1 link.2).Perm
      ((List.range' 1 (t.size - 1)).map some) := by
  have hside : ∀ {node side}, (node, side) ∈ t.splitList ×ˢ [Side.left, Side.right] →
      ∃ child, t.child? node side = some child := by
    intro node side hmem
    have hl := h.mem_splitList.mp (List.mem_product.mp hmem).1
    rcases leaf_or_split h.columns (h.lt_of_leaf hl) with hleaf | ⟨_, hsides⟩
    · cases hleaf.symm.trans hl
    · exact hsides side
  have hnodup : ((t.splitList ×ˢ [Side.left, Side.right]).map fun link =>
      t.child? link.1 link.2).Nodup := by
    refine List.Nodup.map_on ?_ (t.nodup_splitList.product (by decide))
    rintro ⟨node, side⟩ hmem ⟨node', side'⟩ _ hsame
    obtain ⟨child, hc⟩ := hside hmem
    obtain ⟨rfl, rfl⟩ := h.link_unique hc (hsame.symm.trans hc)
    rfl
  have hnodes : ((List.range' 1 (t.size - 1)).map some).Nodup :=
    (List.nodup_range' 1).map (Option.some_injective Nat)
  refine (List.perm_ext_iff_of_nodup hnodup hnodes).mpr fun child? => ?_
  simp only [List.mem_map, List.mem_range'_1, Prod.exists]
  constructor
  · rintro ⟨node, side, hmem, rfl⟩
    obtain ⟨child, hc⟩ := hside hmem
    have hlt := h.children node side child hc
    have hne : child ≠ 0 := fun hzero => h.child?_ne_root node side (hzero ▸ hc)
    exact ⟨child, by omega, hc.symm⟩
  · rintro ⟨child, hin, rfl⟩
    obtain ⟨node, side, hc⟩ := h.exists_link (show child < t.size by omega) (by omega)
    refine ⟨node, side, List.mem_product.mpr ⟨h.mem_splitList.mpr (split_of_child? hc), ?_⟩, hc⟩
    cases side <;> simp

theorem WellFormed.size_eq (h : t.WellFormed) : t.size = 2 * t.splitCount + 1 := by
  have hlen := h.perm_links.length_eq
  simp only [List.length_map, List.length_product, List.length_range', List.length_cons,
    List.length_nil, length_splitList h.columns] at hlen
  have hpos := h.nonempty
  omega

theorem WellFormed.leafCount_eq (h : t.WellFormed) : t.leafCount = t.splitCount + 1 := by
  have hsum := t.leafCount_add_splitCount
  rw [size_leaf h.columns, h.size_eq] at hsum
  omega

theorem Descent.split_false {scale : Scale} {slots : Array Slot} {node : Nat} {route : Route}
    (hwalk : t.Descent scale slots node route) : ∀ v ∈ route.splits, t.leaf[v]? = some false := by
  induction hwalk with
  | stop _ => exact nofun
  | next hsplit _ _ ih => exact List.forall_mem_cons.mpr ⟨fetch_eq_ok_iff.mp hsplit, ih⟩

/-- The splits that a walk tests are different splits of the tree. -/
theorem Descent.length_splits_le (h : t.WellFormed) {scale : Scale} (hs : t.Readable scale)
    {slots : Array Slot} {node : Nat} {route : Route} (hwalk : t.Descent scale slots node route)
    (hn : node < t.size) : route.splits.length ≤ t.splitCount := by
  obtain ⟨path, hpath⟩ := h.reaches hn
  have hnodup : route.splits.Nodup := (List.nodup_append.mp (hwalk.nodup h hs hpath)).1
  rw [← length_splitList h.columns]
  exact (hnodup.subperm fun v hv => h.mem_splitList.mpr (hwalk.split_false v hv)).length_le

/-- An accepted tree is a full binary tree. It has one leaf more than splits, the root is no child,
every other node is the child of one split on one side, and no walk tests more splits than there are
leaves but one, from whatever node it starts and whatever the slots hold. -/
theorem accepted_is_full (hvalid : t.validate = .ok ()) :
    ∃ splits, t.splitNodes = .ok splits ∧ t.leafCount = splits.length + 1 ∧
      t.size = 2 * t.leafCount - 1 ∧ (∀ node side, t.child? node side ≠ some 0) ∧
      (∀ node < t.size, 0 < node →
        ∃! link : Nat × Side, t.child? link.1 link.2 = some node) ∧
      ∀ scale, t.Readable scale → ∀ slots, ∀ start < t.size,
        ∃ route, t.routeFrom scale slots start = .ok route ∧
          route.splits.length ≤ t.leafCount - 1 := by
  have h := wellFormed_of_validate hvalid
  have hleaves := h.leafCount_eq
  have hsize := h.size_eq
  refine ⟨t.splitList, splitNodes_eq h.columns, ?_, by omega, h.child?_ne_root, ?_, ?_⟩
  · rw [length_splitList h.columns, hleaves]
  · intro node hn hpos
    obtain ⟨parent, side, hc⟩ := h.exists_link hn hpos
    refine ⟨(parent, side), hc, fun link hlink => ?_⟩
    obtain ⟨hparent, hside⟩ := h.link_unique hlink hc
    exact Prod.ext hparent hside
  · intro scale hs slots start hstart
    obtain ⟨route, hroute, hwalk⟩ := routeFrom_ok h hs slots hstart
    have hle := hwalk.length_splits_le h hs hstart
    exact ⟨route, hroute, by omega⟩

/-- The walk by codes of the staircase tests both of its splits. -/
theorem accepted_is_full_codedStaircase :
    codedStaircase.leafCount = 3 ∧ codedStaircase.size = 2 * 3 - 1 ∧
      (∃! link : Nat × Side, codedStaircase.child? link.1 link.2 = some 3) ∧
      ∃ route, codedStaircase.routeFrom .binned #[.ofFloat ⟨0x3f800000⟩] 0 = .ok route ∧
        route.splits.length ≤ 2 := by
  have hvalid : codedStaircase.validate = .ok () := by decide +kernel
  have hbins : codedStaircase.Readable .binned := by
    have hhas : codedStaircase.hasBins = true := by decide
    exact hhas
  have hleaves : codedStaircase.leafCount = 3 := by decide
  obtain ⟨splits, _, _, hsize, _, hlinks, hwalks⟩ := accepted_is_full hvalid
  rw [hleaves] at hsize hwalks
  exact ⟨hleaves, hsize, hlinks 3 (by decide) (by decide),
    hwalks .binned hbins #[.ofFloat ⟨0x3f800000⟩] 0 (by decide)⟩

end TreeEnsemble.Tree
