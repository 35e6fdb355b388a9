import Mathlib.Data.Fintype.Card
import TreeEnsemble.Tree.Validation

/-!
A tree read as a graph: each split has two links, one for each side, even when both lead to the
same node. A path is the list of sides taken. A tree is well formed when its columns fit together
and exactly one path leads from the root to each node.
-/

namespace TreeEnsemble.Tree

def links (t : Tree) : Side → Array UInt32
  | .left => t.left
  | .right => t.right

/-- The child of a split on a side; a leaf has none. -/
def child? (t : Tree) (node : Nat) (side : Side) : Option Nat :=
  if t.leaf[node]? = some false then (t.links side)[node]?.map UInt32.toNat else none

/-- The node to which a path leads, if all nodes before its end are splits. -/
def follow (t : Tree) (node : Nat) : List Side → Option Nat
  | [] => some node
  | side :: path => (t.child? node side).bind fun child => t.follow child path

structure WellFormed (t : Tree) : Prop where
  columns : ∀ c, t.columnSize c = t.size
  nonempty : 0 < t.size
  bins : (t.thresholdBins.size = 0 ∧ t.zeroBins.size = 0) ∨
    (t.thresholdBins.size = t.size ∧ t.zeroBins.size = t.size)
  children : ∀ node side child, t.child? node side = some child → child < t.size
  onePath : ∀ node < t.size, ∃! path, t.follow 0 path = some node

/-- A node lies at the end of a path from the root. -/
def Reaches (t : Tree) (node : Nat) : Prop := ∃ path, t.follow 0 path = some node

/-- Links stay inside the tree and no two paths lead to the same node, but there may be nodes to
which no path leads. -/
structure Unshared (t : Tree) : Prop where
  columns : ∀ c, t.columnSize c = t.size
  children : ∀ node side child, t.child? node side = some child → child < t.size
  paths : ∀ path path' node, t.follow 0 path = some node → t.follow 0 path' = some node →
    path = path'

theorem follow_append (t : Tree) (node : Nat) (path more : List Side) :
    t.follow node (path ++ more) = (t.follow node path).bind fun mid => t.follow mid more := by
  induction path generalizing node with
  | nil => rfl
  | cons side path ih =>
    cases hc : t.child? node side with
    | none => simp [follow, hc]
    | some child => simp [follow, hc, ih]

theorem follow_snoc (t : Tree) (node : Nat) (path : List Side) (side : Side) :
    t.follow node (path ++ [side]) = (t.follow node path).bind fun mid => t.child? mid side := by
  rw [follow_append]
  congr 1
  funext mid
  simp [follow]

theorem follow_snoc_eq_some {t : Tree} {node child : Nat} {path : List Side} {side : Side}
    (h : t.follow node (path ++ [side]) = some child) :
    ∃ mid, t.follow node path = some mid ∧ t.child? mid side = some child :=
  Option.bind_eq_some_iff.mp ((follow_snoc t node path side).symm.trans h)

theorem child?_eq_some_iff {t : Tree} {node child : Nat} {side : Side} :
    t.child? node side = some child ↔ t.leaf[node]? = some false ∧
      (fetch (t.links side) node >>= fun link => pure link.toNat) = .ok child := by
  unfold child?
  split
  next hl =>
    rw [Option.map_eq_some_iff, bind_eq_ok_iff]
    constructor
    · rintro ⟨link, hlink, rfl⟩
      exact ⟨hl, link, fetch_eq_ok_iff.mpr hlink, rfl⟩
    · rintro ⟨_, link, hlink, hchild⟩
      exact ⟨link, fetch_eq_ok_iff.mp hlink, Except.ok.inj hchild⟩
  next hl => exact ⟨nofun, fun h => absurd h.1 hl⟩

theorem split_of_child? {t : Tree} {node child : Nat} {side : Side}
    (h : t.child? node side = some child) : t.leaf[node]? = some false :=
  (child?_eq_some_iff.mp h).1

theorem leftChild_of_child? {t : Tree} {node child : Nat} (h : t.child? node .left = some child) :
    t.leftChild node = .ok child := (child?_eq_some_iff.mp h).2

theorem rightChild_of_child? {t : Tree} {node child : Nat}
    (h : t.child? node .right = some child) : t.rightChild node = .ok child :=
  (child?_eq_some_iff.mp h).2

theorem size_leaf {t : Tree} (h : ∀ c, t.columnSize c = t.size) : t.leaf.size = t.size :=
  h .leaf

theorem size_links {t : Tree} (h : ∀ c, t.columnSize c = t.size) (side : Side) :
    (t.links side).size = t.size := by
  cases side with
  | left => exact h .left
  | right => exact h .right

/-- In columns of one length a node is a leaf, or a split with a child on both sides. -/
theorem leaf_or_split {t : Tree} {node : Nat} (h : ∀ c, t.columnSize c = t.size)
    (hn : node < t.size) :
    t.leaf[node]? = some true ∨ t.leaf[node]? = some false ∧
      ∀ side, ∃ child, t.child? node side = some child := by
  have hl : node < t.leaf.size := by rw [size_leaf h]; exact hn
  cases hv : t.leaf[node] with
  | true => exact Or.inl (Array.getElem?_eq_some_iff.mpr ⟨hl, hv⟩)
  | false =>
    have hs : t.leaf[node]? = some false := Array.getElem?_eq_some_iff.mpr ⟨hl, hv⟩
    refine Or.inr ⟨hs, fun side => ?_⟩
    have hb : node < (t.links side).size := by rw [size_links h]; exact hn
    exact ⟨((t.links side)[node]).toNat, by simp [child?, hs, hb]⟩

namespace WellFormed

theorem lt_of_leaf {t : Tree} (h : t.WellFormed) {node : Nat} {leaf : Bool}
    (hl : t.leaf[node]? = some leaf) : node < t.size := by
  rw [← size_leaf h.columns]
  exact (Array.getElem?_eq_some_iff.mp hl).1

theorem follow_lt {t : Tree} (h : t.WellFormed) {path : List Side} {node : Nat}
    (hp : t.follow 0 path = some node) : node < t.size := by
  induction path using List.reverseRecOn with
  | nil =>
    cases Option.some.inj hp
    exact h.nonempty
  | append_singleton path side ih =>
    obtain ⟨mid, _, hc⟩ := follow_snoc_eq_some hp
    exact h.children mid side node hc

theorem follow_inj {t : Tree} (h : t.WellFormed) {path path' : List Side} {node : Nat}
    (hp : t.follow 0 path = some node) (hp' : t.follow 0 path' = some node) : path = path' :=
  (h.onePath node (h.follow_lt hp)).unique hp hp'

theorem unshared {t : Tree} (h : t.WellFormed) : t.Unshared where
  columns := h.columns
  children := h.children
  paths := fun _ _ _ hp hp' => h.follow_inj hp hp'

/-- The nodes along a path are different, so a path is shorter than the tree is large. -/
theorem length_lt {t : Tree} (h : t.WellFormed) {path : List Side} {node : Nat}
    (hp : t.follow 0 path = some node) : path.length < t.size := by
  -- the starts of the path lead to nodes, and no two of them to the same one
  have hsome : ∀ k, ∃ v, t.follow 0 (path.take k) = some v := by
    intro k
    have hsplit := hp
    rw [← List.take_append_drop k path, follow_append] at hsplit
    obtain ⟨v, hv, _⟩ := Option.bind_eq_some_iff.mp hsplit
    exact ⟨v, hv⟩
  choose place hplace using hsome
  let visit : Fin (path.length + 1) → Fin t.size := fun k => ⟨place k, h.follow_lt (hplace k)⟩
  have hinj : Function.Injective visit := by
    intro i j hij
    have hij' : place i = place j := Fin.mk.inj hij
    have htake := h.follow_inj (hplace i) (hij' ▸ hplace j)
    have hlen := congrArg List.length htake
    simp only [List.length_take] at hlen
    exact Fin.ext (by omega)
  have hcard := Fintype.card_le_of_injective visit hinj
  simp only [Fintype.card_fin] at hcard
  omega

end WellFormed

end TreeEnsemble.Tree
