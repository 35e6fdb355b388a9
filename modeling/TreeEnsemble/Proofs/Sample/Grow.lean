import TreeEnsemble.Proofs.Draft.Build
import TreeEnsemble.Proofs.Tree.Counting
import TreeEnsemble.Sample.Forest

/-!
Random trees. The nodes of a tree that is grown below a node are numbered in a fixed way, whatever
the draws: the children of a split are neighbours, then come all other nodes below the left child,
then those below the right one. A draft filled in this way becomes a full tree.
-/

namespace TreeEnsemble

namespace Draft

/-- A draft that becomes a tree. -/
structure Sound (d : Draft) : Prop where
  grown : d.Grown
  linked : d.Linked

theorem Sound.step {d d' : Draft} {e : Edit} {node : Nat} (h : d.Sound) (s : d.Step d' e node)
    (hspares : d.Spares e) : d'.Sound :=
  ⟨h.grown.step s, (s.linked_iff h.grown).mpr ⟨h.linked, hspares⟩⟩

theorem Sound.build {d : Draft} (h : d.Sound) : d.build = .ok d.toTree := by
  rcases h.grown.build_cases with ⟨_, hbuild⟩ | ⟨hnot, _⟩
  · exact hbuild
  · exact absurd h.linked hnot

theorem Sound.wellFormed {d : Draft} (h : d.Sound) : d.toTree.WellFormed := by
  obtain ⟨_, hvalid, _⟩ := bind_eq_ok_iff.mp h.build
  exact Tree.wellFormed_of_validate hvalid

end Draft

namespace Sample

/-- How many nodes a full tree has below its root. -/
def nodesBelow : (depth : Nat) → Nat
  | 0 => 0
  | depth + 1 => 2 + 2 * nodesBelow depth

/-- A split on one of the features, at a value of the grid. -/
def OnGrid (features : Nat) (feature : UInt32) (threshold : Binary32) : Prop :=
  feature.toNat < features ∧ ∃ level < gridLevels, threshold = gridValue level

/-- A full tree of a depth stands below a node of a draft, and its other nodes from `next` on. -/
def Laid (features : Nat) (d : Draft) : (depth node next : Nat) → Prop
  | 0, node, _ => ¬d.Splits node
  | depth + 1, node, next =>
    d.Splits node ∧ OnGrid features (d.nodeAt node).feature (d.nodeAt node).threshold ∧
      ∀ side : Side, (d.nodeAt node).link side = next + side.offset ∧
        Laid features d depth (next + side.offset) (next + 2 + side.offset * nodesBelow depth)

/-- A full tree depends on its own nodes only. -/
theorem Laid.congr {features : Nat} {d d' : Draft} {depth node next : Nat}
    (h : Laid features d depth node next) (hnode : d'.nodeAt node = d.nodeAt node)
    (hbelow : ∀ i, next ≤ i → i < next + nodesBelow depth → d'.nodeAt i = d.nodeAt i) :
    Laid features d' depth node next := by
  induction depth generalizing node next with
  | zero =>
    rw [Laid, Draft.Splits, hnode]
    exact h
  | succ depth ih =>
    obtain ⟨hsplits, hgrid, hsides⟩ := h
    rw [nodesBelow] at hbelow
    rw [Laid, Draft.Splits, hnode]
    refine ⟨hsplits, hgrid, fun side => ?_⟩
    obtain ⟨hlink, hlaid⟩ := hsides side
    have hoffset := side.offset_le
    refine ⟨hlink, ih hlaid (hbelow _ (by omega) (by omega)) fun i hge hlt => hbelow i ?_ ?_⟩
    · omega
    · cases side with
      | left =>
        simp only [Side.offset] at hlt
        omega
      | right =>
        simp only [Side.offset] at hlt
        omega

/-- What is grown below a node: a full tree, made of that node and of new ones. -/
structure Fills (features depth : Nat) (d : Draft) (node : Nat) (d' : Draft) : Prop where
  sound : d'.Sound
  size : d'.size = d.size + nodesBelow depth
  others : ∀ i < d.size, i ≠ node → d'.nodeAt i = d.nodeAt i
  laid : Laid features d' depth node d.size

/-- Two full trees below the children of a new split make a full tree below the split. -/
theorem Fills.split {features depth : Nat} {d split flagged half full : Draft} {node : Nat}
    {q : Question} {flag : Bool} (hn : node < d.size)
    (hsplit : d.Step split (.split node q) node)
    (hflag : split.Step flagged (.missingAsZero node flag) node)
    (hq : OnGrid features q.feature q.threshold)
    (hleft : Fills features depth flagged d.size half)
    (hright : Fills features depth half (d.size + 1) full) :
    Fills features (depth + 1) d node full := by
  have hsize : flagged.size = d.size + 2 := hflag.size.trans hsplit.size
  have hsizeLeft := hleft.size
  have hsizeRight := hright.size
  have hkept : ∀ i < d.size, full.nodeAt i = flagged.nodeAt i := by
    intro i hi
    rw [hright.others i (by omega) (by omega), hleft.others i (by omega) (by omega)]
  have hmade : full.nodeAt node =
      Draft.Edit.onto split.size (Draft.Edit.onto d.size (d.nodeAt node) (.split node q))
        (.missingAsZero node flag) := by
    rw [hkept node hn, hflag.new, hsplit.new]
  refine ⟨hright.sound, ?_, fun i hi hne => ?_, ?_, ?_, fun side => ?_⟩
  · rw [nodesBelow]
    omega
  · rw [hkept i hi, hflag.others i hne, hsplit.others i hne]
  · rw [Draft.Splits, hmade]
    rfl
  · rw [hmade]
    exact hq
  · refine ⟨by rw [hmade]; cases side <;> rfl, ?_⟩
    cases side with
    | left =>
      have hlaid := hleft.laid
      rw [hsize] at hlaid
      simp only [Side.offset, Nat.add_zero, Nat.zero_mul]
      exact hlaid.congr (hright.others _ (by omega) (by omega)) fun i hge hlt =>
        hright.others i (by omega) (by omega)
    | right =>
      have hlaid := hright.laid
      rw [hsizeLeft, hsize] at hlaid
      simpa only [Side.offset, Nat.one_mul] using hlaid

/-- A path leads down a full tree by its length. -/
theorem Laid.follow {features depth : Nat} {d : Draft} (a : d.Anchored) {path : List Side}
    {node next last : Nat} (h : Laid features d depth node next)
    (hpath : d.toTree.follow node path = some last) :
    ∃ rest next', path.length + rest = depth ∧ Laid features d rest last next' := by
  induction path generalizing depth node next with
  | nil =>
    cases hpath
    exact ⟨depth, next, Nat.zero_add depth, h⟩
  | cons side path ih =>
    obtain ⟨child, hchild, hpath⟩ := Option.bind_eq_some_iff.mp hpath
    rw [a.child?_toTree] at hchild
    have hsplits := Draft.splits_of_child? hchild
    cases depth with
    | zero => exact absurd hsplits h
    | succ depth =>
      obtain ⟨_, _, hsides⟩ := h
      obtain ⟨hlink, hlaid⟩ := hsides side
      rw [Draft.child?_of_splits hsplits] at hchild
      cases Option.some.inj hchild
      rw [← hlink] at hlaid
      obtain ⟨rest, next', hlen, hlast⟩ := ih hlaid hpath
      exact ⟨rest, next', by rw [List.length_cons]; omega, hlast⟩

/-- A full tree of a depth. One path leads to each leaf, of that length, and the splits are on the
features, at values of the grid. -/
structure IsFull (features depth : Nat) (t : Tree) : Prop where
  size : t.size = 2 ^ (depth + 1) - 1
  leafCount : t.leafCount = 2 ^ depth
  leaves : ∀ node : Nat, t.leaf[node]? = some true →
    ∃ path, path.length = depth ∧ ∀ other, t.follow 0 other = some node ↔ other = path
  splits : ∀ node : Nat, t.leaf[node]? = some false → ∃ feature < features,
    ∃ level < gridLevels, t.feature node = .ok feature ∧ t.threshold node = .ok (gridValue level)

section

variable {σ : Type} {draws : Draws σ}

end

end Sample

end TreeEnsemble
