import TreeEnsemble.Tree.Basic

/-!
The check of a tree's structure. After the lengths of the columns, a depth-first search from the
root marks every node it enters; it meets a node twice only if two paths lead there, and it leaves
a node unmarked only if none does. Entering a node uses up one fresh mark, so the search ends on
every tree, cyclic ones included.
-/

namespace TreeEnsemble

/-- The columns that must be as long as the column of features. -/
inductive Column where
  | thresholds
  | comparisons
  | left
  | right
  | defaultLeft
  | missingAsZero
  | leaf
  | values
  deriving DecidableEq

namespace Column

def all : List Column :=
  [thresholds, comparisons, left, right, defaultLeft, missingAsZero, leaf, values]

/-- The name of the column in model documents and messages. -/
def name : Column → String
  | thresholds => "split_thresholds"
  | comparisons => "comparisons"
  | left => "left_children"
  | right => "right_children"
  | defaultLeft => "default_left"
  | missingAsZero => "missing_as_zero"
  | leaf => "is_leaf"
  | values => "leaf_values"

end Column

inductive Side where
  | left
  | right
  deriving DecidableEq

def Side.name : Side → String
  | .left => "left"
  | .right => "right"

inductive TreeError where
  | noNodes
  | binLengths (thresholdBins zeroBins nodes : Nat)
  | columnLength (column : Column) (length nodes : Nat)
  | childOutOfBounds (node : Nat) (side : Side) (child nodes : Nat)
  | selfLoop (node : Nat)
  | reachedTwice (node : Nat)
  | cycle (node : Nat)
  | unreachable (node : Nat)
  deriving DecidableEq

def TreeError.message : TreeError → String
  | .noNodes => "tree has no nodes"
  | .binLengths thresholdBins zeroBins nodes =>
    s!"bin arrays have {thresholdBins} and {zeroBins} entries, expected 0 or {nodes} each"
  | .columnLength column length nodes =>
    "node arrays have inconsistent lengths (" ++ column.name ++
      s!" has {length}, expected {nodes})"
  | .childOutOfBounds node side child nodes =>
    side.name ++ s!" child {child} of node {node} is out of bounds ({nodes} nodes)"
  | .selfLoop node => s!"node {node} references itself as a child"
  | .reachedTwice node => s!"node {node} is reachable by more than one path"
  | .cycle node => s!"cycle detected at node {node}"
  | .unreachable node => s!"node {node} is unreachable from the root"

namespace Tree

def columnSize (t : Tree) : Column → Nat
  | .thresholds => t.thresholds.size
  | .comparisons => t.comparisons.size
  | .left => t.left.size
  | .right => t.right.size
  | .defaultLeft => t.defaultLeft.size
  | .missingAsZero => t.missingAsZero.size
  | .leaf => t.leaf.size
  | .values => t.values.size

def checkColumns (t : Tree) : Attempt TreeError Unit :=
  match Column.all.find? fun c => t.columnSize c != t.size with
  | some c => fail (.columnLength c (t.columnSize c) t.size)
  | none => pure ()

/-- Codes are there for every node or for none. -/
def checkBins (t : Tree) : Attempt TreeError Unit :=
  let bins := t.thresholdBins.size
  if (bins ≠ 0 ∧ bins ≠ t.size) ∨ t.zeroBins.size ≠ bins then
    fail (.binLengths bins t.zeroBins.size t.size)
  else pure ()

inductive Mark where
  | fresh
  | entered
  | finished
  deriving DecidableEq

/-- What the search has still to do: enter a node, or finish one after all nodes below it. -/
inductive Task where
  | enter (node : Nat)
  | finish (node : Nat)
  deriving DecidableEq

structure Search where
  marks : Array Mark
  tasks : List Task

/-- How much work the search can still cause. Entering a node adds three tasks at most. -/
def Search.size (s : Search) : Nat := 3 * s.marks.count .fresh + s.tasks.length

def checkChild (t : Tree) (node : Nat) (side : Side) (child : Nat) : Attempt TreeError Unit :=
  if t.size ≤ child then fail (.childOutOfBounds node side child t.size) else pure ()

/-- The tasks for the children of a node, none at a leaf. -/
def childTasks (t : Tree) (node : Nat) : Attempt TreeError (List Task) := do
  if ← t.isLeaf node then pure []
  else
    let left ← t.leftChild node
    let right ← t.rightChild node
    if left = node ∨ right = node then fail (.selfLoop node)
    else
      t.checkChild node .left left
      t.checkChild node .right right
      pure [.enter left, .enter right]

/-- Does one task of the search; `rest` are the other ones. -/
def step (t : Tree) (marks : Array Mark) (rest : List Task) : Task → Attempt TreeError Search
  | .finish node => do
    let marks ← store marks node .finished
    pure ⟨marks, rest⟩
  | .enter node => do
    match ← fetch marks node with
    | .entered => fail (.cycle node)
    | .finished => fail (.reachedTwice node)
    | .fresh =>
      let marks ← store marks node .entered
      let children ← t.childTasks node
      pure ⟨marks, children ++ .finish node :: rest⟩

theorem length_childTasks {t : Tree} {node : Nat} {tasks : List Task}
    (h : t.childTasks node = .ok tasks) : tasks.length ≤ 2 := by
  obtain ⟨leaf, _, h⟩ := bind_eq_ok_iff.mp h
  cases leaf with
  | true => cases h; exact Nat.zero_le 2
  | false =>
    obtain ⟨l, _, h⟩ := bind_eq_ok_iff.mp h
    obtain ⟨r, _, h⟩ := bind_eq_ok_iff.mp h
    split at h
    · cases h
    · obtain ⟨_, _, h⟩ := bind_eq_ok_iff.mp h
      obtain ⟨_, _, h⟩ := bind_eq_ok_iff.mp h
      cases h
      exact Nat.le_refl 2

theorem count_mark_le (marks : Array Mark) (node : Nat) {m : Mark} (hm : m ≠ .fresh) :
    (marks.setIfInBounds node m).count .fresh ≤ marks.count .fresh := by
  unfold Array.setIfInBounds
  split
  · rw [Array.count_set]
    simp [hm]
  · exact Nat.le_refl _

theorem count_mark_lt {marks : Array Mark} {node : Nat} {m : Mark} (hm : m ≠ .fresh)
    (h : marks[node]? = some .fresh) :
    (marks.setIfInBounds node m).count .fresh < marks.count .fresh := by
  obtain ⟨hn, he⟩ := Array.getElem?_eq_some_iff.mp h
  have hpos := Array.boole_getElem_le_count (a := Mark.fresh) hn
  rw [he] at hpos
  rw [Array.setIfInBounds, dif_pos hn, Array.count_set hn, he]
  simp only [beq_self_eq_true, ↓reduceIte, beq_iff_eq, hm] at hpos ⊢
  omega

theorem size_step {t : Tree} {marks : Array Mark} {rest : List Task} {task : Task} {s : Search}
    (h : t.step marks rest task = .ok s) : s.size < (Search.mk marks (task :: rest)).size := by
  cases task with
  | finish node =>
    obtain ⟨next, hn, h⟩ := bind_eq_ok_iff.mp h
    obtain ⟨_, rfl⟩ := store_eq_ok_iff.mp (lift_eq_ok_iff.mp hn)
    cases h
    have := count_mark_le marks node (m := .finished) nofun
    simp only [Search.size, List.length_cons]
    omega
  | enter node =>
    obtain ⟨m, hm, h⟩ := bind_eq_ok_iff.mp h
    cases m with
    | entered => cases h
    | finished => cases h
    | fresh =>
      obtain ⟨next, hn, h⟩ := bind_eq_ok_iff.mp h
      obtain ⟨_, rfl⟩ := store_eq_ok_iff.mp (lift_eq_ok_iff.mp hn)
      obtain ⟨children, hc, h⟩ := bind_eq_ok_iff.mp h
      cases h
      have hl := length_childTasks hc
      have hf := count_mark_lt (m := .entered) nofun
        (fetch_eq_ok_iff.mp (lift_eq_ok_iff.mp hm))
      simp only [Search.size, List.length_append, List.length_cons]
      omega

/-- Runs the search to its end and gives the marks. -/
def explore (t : Tree) (marks : Array Mark) : List Task → Attempt TreeError (Array Mark)
  | [] => pure marks
  | task :: rest =>
    match _h : t.step marks rest task with
    | .ok next => t.explore next.marks next.tasks
    | .error e => .error e
termination_by tasks => (Search.mk marks tasks).size
decreasing_by exact size_step _h

def validate (t : Tree) : Attempt TreeError Unit := do
  t.checkColumns
  t.checkBins
  if t.size = 0 then fail .noNodes
  else
    let marks ← t.explore (Array.replicate t.size .fresh) [.enter 0]
    match marks.findIdx? (· == .fresh) with
    | some node => fail (.unreachable node)
    | none => pure ()

def checked (t : Tree) : Attempt TreeError Tree := do
  t.validate
  pure t

end Tree

end TreeEnsemble
