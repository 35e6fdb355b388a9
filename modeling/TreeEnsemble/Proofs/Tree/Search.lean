import TreeEnsemble.Proofs.Tree.Paths

/-!
The depth-first search of the tree check. Every task to enter a node stands for one path from the
root. The paths already entered and those still pending together grow into all paths of the tree,
and a node is marked exactly if an entered path leads there.
-/

namespace TreeEnsemble.Tree

def Task.node : Task → Nat
  | .enter node => node
  | .finish node => node

/-- The nodes that the tasks will enter, in order. -/
def pending : List Task → List Nat
  | [] => []
  | .enter node :: rest => node :: pending rest
  | .finish _ :: rest => pending rest

theorem pending_enters (nodes : List Nat) (rest : List Task) :
    pending (nodes.map .enter ++ rest) = nodes ++ pending rest := by
  induction nodes with
  | nil => rfl
  | cons node nodes ih => simp [pending, ih]

theorem childTasks_leaf {t : Tree} {node : Nat} (h : t.leaf[node]? = some true) :
    t.childTasks node = .ok [] :=
  bind_eq_ok_iff.mpr ⟨true, lift_eq_ok_iff.mpr (fetch_eq_ok_iff.mpr h), rfl⟩

theorem childTasks_split {t : Tree} {node l r : Nat} (hl : t.child? node .left = some l)
    (hr : t.child? node .right = some r) :
    t.childTasks node =
      if l = node ∨ r = node then fail (.selfLoop node)
      else if t.size ≤ l then fail (.childOutOfBounds node .left l t.size)
      else if t.size ≤ r then fail (.childOutOfBounds node .right r t.size)
      else .ok [.enter l, .enter r] := by
  have hs : t.isLeaf node = .ok false := fetch_eq_ok_iff.mpr (split_of_child? hl)
  simp only [childTasks, hs, leftChild_of_child? hl, rightChild_of_child? hr, lift_ok, ok_bind,
    checkChild]
  by_cases hbl : t.size ≤ l
  · simp [hbl]
  · by_cases hbr : t.size ≤ r
    · simp [hbl, hbr]
    · simp [hbl, hbr]

theorem checkChild_ok_iff {t : Tree} {node child : Nat} {side : Side} :
    t.checkChild node side child = .ok () ↔ child < t.size := by
  unfold checkChild
  split
  next h => exact ⟨fun e => absurd e fail_ne_ok, fun e => by omega⟩
  next h => exact ⟨fun _ => by omega, fun _ => rfl⟩

theorem childTasks_ok {t : Tree} {node : Nat} {tasks : List Task}
    (h : t.childTasks node = .ok tasks) :
    ∃ (sides : List Side) (nodes : List Nat), tasks = nodes.map .enter ∧
      sides.map (t.child? node) = nodes.map some ∧ sides.Nodup ∧
      (∀ side child, t.child? node side = some child → side ∈ sides) ∧
      ∀ v ∈ nodes, v < t.size := by
  obtain ⟨leaf, hleaf, h⟩ := bind_eq_ok_iff.mp h
  have hleaf := fetch_eq_ok_iff.mp (lift_eq_ok_iff.mp hleaf)
  cases leaf with
  | true =>
    cases h
    refine ⟨[], [], rfl, rfl, List.nodup_nil, fun side child hc => ?_, by simp⟩
    have := hleaf.symm.trans (split_of_child? hc)
    simp at this
  | false =>
    obtain ⟨l, hl, h⟩ := bind_eq_ok_iff.mp h
    obtain ⟨r, hr, h⟩ := bind_eq_ok_iff.mp h
    have hl : t.child? node .left = some l := child?_eq_some_iff.mpr ⟨hleaf, lift_eq_ok_iff.mp hl⟩
    have hr : t.child? node .right = some r :=
      child?_eq_some_iff.mpr ⟨hleaf, lift_eq_ok_iff.mp hr⟩
    split at h
    next => exact absurd h fail_ne_ok
    next =>
      obtain ⟨_, hbl, h⟩ := bind_eq_ok_iff.mp h
      obtain ⟨_, hbr, h⟩ := bind_eq_ok_iff.mp h
      cases h
      refine ⟨[.left, .right], [l, r], rfl, by simp [hl, hr], by decide, ?_, ?_⟩
      · intro side _ _
        cases side <;> simp
      · intro v hv
        rcases List.mem_pair.mp hv with rfl | rfl
        · exact checkChild_ok_iff.mp hbl
        · exact checkChild_ok_iff.mp hbr

theorem mark_eq_iff {marks : Array Mark} {node v : Nat} {m k : Mark} (hm : m ≠ k) :
    (marks.setIfInBounds node m)[v]? = some k ↔ v ≠ node ∧ marks[v]? = some k := by
  by_cases hv : v = node
  · subst hv
    rw [Array.getElem?_setIfInBounds_self]
    split <;> simp [hm]
  · rw [Array.getElem?_setIfInBounds_ne (Ne.symm hv)]
    simp [hv]

theorem mark_self_iff {marks : Array Mark} {node v : Nat} {m : Mark} (hn : node < marks.size) :
    (marks.setIfInBounds node m)[v]? = some m ↔ v = node ∨ marks[v]? = some m := by
  by_cases hv : v = node
  · subst hv
    simp [hn]
  · rw [Array.getElem?_setIfInBounds_ne (Ne.symm hv)]
    simp [hv]

theorem step_finish_of_lt {t : Tree} {marks : Array Mark} {node : Nat} (h : node < marks.size)
    (rest : List Task) :
    t.step marks rest (.finish node) = .ok ⟨marks.setIfInBounds node .finished, rest⟩ := by
  simp only [step, store_of_lt h, lift_ok, ok_bind, pure_eq_ok]

theorem step_enter_of_fresh {t : Tree} {marks : Array Mark} {node : Nat}
    (h : marks[node]? = some .fresh) (rest : List Task) :
    t.step marks rest (.enter node) = t.childTasks node >>= fun children =>
      pure ⟨marks.setIfInBounds node .entered, children ++ .finish node :: rest⟩ := by
  have hm : node < marks.size := (Array.getElem?_eq_some_iff.mp h).1
  simp only [step, fetch_eq_ok_iff.mpr h, store_of_lt hm, lift_ok, ok_bind]

theorem step_finish_ok {t : Tree} {marks : Array Mark} {rest : List Task} {node : Nat} {s : Search}
    (h : t.step marks rest (.finish node) = .ok s) :
    s = ⟨marks.setIfInBounds node .finished, rest⟩ := by
  obtain ⟨next, hn, h⟩ := bind_eq_ok_iff.mp h
  obtain ⟨_, rfl⟩ := store_eq_ok_iff.mp (lift_eq_ok_iff.mp hn)
  cases h
  rfl

theorem step_enter_ok {t : Tree} {marks : Array Mark} {rest : List Task} {node : Nat} {s : Search}
    (h : t.step marks rest (.enter node) = .ok s) :
    marks[node]? = some .fresh ∧ ∃ children, t.childTasks node = .ok children ∧
      s = ⟨marks.setIfInBounds node .entered, children ++ .finish node :: rest⟩ := by
  obtain ⟨m, hm, h⟩ := bind_eq_ok_iff.mp h
  have hm := fetch_eq_ok_iff.mp (lift_eq_ok_iff.mp hm)
  cases m with
  | entered => exact absurd h fail_ne_ok
  | finished => exact absurd h fail_ne_ok
  | fresh =>
    obtain ⟨next, hn, h⟩ := bind_eq_ok_iff.mp h
    obtain ⟨_, rfl⟩ := store_eq_ok_iff.mp (lift_eq_ok_iff.mp hn)
    obtain ⟨children, hc, h⟩ := bind_eq_ok_iff.mp h
    cases h
    exact ⟨hm, children, hc, rfl⟩

/-- Paths entered and paths pending. Each path but the empty one continues an entered path, and
nothing that continues an entered path is left out. -/
structure Frontier (t : Tree) (done todo : List (List Side)) : Prop where
  nodup : todo.Nodup
  disjoint : ∀ path ∈ todo, path ∉ done
  parent : ∀ path side, path ++ [side] ∈ done ∨ path ++ [side] ∈ todo → path ∈ done
  closed : ∀ path ∈ done, ∀ side child, t.follow 0 (path ++ [side]) = some child →
    path ++ [side] ∈ done ∨ path ++ [side] ∈ todo
  root : [] ∈ done ∨ [] ∈ todo

theorem frontier_start (t : Tree) : t.Frontier [] [[]] where
  nodup := List.nodup_singleton []
  disjoint := by simp
  parent := by simp
  closed := by simp
  root := by simp

theorem Frontier.not_mem_extension {t : Tree} {done more : List (List Side)} {path : List Side}
    (F : t.Frontier done (path :: more)) (side : Side) :
    path ++ [side] ∉ done ∧ path ++ [side] ∉ more := by
  have hout : path ∉ done := F.disjoint path List.mem_cons_self
  refine ⟨fun h => hout (F.parent path side (Or.inl h)), fun h => hout (F.parent path side ?_)⟩
  exact Or.inr (List.mem_cons_of_mem _ h)

/-- The first pending path is entered, and its continuations are pending in its place. -/
theorem Frontier.expand {t : Tree} {done more : List (List Side)} {path : List Side}
    {sides : List Side} (F : t.Frontier done (path :: more)) (hnodup : sides.Nodup)
    (hall : ∀ side child, t.follow 0 (path ++ [side]) = some child → side ∈ sides) :
    t.Frontier (path :: done) (sides.map (path ++ [·]) ++ more) where
  nodup := by
    refine List.nodup_append.mpr ⟨?_, (List.nodup_cons.mp F.nodup).2, ?_⟩
    · exact hnodup.map fun a b h => by simpa using h
    · rintro p hp q hq rfl
      obtain ⟨side, _, rfl⟩ := List.mem_map.mp hp
      exact (F.not_mem_extension side).2 hq
  disjoint := by
    intro p hp hd
    rcases List.mem_append.mp hp with hext | hmore
    · obtain ⟨side, _, rfl⟩ := List.mem_map.mp hext
      rcases List.mem_cons.mp hd with h | h
      · simp at h
      · exact (F.not_mem_extension side).1 h
    · rcases List.mem_cons.mp hd with rfl | h
      · exact (List.nodup_cons.mp F.nodup).1 hmore
      · exact F.disjoint p (List.mem_cons_of_mem _ hmore) h
  parent := by
    intro p side h
    rcases h with h | h
    -- the entered path was pending before, so its start was entered already
    · have hold : p ++ [side] ∈ done ∨ p ++ [side] ∈ path :: more := by
        rcases List.mem_cons.mp h with h | h
        · exact Or.inr (h ▸ List.mem_cons_self)
        · exact Or.inl h
      exact List.mem_cons_of_mem _ (F.parent p side hold)
    · rcases List.mem_append.mp h with h | h
      · obtain ⟨s, _, he⟩ := List.mem_map.mp h
        rw [← List.append_inj_left' he rfl]
        exact List.mem_cons_self
      · exact List.mem_cons_of_mem _ (F.parent p side (Or.inr (List.mem_cons_of_mem _ h)))
  closed := by
    intro p hp side child hf
    rcases List.mem_cons.mp hp with rfl | hp
    -- all that continues the entered path is pending now
    · exact Or.inr (List.mem_append_left _ (List.mem_map.mpr ⟨side, hall side child hf, rfl⟩))
    · rcases F.closed p hp side child hf with h | h
      · exact Or.inl (List.mem_cons_of_mem _ h)
      · rcases List.mem_cons.mp h with h | h
        · exact Or.inl (h ▸ List.mem_cons_self)
        · exact Or.inr (List.mem_append_right _ h)
  root := by
    rcases F.root with h | h
    · exact Or.inl (List.mem_cons_of_mem _ h)
    · rcases List.mem_cons.mp h with h | h
      · exact Or.inl (h ▸ List.mem_cons_self)
      · exact Or.inr (List.mem_append_right _ h)

/-- Once nothing is pending, every path of the tree has been entered. -/
theorem Frontier.mem_done {t : Tree} {done : List (List Side)} (F : t.Frontier done [])
    {path : List Side} {node : Nat} (h : t.follow 0 path = some node) : path ∈ done := by
  induction path using List.reverseRecOn generalizing node with
  | nil => simpa using F.root
  | append_singleton path side ih =>
    obtain ⟨mid, hmid, _⟩ := follow_snoc_eq_some h
    simpa using F.closed path (ih hmid) side node h

/-- The search after some steps. `done` are the paths whose ends were entered and `todo` the paths
of the tasks that will still enter a node. -/
structure Explored (t : Tree) (marks : Array Mark) (tasks : List Task)
    (done todo : List (List Side)) : Prop extends t.Frontier done todo where
  size : marks.size = t.size
  inBounds : ∀ task ∈ tasks, task.node < t.size
  opened : ∀ node, .finish node ∈ tasks → marks[node]? ≠ some .fresh
  waiting : todo.map (t.follow 0) = (pending tasks).map some
  marked : ∀ path ∈ done, ∃ node < t.size,
    t.follow 0 path = some node ∧ marks[node]? ≠ some .fresh
  covered : ∀ node < t.size, marks[node]? ≠ some .fresh → ∃ path ∈ done, t.follow 0 path = some node
  distinct : ∀ path ∈ done, ∀ path' ∈ done, t.follow 0 path = t.follow 0 path' → path = path'

theorem explored_start {t : Tree} (h : 0 < t.size) :
    t.Explored (Array.replicate t.size .fresh) [.enter 0] [] [[]] where
  toFrontier := frontier_start t
  size := Array.size_replicate
  inBounds := by simp [Task.node, h]
  opened := by simp
  waiting := rfl
  marked := by simp
  covered := fun node hn hm => by simp [hn] at hm
  distinct := by simp

theorem Explored.step_finish {t : Tree} {marks : Array Mark} {rest : List Task} {node : Nat}
    {done todo : List (List Side)} (E : t.Explored marks (.finish node :: rest) done todo) :
    t.Explored (marks.setIfInBounds node .finished) rest done todo := by
  have hnode := E.opened node List.mem_cons_self
  -- a node that is finished was entered before, so no node stops being fresh
  have hsame : ∀ v : Nat, (marks.setIfInBounds node .finished)[v]? = some Mark.fresh ↔
      marks[v]? = some Mark.fresh := by
    intro v
    rw [mark_eq_iff (show Mark.finished ≠ .fresh from nofun)]
    exact ⟨fun h => h.2, fun h => ⟨fun he => hnode (he ▸ h), h⟩⟩
  exact {
    toFrontier := E.toFrontier
    size := by rw [Array.size_setIfInBounds, E.size]
    inBounds := fun task h => E.inBounds task (List.mem_cons_of_mem _ h)
    opened := fun v h => by rw [ne_eq, hsame]; exact E.opened v (List.mem_cons_of_mem _ h)
    waiting := E.waiting
    marked := by simpa only [ne_eq, hsame] using E.marked
    covered := by simpa only [ne_eq, hsame] using E.covered
    distinct := E.distinct }

/-- Entering a node moves its path from `todo` to `done` and puts the longer paths in its place. -/
theorem Explored.step_enter {t : Tree} {marks : Array Mark} {rest children : List Task} {node : Nat}
    {done todo : List (List Side)} (E : t.Explored marks (.enter node :: rest) done todo)
    (hfresh : marks[node]? = some .fresh) (hc : t.childTasks node = .ok children) :
    ∃ done' todo', t.Explored (marks.setIfInBounds node .entered)
      (children ++ .finish node :: rest) done' todo' := by
  obtain ⟨sides, nodes, rfl, hsides, hnodup, hall, hbound⟩ := childTasks_ok hc
  obtain ⟨path, more, rfl, hpath, hmore⟩ := List.map_eq_cons_iff.mp E.waiting
  have hsize : node < t.size := E.inBounds _ List.mem_cons_self
  have hnext : ∀ side, t.follow 0 (path ++ [side]) = t.child? node side := by
    intro side
    rw [follow_snoc, hpath, Option.bind_some]
  have hfresh' : ∀ v : Nat, (marks.setIfInBounds node .entered)[v]? = some Mark.fresh ↔
      v ≠ node ∧ marks[v]? = some Mark.fresh := fun v => mark_eq_iff nofun
  -- no entered path leads to a fresh node
  have hother : ∀ p ∈ done, t.follow 0 p ≠ some node := by
    intro p hp he
    obtain ⟨v, _, hf, hm⟩ := E.marked p hp
    cases Option.some.inj (hf.symm.trans he)
    exact hm hfresh
  refine ⟨path :: done, sides.map (path ++ [·]) ++ more, ?_⟩
  exact {
    toFrontier := E.toFrontier.expand hnodup fun side child h =>
      hall side child ((hnext side).symm.trans h)
    size := by rw [Array.size_setIfInBounds, E.size]
    inBounds := by
      intro task htask
      rcases List.mem_append.mp htask with h | h
      · obtain ⟨v, hv, rfl⟩ := List.mem_map.mp h
        exact hbound v hv
      · rcases List.mem_cons.mp h with rfl | h
        · exact hsize
        · exact E.inBounds task (List.mem_cons_of_mem _ h)
    opened := by
      intro v hv hf
      obtain ⟨hne, hf⟩ := (hfresh' v).mp hf
      have hrest : .finish v ∈ rest := by simpa [hne] using hv
      exact E.opened v (List.mem_cons_of_mem _ hrest) hf
    waiting := by
      rw [pending_enters, List.map_append, List.map_append, List.map_map, ← hsides]
      simp only [pending, hmore]
      congr 1
      exact List.map_congr_left fun side _ => hnext side
    marked := by
      intro p hp
      rcases List.mem_cons.mp hp with rfl | hp
      · exact ⟨node, hsize, hpath, by simp [hfresh']⟩
      · obtain ⟨v, hv, hf, hm⟩ := E.marked p hp
        exact ⟨v, hv, hf, fun h => hm ((hfresh' v).mp h).2⟩
    covered := by
      intro v hv hm
      by_cases he : v = node
      · exact ⟨path, List.mem_cons_self, he ▸ hpath⟩
      · obtain ⟨p, hp, hf⟩ := E.covered v hv fun h => hm ((hfresh' v).mpr ⟨he, h⟩)
        exact ⟨p, List.mem_cons_of_mem _ hp, hf⟩
    distinct := by
      intro p hp q hq he
      rcases List.mem_cons.mp hp with hpp | hpd <;> rcases List.mem_cons.mp hq with hqp | hqd
      · exact hpp.trans hqp.symm
      · exact absurd (he.symm.trans (hpp ▸ hpath)) (hother q hqd)
      · exact absurd (he.trans (hqp ▸ hpath)) (hother p hpd)
      · exact E.distinct p hpd q hqd he }

end TreeEnsemble.Tree
