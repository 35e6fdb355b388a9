import TreeEnsemble.Proofs.Tree.Validation

/-!
The marks of the depth-first search while it runs. The entered nodes are those on the trail from
the root to the node at work, each linked to the next, and a finished node has nothing but finished
nodes below it. So a link back to an entered node closes a cycle, and none lies below a finished
node.
-/

namespace TreeEnsemble.Tree

def OnCycle (t : Tree) (node : Nat) : Prop := ∃ path, path ≠ [] ∧ t.follow node path = some node

/-- The node is a child of the last node on the trail, unless the trail is empty. -/
def Continues (t : Tree) (trail : List Nat) (node : Nat) : Prop :=
  ∀ parent ∈ trail.head?, ∃ side, t.child? parent side = some node

/-- The trail to the node at work, last node first: the nodes that the tasks will finish. Every
task is for a child of the last node that was on the trail when the task was set. -/
inductive Trail (t : Tree) : List Nat → List Task → Prop
  | start : Trail t [] []
  | enter {trail : List Nat} {node : Nat} {rest : List Task}
      (link : t.Continues trail node) (below : Trail t trail rest) :
      Trail t trail (.enter node :: rest)
  | finish {trail : List Nat} {node : Nat} {rest : List Task}
      (link : t.Continues trail node) (below : Trail t trail rest) :
      Trail t (node :: trail) (.finish node :: rest)

theorem Trail.enters {t : Tree} {trail : List Nat} {rest : List Task} (h : t.Trail trail rest)
    {nodes : List Nat} (hn : ∀ v ∈ nodes, t.Continues trail v) :
    t.Trail trail (nodes.map .enter ++ rest) := by
  induction nodes with
  | nil => exact h
  | cons v nodes ih =>
    obtain ⟨hv, hnodes⟩ := List.forall_mem_cons.mp hn
    exact .enter hv (ih hnodes)

theorem Trail.of_finish {t : Tree} {trail : List Nat} {node : Nat} {rest : List Task}
    (h : t.Trail trail (.finish node :: rest)) :
    ∃ trail', trail = node :: trail' ∧ t.Trail trail' rest := by
  cases h with
  | finish _ below => exact ⟨_, rfl, below⟩

/-- From each node on the trail a path leads to whatever continues the trail. -/
theorem Trail.leads {t : Tree} {trail : List Nat} {tasks : List Task} (h : t.Trail trail tasks)
    {u v : Nat} (hu : u ∈ trail) (hv : t.Continues trail v) :
    ∃ path, path ≠ [] ∧ t.follow u path = some v := by
  induction h generalizing v with
  | start => nomatch hu
  | enter _ _ ih => exact ih hu hv
  | @finish trail node rest link _ ih =>
    obtain ⟨side, hside⟩ := hv node rfl
    rcases List.mem_cons.mp hu with rfl | hu
    · exact ⟨[side], List.cons_ne_nil _ _, by rw [follow, hside]; rfl⟩
    · obtain ⟨path, _, hpath⟩ := ih hu link
      refine ⟨path ++ [side], by simp, ?_⟩
      rw [follow_snoc, hpath]
      exact hside

/-- Before a node is finished, each of its children satisfies the predicate or has a task that is
done earlier. -/
def ChildrenFirst (t : Tree) (P : Nat → Prop) : List Task → Prop
  | [] => True
  | .enter node :: rest => t.ChildrenFirst (fun v => v = node ∨ P v) rest
  | .finish node :: rest =>
    (∀ side child, t.child? node side = some child → P child) ∧
      t.ChildrenFirst (fun v => v = node ∨ P v) rest

theorem ChildrenFirst.mono {t : Tree} {P Q : Nat → Prop} {tasks : List Task}
    (h : t.ChildrenFirst P tasks) (hPQ : ∀ v, P v → Q v) : t.ChildrenFirst Q tasks := by
  induction tasks generalizing P Q with
  | nil => trivial
  | cons task rest ih =>
    cases task with
    | enter node => exact ih h fun v => Or.imp_right (hPQ v)
    | finish node =>
      refine ⟨fun side child hc => hPQ child (h.1 side child hc), ?_⟩
      exact ih h.2 fun v => Or.imp_right (hPQ v)

theorem childrenFirst_enters {t : Tree} {P : Nat → Prop} {nodes : List Nat} {rest : List Task}
    (h : t.ChildrenFirst (fun v => v ∈ nodes ∨ P v) rest) :
    t.ChildrenFirst P (nodes.map .enter ++ rest) := by
  induction nodes generalizing P with
  | nil => exact h.mono fun v hv => by simpa using hv
  | cons node nodes ih =>
    apply ih
    apply h.mono
    intro v hv
    rw [List.mem_cons] at hv
    tauto

/-- How marks and tasks belong together while the search runs. -/
structure Tracked (t : Tree) (marks : Array Mark) (tasks : List Task) (trail : List Nat) :
    Prop where
  linked : t.Trail trail tasks
  nodup : trail.Nodup
  entered : ∀ v : Nat, marks[v]? = some .entered ↔ v ∈ trail
  childrenFirst : t.ChildrenFirst (fun v => marks[v]? = some .finished) tasks
  closed : ∀ v : Nat, marks[v]? = some .finished → ∀ side child, t.child? v side = some child →
    marks[child]? = some .finished
  acyclic : ∀ v : Nat, marks[v]? = some .finished → ¬t.OnCycle v

theorem tracked_start (t : Tree) :
    t.Tracked (Array.replicate t.size .fresh) [.enter 0] [] where
  linked := .enter nofun .start
  nodup := List.nodup_nil
  entered := by simp [Array.getElem?_replicate]
  childrenFirst := trivial
  closed := by simp [Array.getElem?_replicate]
  acyclic := by simp [Array.getElem?_replicate]

theorem finished_follow {t : Tree} {marks : Array Mark}
    (closed : ∀ v : Nat, marks[v]? = some .finished → ∀ side child,
      t.child? v side = some child → marks[child]? = some .finished)
    {node v : Nat} {path : List Side} (hn : marks[node]? = some .finished)
    (hp : t.follow node path = some v) : marks[v]? = some .finished := by
  induction path generalizing node with
  | nil =>
    cases Option.some.inj hp
    exact hn
  | cons side path ih =>
    obtain ⟨child, hc, hp⟩ := Option.bind_eq_some_iff.mp hp
    exact ih (closed node hn side child hc) hp

theorem Tracked.onCycle_of_entered {t : Tree} {marks : Array Mark} {rest : List Task}
    {trail : List Nat} {node : Nat} (T : t.Tracked marks (.enter node :: rest) trail)
    (hm : marks[node]? = some .entered) : t.OnCycle node := by
  cases T.linked with
  | enter link below => exact below.leads ((T.entered node).mp hm) link

theorem Tracked.acyclic_below {t : Tree} {marks : Array Mark} {tasks : List Task}
    {trail : List Nat} {node v : Nat} {path : List Side} (T : t.Tracked marks tasks trail)
    (hm : marks[node]? = some .finished) (hp : t.follow node path = some v) : ¬t.OnCycle v :=
  T.acyclic v (finished_follow T.closed hm hp)

theorem Tracked.step_finish {t : Tree} {marks : Array Mark} {rest : List Task} {trail : List Nat}
    {node : Nat} (T : t.Tracked marks (.finish node :: rest) trail) :
    ∃ trail', t.Tracked (marks.setIfInBounds node .finished) rest trail' := by
  obtain ⟨trail', rfl, below⟩ := T.linked.of_finish
  obtain ⟨hnode, hnodup⟩ := List.nodup_cons.mp T.nodup
  have hentered : marks[node]? = some .entered := (T.entered node).mpr List.mem_cons_self
  have hlt : node < marks.size := (Array.getElem?_eq_some_iff.mp hentered).1
  obtain ⟨hchildren, hrest⟩ := T.childrenFirst
  have hfinished : ∀ v : Nat, (marks.setIfInBounds node .finished)[v]? = some Mark.finished ↔
      v = node ∨ marks[v]? = some .finished := fun v => mark_self_iff hlt
  refine ⟨trail', below, hnodup, fun v => ?_, ?_, fun v hv side child hc => ?_, fun v hv => ?_⟩
  · rw [mark_eq_iff (show Mark.finished ≠ .entered from nofun), T.entered, List.mem_cons]
    constructor
    · rintro ⟨hne, he | hv⟩
      · exact absurd he hne
      · exact hv
    · intro hv
      exact ⟨fun he => hnode (he ▸ hv), Or.inr hv⟩
  · exact hrest.mono fun v hv => (hfinished v).mpr hv
  · apply (hfinished child).mpr
    rcases (hfinished v).mp hv with rfl | hv
    · exact Or.inr (hchildren side child hc)
    · exact Or.inr (T.closed v hv side child hc)
  · rcases (hfinished v).mp hv with rfl | hv
    -- a way back to the node would make it finished before
    · rintro ⟨path, hne, hpath⟩
      obtain ⟨side, more, rfl⟩ := List.exists_cons_of_ne_nil hne
      obtain ⟨child, hc, hmore⟩ := Option.bind_eq_some_iff.mp hpath
      have hagain := finished_follow T.closed (hchildren side child hc) hmore
      cases hentered.symm.trans hagain
    · exact T.acyclic v hv

theorem Tracked.step_enter {t : Tree} {marks : Array Mark} {rest children : List Task}
    {trail : List Nat} {node : Nat} (T : t.Tracked marks (.enter node :: rest) trail)
    (hfresh : marks[node]? = some .fresh) (hc : t.childTasks node = .ok children) :
    t.Tracked (marks.setIfInBounds node .entered) (children ++ .finish node :: rest)
      (node :: trail) := by
  obtain ⟨sides, nodes, rfl, hsides, _, hall, _⟩ := childTasks_ok hc
  have hlt : node < marks.size := (Array.getElem?_eq_some_iff.mp hfresh).1
  have hnot : node ∉ trail := by
    intro hmem
    cases hfresh.symm.trans ((T.entered node).mpr hmem)
  have hfinished : ∀ v : Nat, (marks.setIfInBounds node .entered)[v]? = some Mark.finished ↔
      marks[v]? = some .finished := by
    intro v
    rw [mark_eq_iff (show Mark.entered ≠ .finished from nofun), and_iff_right_iff_imp]
    rintro hv rfl
    cases hfresh.symm.trans hv
  have hchild : ∀ v ∈ nodes, ∃ side, t.child? node side = some v := by
    intro v hv
    have hmem : some v ∈ sides.map (t.child? node) := hsides ▸ List.mem_map_of_mem hv
    obtain ⟨side, _, hside⟩ := List.mem_map.mp hmem
    exact ⟨side, hside⟩
  have hmem : ∀ side child, t.child? node side = some child → child ∈ nodes := by
    intro side child hside
    have hin : t.child? node side ∈ nodes.map some :=
      hsides ▸ List.mem_map_of_mem (hall side child hside)
    simpa [hside] using hin
  refine ⟨?_, List.nodup_cons.mpr ⟨hnot, T.nodup⟩, fun v => ?_, ?_, ?_, ?_⟩
  · cases T.linked with
    | enter link below =>
      apply (Trail.finish link below).enters
      intro v hv parent hparent
      cases Option.some.inj hparent
      exact hchild v hv
  · rw [mark_self_iff hlt, T.entered, List.mem_cons]
  · apply childrenFirst_enters
    refine ⟨fun side child hside => Or.inl (hmem side child hside), ?_⟩
    apply ChildrenFirst.mono (show t.ChildrenFirst _ rest from T.childrenFirst)
    intro v hv
    exact hv.imp_right fun hv => Or.inr ((hfinished v).mpr hv)
  · simpa only [hfinished] using T.closed
  · simpa only [hfinished] using T.acyclic

/-- The search has come this far for some paths and along some trail. -/
def Searched (t : Tree) (marks : Array Mark) (tasks : List Task) : Prop :=
  t.Reached marks tasks ∧ ∃ trail, t.Tracked marks tasks trail

theorem searched_start {t : Tree} (h : 0 < t.size) :
    t.Searched (Array.replicate t.size .fresh) [.enter 0] :=
  ⟨reached_start h, [], tracked_start t⟩

theorem searched_step {t : Tree} (marks : Array Mark) (task : Task) (rest : List Task) (s : Search)
    (h : t.Searched marks (task :: rest)) (hs : t.step marks rest task = .ok s) :
    t.Searched s.marks s.tasks := by
  refine ⟨reached_step marks task rest s h.1 hs, ?_⟩
  obtain ⟨_, trail, T⟩ := h
  cases task with
  | finish node =>
    rw [step_finish_ok hs]
    exact T.step_finish
  | enter node =>
    obtain ⟨hfresh, children, hc, rfl⟩ := step_enter_ok hs
    exact ⟨node :: trail, T.step_enter hfresh hc⟩

end TreeEnsemble.Tree
