import TreeEnsemble.Proofs.Tree.Search

/-!
The check of a tree's structure decides well-formedness: what a step of the search keeps holds at
its end, and in a well-formed tree no step is refused.
-/

namespace TreeEnsemble.Tree

/-- What every step keeps holds at the end of a search, or at the step that ends it early. -/
theorem explore_cases {t : Tree} {P : Array Mark → List Task → Prop}
    (hstep : ∀ marks task rest s, P marks (task :: rest) → t.step marks rest task = .ok s →
      P s.marks s.tasks)
    {marks : Array Mark} {tasks : List Task} (h : P marks tasks) :
    (∃ final, t.explore marks tasks = .ok final ∧ P final []) ∨
      ∃ last task rest e, P last (task :: rest) ∧ t.step last rest task = .error e ∧
        t.explore marks tasks = .error e := by
  induction marks, tasks using Tree.explore.induct t with
  | case1 marks => exact Or.inl ⟨marks, by rw [explore]; rfl, h⟩
  | case2 marks task rest next hs ih =>
    rcases ih (hstep marks task rest next h hs) with
      ⟨final, hf, hp⟩ | ⟨last, task', rest', e, hp, he, hx⟩
    · exact Or.inl ⟨final, by rw [explore, hs]; exact hf, hp⟩
    · exact Or.inr ⟨last, task', rest', e, hp, he, by rw [explore, hs]; exact hx⟩
  | case3 marks task rest e hs => exact Or.inr ⟨marks, task, rest, e, h, hs, by rw [explore, hs]⟩

/-- The search has come this far for some paths. -/
def Reached (t : Tree) (marks : Array Mark) (tasks : List Task) : Prop :=
  ∃ done todo, t.Explored marks tasks done todo

theorem reached_step {t : Tree} (marks : Array Mark) (task : Task) (rest : List Task) (s : Search)
    (h : t.Reached marks (task :: rest)) (hs : t.step marks rest task = .ok s) :
    t.Reached s.marks s.tasks := by
  obtain ⟨done, todo, E⟩ := h
  cases task with
  | finish node =>
    rw [step_finish_ok hs]
    exact ⟨done, todo, E.step_finish⟩
  | enter node =>
    obtain ⟨hfresh, children, hc, rfl⟩ := step_enter_ok hs
    exact E.step_enter hfresh hc

theorem Explored.paths_eq {t : Tree} {marks : Array Mark} {done todo : List (List Side)}
    (E : t.Explored marks [] done todo) {path path' : List Side} {node : Nat}
    (h : t.follow 0 path = some node) (h' : t.follow 0 path' = some node) : path = path' := by
  obtain rfl : todo = [] := List.map_eq_nil_iff.mp E.waiting
  exact E.distinct path (E.mem_done h) path' (E.mem_done h') (h.trans h'.symm)

/-- A finished search has entered the nodes that are reached. -/
theorem Explored.reaches_iff {t : Tree} {marks : Array Mark} {done todo : List (List Side)}
    (E : t.Explored marks [] done todo) {node : Nat} (hn : node < t.size) :
    marks[node]? ≠ some .fresh ↔ t.Reaches node := by
  obtain rfl : todo = [] := List.map_eq_nil_iff.mp E.waiting
  constructor
  · intro hm
    obtain ⟨path, _, hp⟩ := E.covered node hn hm
    exact ⟨path, hp⟩
  · rintro ⟨path, hp⟩
    obtain ⟨v, _, hv, hmark⟩ := E.marked path (E.mem_done hp)
    cases Option.some.inj (hv.symm.trans hp)
    exact hmark

theorem onePath_of_explored {t : Tree} {marks : Array Mark} {done todo : List (List Side)}
    (E : t.Explored marks [] done todo) (hall : ∀ node < t.size, marks[node]? ≠ some .fresh) :
    ∀ node < t.size, ∃! path, t.follow 0 path = some node := by
  intro node hn
  obtain ⟨path, hp⟩ := (E.reaches_iff hn).mp (hall node hn)
  exact ⟨path, hp, fun path' hp' => E.paths_eq hp' hp⟩

theorem children_of_explored {t : Tree} {marks : Array Mark} {done todo : List (List Side)}
    (columns : ∀ c, t.columnSize c = t.size) (E : t.Explored marks [] done todo)
    (hall : ∀ node < t.size, marks[node]? ≠ some .fresh) :
    ∀ node side child, t.child? node side = some child → child < t.size := by
  intro node side child hc
  obtain rfl : todo = [] := List.map_eq_nil_iff.mp E.waiting
  have hn : node < t.size := by
    rw [← size_leaf columns]
    exact (Array.getElem?_eq_some_iff.mp (split_of_child? hc)).1
  obtain ⟨path, _, hf⟩ := E.covered node hn (hall node hn)
  have hext : t.follow 0 (path ++ [side]) = some child := by rw [follow_snoc, hf]; exact hc
  obtain ⟨v, hv, hf', _⟩ := E.marked _ (E.mem_done hext)
  cases Option.some.inj (hf'.symm.trans hext)
  exact hv

theorem Unshared.child_ne {t : Tree} (h : t.Unshared) {node child : Nat} {side : Side}
    (hn : t.Reaches node) (hc : t.child? node side = some child) : child ≠ node := by
  rintro rfl
  obtain ⟨path, hp⟩ := hn
  have hext : t.follow 0 (path ++ [side]) = some child := by rw [follow_snoc, hp]; exact hc
  have := congrArg List.length (h.paths _ _ _ hp hext)
  simp at this

theorem Unshared.childTasks {t : Tree} (h : t.Unshared) {node : Nat} (hn : node < t.size)
    (hp : t.Reaches node) : ∃ tasks, t.childTasks node = .ok tasks := by
  rcases leaf_or_split h.columns hn with hl | ⟨_, hs⟩
  · exact ⟨[], childTasks_leaf hl⟩
  · obtain ⟨l, hl⟩ := hs .left
    obtain ⟨r, hr⟩ := hs .right
    have hbl := h.children node .left l hl
    have hbr := h.children node .right r hr
    refine ⟨[.enter l, .enter r], ?_⟩
    rw [childTasks_split hl hr, if_neg (not_or.mpr ⟨h.child_ne hp hl, h.child_ne hp hr⟩),
      if_neg (by omega), if_neg (by omega)]

/-- The search of a tree without shared nodes is never refused: the path of the next task was not
entered yet, and no other path leads to its node. -/
theorem Unshared.step {t : Tree} (h : t.Unshared) {marks : Array Mark} {task : Task}
    {rest : List Task} (hr : t.Reached marks (task :: rest)) :
    ∃ s, t.step marks rest task = .ok s := by
  obtain ⟨done, todo, E⟩ := hr
  have hn := E.inBounds task List.mem_cons_self
  cases task with
  | finish node =>
    have hm : node < marks.size := by rw [E.size]; exact hn
    exact ⟨_, step_finish_of_lt hm rest⟩
  | enter node =>
    obtain ⟨path', more, rfl, hpath', _⟩ := List.map_eq_cons_iff.mp E.waiting
    have hfresh : marks[node]? = some .fresh := by
      -- a node that was entered has a path in `done`, and the task has one in `todo`
      by_contra hf
      obtain ⟨path, hp, hpath⟩ := E.covered node hn hf
      have he : path' = path := h.paths _ _ _ hpath' hpath
      exact E.disjoint path' List.mem_cons_self (he ▸ hp)
    obtain ⟨children, hc⟩ := h.childTasks hn ⟨path', hpath'⟩
    refine ⟨⟨marks.setIfInBounds node .entered, children ++ .finish node :: rest⟩, ?_⟩
    rw [step_enter_of_fresh hfresh]
    exact bind_eq_ok_iff.mpr ⟨children, hc, rfl⟩

theorem childTasks_ne_fault {t : Tree} (columns : ∀ c, t.columnSize c = t.size) {node : Nat}
    (hn : node < t.size) (fault : Fault) : t.childTasks node ≠ .error (.fault fault) := by
  rcases leaf_or_split columns hn with hl | ⟨_, hs⟩
  · rw [childTasks_leaf hl]
    intro he
    cases he
  · obtain ⟨l, hl⟩ := hs .left
    obtain ⟨r, hr⟩ := hs .right
    rw [childTasks_split hl hr]
    split
    · exact fail_ne_fault
    · split
      · exact fail_ne_fault
      · split
        · exact fail_ne_fault
        · intro he
          cases he

/-- On columns of one length no step of the search reads or writes out of bounds. -/
theorem step_ne_fault {t : Tree} (columns : ∀ c, t.columnSize c = t.size) {marks : Array Mark}
    {task : Task} {rest : List Task} (hr : t.Reached marks (task :: rest)) (fault : Fault) :
    t.step marks rest task ≠ .error (.fault fault) := by
  obtain ⟨done, todo, E⟩ := hr
  have hn := E.inBounds task List.mem_cons_self
  cases task with
  | finish node =>
    have hm : node < marks.size := by rw [E.size]; exact hn
    rw [step_finish_of_lt hm]
    intro he
    cases he
  | enter node =>
    have hm : node < marks.size := by rw [E.size]; exact hn
    cases hv : marks[node] with
    | entered =>
      simp only [Tree.step, fetch_of_lt hm, hv, lift_ok, ok_bind]
      exact fail_ne_fault
    | finished =>
      simp only [Tree.step, fetch_of_lt hm, hv, lift_ok, ok_bind]
      exact fail_ne_fault
    | fresh =>
      rw [step_enter_of_fresh (Array.getElem?_eq_some_iff.mpr ⟨hm, hv⟩)]
      intro he
      rcases bind_eq_error_iff.mp he with he | ⟨_, _, he⟩
      · exact childTasks_ne_fault columns hn fault he
      · cases he

theorem mem_columns (c : Column) : c ∈ Column.all := by
  cases c <;> decide

theorem checkColumns_ok_iff {t : Tree} :
    t.checkColumns = .ok () ↔ ∀ c, t.columnSize c = t.size := by
  unfold checkColumns
  split
  next c hc =>
    have hne := List.find?_some hc
    simp only [bne_iff_ne] at hne
    exact ⟨fun h => absurd h fail_ne_ok, fun h => absurd (h c) hne⟩
  next hnone =>
    refine ⟨fun _ c => ?_, fun _ => rfl⟩
    simpa using List.find?_eq_none.mp hnone c (mem_columns c)

theorem checkBins_ok_iff {t : Tree} :
    t.checkBins = .ok () ↔ (t.thresholdBins.size = 0 ∧ t.zeroBins.size = 0) ∨
      (t.thresholdBins.size = t.size ∧ t.zeroBins.size = t.size) := by
  unfold checkBins
  simp only
  split
  next h => exact ⟨fun e => absurd e fail_ne_ok, fun e => by omega⟩
  next h => exact ⟨fun _ => by omega, fun _ => rfl⟩

theorem noFresh_iff {marks : Array Mark} :
    marks.findIdx? (· == .fresh) = none ↔ ∀ node < marks.size, marks[node]? ≠ some .fresh := by
  rw [Array.findIdx?_eq_none_iff]
  constructor
  · intro h node _ he
    exact absurd (h .fresh (Array.mem_of_getElem? he)) (by decide)
  · intro h m hm
    obtain ⟨i, hi, rfl⟩ := Array.mem_iff_getElem.mp hm
    simpa [hi] using h i hi

theorem reached_start {t : Tree} (h : 0 < t.size) :
    t.Reached (Array.replicate t.size .fresh) [.enter 0] :=
  ⟨[], [[]], explored_start h⟩

theorem explore_sound {t : Tree} (columns : ∀ c, t.columnSize c = t.size) (h : 0 < t.size)
    {marks : Array Mark} (he : t.explore (Array.replicate t.size .fresh) [.enter 0] = .ok marks)
    (hf : marks.findIdx? (· == .fresh) = none) :
    (∀ node side child, t.child? node side = some child → child < t.size) ∧
      ∀ node < t.size, ∃! path, t.follow 0 path = some node := by
  rcases explore_cases reached_step (reached_start h) with
    ⟨final, hx, done, todo, E⟩ | ⟨_, _, _, _, _, _, hx⟩
  · cases Except.ok.inj (hx.symm.trans he)
    have hall := E.size ▸ noFresh_iff.mp hf
    exact ⟨children_of_explored columns E hall, onePath_of_explored E hall⟩
  · cases hx.symm.trans he

theorem Unshared.explore {t : Tree} (h : t.Unshared) (hpos : 0 < t.size) :
    ∃ marks, t.explore (Array.replicate t.size .fresh) [.enter 0] = .ok marks ∧
      marks.size = t.size ∧ ∀ node < t.size, marks[node]? ≠ some .fresh ↔ t.Reaches node := by
  rcases explore_cases reached_step (reached_start hpos) with
    ⟨final, hx, done, todo, E⟩ | ⟨last, task, rest, e, hr, hs, _⟩
  · exact ⟨final, hx, E.size, fun node hn => E.reaches_iff hn⟩
  · obtain ⟨s, hok⟩ := h.step hr
    cases hok.symm.trans hs

/-- Without shared nodes the check reports the first node that is not reached, and nothing else. -/
theorem Unshared.validate_cases {t : Tree} (h : t.Unshared) (hpos : 0 < t.size)
    (hbins : t.checkBins = .ok ()) :
    (t.validate = .ok () ∧ ∀ node < t.size, t.Reaches node) ∨
      ∃ node < t.size, t.validate = fail (.unreachable node) ∧ ¬t.Reaches node ∧
        ∀ v < node, t.Reaches v := by
  obtain ⟨marks, he, hsize, hmarks⟩ := h.explore hpos
  have hcolumns := checkColumns_ok_iff.mpr h.columns
  have hne : ¬t.size = 0 := by omega
  cases hfind : marks.findIdx? (· == .fresh) with
  | none =>
    have hrun : t.validate = .ok () := by
      simp only [validate, hcolumns, hbins, ok_bind, if_neg hne, he, hfind, pure_eq_ok]
    refine Or.inl ⟨hrun, fun node hn => (hmarks node hn).mp ?_⟩
    exact noFresh_iff.mp hfind node (hsize ▸ hn)
  | some node =>
    have hrun : t.validate = fail (.unreachable node) := by
      simp only [validate, hcolumns, hbins, ok_bind, if_neg hne, he, hfind]
    obtain ⟨hn, hfresh, hfirst⟩ := Array.findIdx?_eq_some_iff_getElem.mp hfind
    have hin : node < t.size := hsize ▸ hn
    refine Or.inr ⟨node, hin, hrun, fun hreach => ?_, fun v hv => ?_⟩
    · apply (hmarks node hin).mpr hreach
      simpa [hn] using hfresh
    · apply (hmarks v (by omega)).mp
      have hv' : v < marks.size := by omega
      simpa [hv'] using hfirst v hv

theorem validate_of_wellFormed {t : Tree} (h : t.WellFormed) : t.validate = .ok () := by
  rcases h.unshared.validate_cases h.nonempty (checkBins_ok_iff.mpr h.bins) with
    ⟨hok, _⟩ | ⟨node, hn, _, hnot, _⟩
  · exact hok
  · obtain ⟨path, hp, _⟩ := h.onePath node hn
    exact absurd ⟨path, hp⟩ hnot

theorem wellFormed_of_validate {t : Tree} (h : t.validate = .ok ()) : t.WellFormed := by
  obtain ⟨_, hcolumns, h⟩ := bind_eq_ok_iff.mp h
  obtain ⟨_, hbins, h⟩ := bind_eq_ok_iff.mp h
  have columns := checkColumns_ok_iff.mp hcolumns
  split at h
  next => exact absurd h fail_ne_ok
  next hn =>
    have hpos : 0 < t.size := by omega
    obtain ⟨marks, he, h⟩ := bind_eq_ok_iff.mp h
    split at h
    next => exact absurd h fail_ne_ok
    next hf =>
      obtain ⟨children, onePath⟩ := explore_sound columns hpos he hf
      exact ⟨columns, hpos, checkBins_ok_iff.mp hbins, children, onePath⟩

theorem validate_ne_fault (t : Tree) (fault : Fault) : t.validate ≠ .error (.fault fault) := by
  intro h
  rcases bind_eq_error_iff.mp h with h | ⟨_, hcolumns, h⟩
  · unfold checkColumns at h
    split at h <;> nomatch h
  rcases bind_eq_error_iff.mp h with h | ⟨_, _, h⟩
  · simp only [checkBins] at h
    split at h <;> nomatch h
  have columns := checkColumns_ok_iff.mp hcolumns
  split at h
  next => nomatch h
  next hn =>
    have hstart := reached_start (show 0 < t.size by omega)
    rcases bind_eq_error_iff.mp h with h | ⟨_, _, h⟩
    · rcases explore_cases reached_step hstart with ⟨_, hx, _⟩ | ⟨_, _, _, e, hr, hs, hx⟩
      · cases hx.symm.trans h
      · cases Except.error.inj (hx.symm.trans h)
        exact step_ne_fault columns hr fault hs
    · split at h <;> nomatch h

theorem explore_congr {t u : Tree} (h : ∀ node, t.childTasks node = u.childTasks node)
    (marks : Array Mark) (tasks : List Task) : t.explore marks tasks = u.explore marks tasks := by
  have hstep : ∀ marks rest task, t.step marks rest task = u.step marks rest task := by
    intro marks rest task
    cases task with
    | finish node => rfl
    | enter node => simp only [step, h node]
  induction marks, tasks using Tree.explore.induct t with
  | case1 marks => rw [explore, explore]
  | case2 marks task rest next hs ih =>
    rw [explore, hs, explore, ← hstep, hs]
    exact ih
  | case3 marks task rest e hs => rw [explore, hs, explore, ← hstep, hs]

/-- The tree with other links. -/
def withLinks (t : Tree) (left right : Array UInt32) : Tree :=
  { t with left := left, right := right }

/-- Links of leaves are not looked at. -/
theorem validate_withLinks {t : Tree} {left right : Array UInt32}
    (hl : left.size = t.left.size) (hr : right.size = t.right.size)
    (hsplit : ∀ node : Nat, t.leaf[node]? = some false →
      left[node]? = t.left[node]? ∧ right[node]? = t.right[node]?) :
    (t.withLinks left right).validate = t.validate := by
  have hsize : ∀ c, (t.withLinks left right).columnSize c = t.columnSize c := by
    intro c
    cases c with
    | left => exact hl
    | right => exact hr
    | _ => rfl
  have htasks : ∀ node, (t.withLinks left right).childTasks node = t.childTasks node := by
    intro node
    have hleaf : (t.withLinks left right).isLeaf node = t.isLeaf node := rfl
    simp only [childTasks, hleaf]
    cases hv : t.isLeaf node with
    | error e => rfl
    | ok leaf =>
      cases leaf with
      | true => rfl
      | false =>
        obtain ⟨hleft, hright⟩ := hsplit node (fetch_eq_ok_iff.mp hv)
        have hlc : (t.withLinks left right).leftChild node = t.leftChild node := by
          simp only [leftChild, fetch, withLinks, hleft]
        have hrc : (t.withLinks left right).rightChild node = t.rightChild node := by
          simp only [rightChild, fetch, withLinks, hright]
        rw [hlc, hrc]
        rfl
  have hcolumns : (t.withLinks left right).checkColumns = t.checkColumns := by
    simp only [checkColumns, hsize]
    rfl
  simp only [validate, hcolumns, explore_congr htasks]
  rfl

/-- The check accepts the well-formed trees and no others. It ends on every tree, malformed and
cyclic ones included, without a read or write out of bounds, and its answer does not depend on
what stands in the links of leaves. -/
theorem validate_decides_wellFormed (t : Tree) :
    (t.validate = .ok () ↔ t.WellFormed) ∧
      (t.validate = .ok () ∨ ∃ defect, t.validate = fail defect) ∧
      ∀ left right : Array UInt32, left.size = t.left.size → right.size = t.right.size →
        (∀ node : Nat, t.leaf[node]? = some false →
          left[node]? = t.left[node]? ∧ right[node]? = t.right[node]?) →
        (t.withLinks left right).validate = t.validate := by
  refine ⟨⟨wellFormed_of_validate, validate_of_wellFormed⟩, ?_, fun left right hl hr hsplit =>
    validate_withLinks hl hr hsplit⟩
  cases h : t.validate with
  | ok u => exact Or.inl rfl
  | error e =>
    cases e with
    | fault fault => exact absurd h (validate_ne_fault t fault)
    | error defect => exact Or.inr ⟨defect, rfl⟩

/-- A root with a leaf on its left and a second split on its right. -/
def staircase : Tree where
  features := #[0, 0, 1, 0, 0]
  thresholds := #[⟨0x3f000000⟩, .zero, ⟨0xbf800000⟩, .zero, .zero]
  thresholdBins := #[]
  zeroBins := #[]
  comparisons := #[.lt, .lt, .ge, .lt, .lt]
  left := #[1, 0, 3, 0, 0]
  right := #[2, 0, 4, 0, 0]
  defaultLeft := #[true, false, false, false, false]
  missingAsZero := #[false, false, true, false, false]
  leaf := #[false, true, false, true, true]
  values := #[.zero, ⟨0x3f800000⟩, .zero, ⟨0xbf800000⟩, ⟨0x40000000⟩]

theorem validate_staircase : staircase.validate = .ok () := by decide +kernel

/-- Links of leaves that name no node, or close a cycle, are accepted. -/
theorem validate_staircase_wildLinks :
    (staircase.withLinks #[1, 9, 3, 0, 3] #[2, 2, 4, 4294967295, 0]).validate = .ok () := by
  refine ((validate_decides_wellFormed staircase).2.2 #[1, 9, 3, 0, 3] #[2, 2, 4, 4294967295, 0]
    rfl rfl fun node h => ?_).trans validate_staircase
  match node with
  | 0 | 2 => exact ⟨rfl, rfl⟩
  | 1 | 3 | 4 => exact absurd h (by decide)
  | n + 5 => simp [staircase] at h

end TreeEnsemble.Tree
