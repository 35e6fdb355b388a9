import TreeEnsemble.Proofs.Tree.Trail

/-!
What the errors of the tree check say. The lengths of the columns come first, then those of the
codes, then the number of nodes; an error of the search names a node on which the tree really has
that defect.
-/

namespace TreeEnsemble.Tree

/-- The first column, in the order of their list, that does not have one entry for each node. -/
def FirstMisfit (t : Tree) (c : Column) : Prop :=
  ∃ before after, Column.all = before ++ c :: after ∧
    (∀ d ∈ before, t.columnSize d = t.size) ∧ t.columnSize c ≠ t.size

def BinsFit (t : Tree) : Prop :=
  (t.thresholdBins.size = 0 ∧ t.zeroBins.size = 0) ∨
    (t.thresholdBins.size = t.size ∧ t.zeroBins.size = t.size)

/-- The tree has the defect that an error names. -/
def Shows (t : Tree) : TreeError → Prop
  | .columnLength c length nodes => length = t.columnSize c ∧ nodes = t.size ∧ t.FirstMisfit c
  | .binLengths thresholdBins zeroBins nodes =>
    thresholdBins = t.thresholdBins.size ∧ zeroBins = t.zeroBins.size ∧ nodes = t.size ∧
      (∀ c, t.columnSize c = t.size) ∧ ¬t.BinsFit
  | .noNodes => (∀ c, t.columnSize c = t.size) ∧ t.BinsFit ∧ t.size = 0
  | .selfLoop node => t.Reaches node ∧ ∃ side, t.child? node side = some node
  | .childOutOfBounds node side child nodes =>
    t.Reaches node ∧ t.child? node side = some child ∧ t.size ≤ child ∧ nodes = t.size ∧
      (side = .right → ∃ l < t.size, t.child? node .left = some l)
  | .cycle node => t.Reaches node ∧ t.OnCycle node
  | .reachedTwice node =>
    (∃ path path', path ≠ path' ∧ t.follow 0 path = some node ∧ t.follow 0 path' = some node) ∧
      ∀ path v, t.follow node path = some v → ¬t.OnCycle v
  | .unreachable node =>
    node < t.size ∧ ¬t.Reaches node ∧ (∀ v < node, t.Reaches v) ∧
      ∀ v, t.Reaches v → ∃! path, t.follow 0 path = some v

theorem checkColumns_cases (t : Tree) :
    (t.checkColumns = .ok () ∧ ∀ c, t.columnSize c = t.size) ∨
      ∃ c, t.checkColumns = fail (.columnLength c (t.columnSize c) t.size) ∧ t.FirstMisfit c := by
  cases hfind : Column.all.find? fun c => t.columnSize c != t.size with
  | none =>
    have hok : t.checkColumns = .ok () := by rw [checkColumns, hfind]; rfl
    exact Or.inl ⟨hok, checkColumns_ok_iff.mp hok⟩
  | some c =>
    obtain ⟨hne, before, after, hall, hbefore⟩ := List.find?_eq_some_iff_append.mp hfind
    refine Or.inr ⟨c, by rw [checkColumns, hfind], before, after, hall, fun d hd => ?_, ?_⟩
    · simpa using hbefore d hd
    · simpa using hne

/-- At most one column is the first misfit. -/
theorem FirstMisfit.unique {t : Tree} {c d : Column} (hc : t.FirstMisfit c)
    (hd : t.FirstMisfit d) : c = d := by
  have hfind : ∀ {c}, t.FirstMisfit c →
      Column.all.find? (fun c => t.columnSize c != t.size) = some c := by
    rintro c ⟨before, after, hall, hbefore, hne⟩
    apply List.find?_eq_some_iff_append.mpr
    refine ⟨by simpa using hne, before, after, hall, fun d hd => ?_⟩
    simpa using hbefore d hd
  exact Option.some.inj ((hfind hc).symm.trans (hfind hd))

theorem checkBins_cases (t : Tree) :
    (t.checkBins = .ok () ∧ t.BinsFit) ∨
      (t.checkBins = fail (.binLengths t.thresholdBins.size t.zeroBins.size t.size) ∧
        ¬t.BinsFit) := by
  by_cases hfit : t.BinsFit
  · exact Or.inl ⟨checkBins_ok_iff.mpr hfit, hfit⟩
  · refine Or.inr ⟨?_, hfit⟩
    unfold BinsFit at hfit
    rw [checkBins, if_pos (by omega)]

/-- Only the entering of a node is refused: it was entered before, or its links are bad. -/
theorem step_fail {t : Tree} {marks : Array Mark} {rest : List Task} {task : Task} {e : TreeError}
    (h : t.step marks rest task = fail e) :
    ∃ node, task = .enter node ∧ ((marks[node]? = some .entered ∧ e = .cycle node) ∨
      (marks[node]? = some .finished ∧ e = .reachedTwice node) ∨ t.childTasks node = fail e) := by
  cases task with
  | finish node =>
    rcases bind_eq_error_iff.mp h with h | ⟨_, _, h⟩
    · exact absurd h lift_ne_fail
    · nomatch h
  | enter node =>
    refine ⟨node, rfl, ?_⟩
    rcases bind_eq_error_iff.mp h with h | ⟨m, hm, h⟩
    · exact absurd h lift_ne_fail
    have hm := fetch_eq_ok_iff.mp (lift_eq_ok_iff.mp hm)
    cases m with
    | entered =>
      cases h
      exact Or.inl ⟨hm, rfl⟩
    | finished =>
      cases h
      exact Or.inr (Or.inl ⟨hm, rfl⟩)
    | fresh =>
      rcases bind_eq_error_iff.mp h with h | ⟨_, _, h⟩
      · exact absurd h lift_ne_fail
      rcases bind_eq_error_iff.mp h with h | ⟨_, _, h⟩
      · exact Or.inr (Or.inr h)
      · nomatch h

theorem shows_of_childTasks {t : Tree} (columns : ∀ c, t.columnSize c = t.size) {node : Nat}
    {e : TreeError} (hn : node < t.size) (hreach : t.Reaches node)
    (h : t.childTasks node = fail e) : t.Shows e := by
  rcases leaf_or_split columns hn with hl | ⟨_, hs⟩
  · cases (childTasks_leaf hl).symm.trans h
  obtain ⟨l, hl⟩ := hs .left
  obtain ⟨r, hr⟩ := hs .right
  rw [childTasks_split hl hr] at h
  split at h
  next hself =>
    cases h
    rcases hself with rfl | rfl
    · exact ⟨hreach, .left, hl⟩
    · exact ⟨hreach, .right, hr⟩
  next =>
    split at h
    next hbl =>
      cases h
      exact ⟨hreach, hl, hbl, rfl, nofun⟩
    next hbl =>
      split at h
      next hbr =>
        cases h
        exact ⟨hreach, hr, hbr, rfl, fun _ => ⟨l, by omega, hl⟩⟩
      next => nomatch h

/-- A search that is refused ends at a node with the defect. -/
theorem shows_of_step {t : Tree} (columns : ∀ c, t.columnSize c = t.size) {marks : Array Mark}
    {task : Task} {rest : List Task} {e : TreeError} (hsearch : t.Searched marks (task :: rest))
    (h : t.step marks rest task = fail e) : t.Shows e := by
  obtain ⟨⟨done, todo, E⟩, trail, T⟩ := hsearch
  obtain ⟨node, rfl, hcases⟩ := step_fail h
  have hn : node < t.size := E.inBounds _ List.mem_cons_self
  obtain ⟨path, more, rfl, hpath, _⟩ := List.map_eq_cons_iff.mp E.waiting
  rcases hcases with ⟨hm, rfl⟩ | ⟨hm, rfl⟩ | hchildren
  · exact ⟨⟨path, hpath⟩, T.onCycle_of_entered hm⟩
  · obtain ⟨path', hdone, hpath'⟩ := E.covered node hn (by simp [hm])
    have hne : path ≠ path' := by
      rintro rfl
      exact E.disjoint path List.mem_cons_self hdone
    exact ⟨⟨path, path', hne, hpath, hpath'⟩, fun _ _ hv => T.acyclic_below hm hv⟩
  · exact shows_of_childTasks columns hn ⟨path, hpath⟩ hchildren

/-- The first node that a finished search left fresh is the first one that is not reached. -/
theorem shows_of_fresh {t : Tree} {marks : Array Mark} {done todo : List (List Side)} {node : Nat}
    (E : t.Explored marks [] done todo) (h : marks.findIdx? (· == .fresh) = some node) :
    t.Shows (.unreachable node) := by
  obtain ⟨hn, hfresh, hfirst⟩ := Array.findIdx?_eq_some_iff_getElem.mp h
  have hin : node < t.size := E.size ▸ hn
  refine ⟨hin, fun hreach => ?_, fun v hv => ?_, fun v hreach => ?_⟩
  · apply (E.reaches_iff hin).mpr hreach
    simpa [hn] using hfresh
  · apply (E.reaches_iff (by omega)).mp
    have hv' : v < marks.size := by omega
    simpa [hv'] using hfirst v hv
  · obtain ⟨path, hpath⟩ := hreach
    exact ⟨path, hpath, fun path' hpath' => E.paths_eq hpath' hpath⟩

theorem shows_of_validate {t : Tree} {e : TreeError} (h : t.validate = fail e) : t.Shows e := by
  rcases checkColumns_cases t with ⟨hcolumns, columns⟩ | ⟨c, hfail, hfirst⟩
  swap
  · rw [validate, hfail, fail_bind] at h
    cases h
    exact ⟨rfl, rfl, hfirst⟩
  rw [validate, hcolumns, ok_bind] at h
  rcases checkBins_cases t with ⟨hbins, hfit⟩ | ⟨hfail, hunfit⟩
  swap
  · rw [hfail, fail_bind] at h
    cases h
    exact ⟨rfl, rfl, rfl, columns, hunfit⟩
  rw [hbins, ok_bind] at h
  split at h
  next hempty =>
    cases h
    exact ⟨columns, hfit, hempty⟩
  next hne =>
    rcases explore_cases searched_step (searched_start (show 0 < t.size by omega)) with
      ⟨marks, hmarks, ⟨done, todo, E⟩, _⟩ | ⟨last, task, rest, failure, hlast, hs, hx⟩
    · rw [hmarks, ok_bind] at h
      split at h
      next node hnode =>
        cases h
        exact shows_of_fresh E hnode
      next => cases h
    · rw [hx, error_bind] at h
      cases h
      exact shows_of_step columns hlast hs

/-- Every error of the tree check names a defect of the tree, and the checks before the search
report theirs in a fixed order: the first column of another length, then codes that do not fit,
then an empty tree. -/
theorem validate_names_defect (t : Tree) :
    (∀ c, t.FirstMisfit c ↔ t.validate = fail (.columnLength c (t.columnSize c) t.size)) ∧
      ((∀ c, t.columnSize c = t.size) →
        (¬t.BinsFit ↔
          t.validate = fail (.binLengths t.thresholdBins.size t.zeroBins.size t.size)) ∧
        (t.BinsFit → (t.size = 0 ↔ t.validate = fail .noNodes))) ∧
      ∀ e, t.validate = fail e → t.Shows e := by
  refine ⟨fun c => ⟨fun hc => ?_, fun h => (shows_of_validate h).2.2⟩,
    fun columns => ⟨⟨fun hunfit => ?_, fun h => (shows_of_validate h).2.2.2.2⟩,
      fun hfit => ⟨fun hempty => ?_, fun h => (shows_of_validate h).2.2⟩⟩,
    fun e h => shows_of_validate h⟩
  · rcases checkColumns_cases t with ⟨_, columns⟩ | ⟨d, hfail, hd⟩
    · obtain ⟨_, _, _, _, hne⟩ := hc
      exact absurd (columns c) hne
    · cases hc.unique hd
      rw [validate, hfail, fail_bind]
  · rcases checkBins_cases t with ⟨_, hfit⟩ | ⟨hfail, _⟩
    · exact absurd hfit hunfit
    · rw [validate, checkColumns_ok_iff.mpr columns, ok_bind, hfail, fail_bind]
  · rw [validate, checkColumns_ok_iff.mpr columns, ok_bind, checkBins_ok_iff.mpr hfit, ok_bind,
      if_pos hempty]

/-- Two splits under the root share their left child. -/
def diamond : Tree where
  features := #[0, 0, 0, 0, 0, 0]
  thresholds := #[.zero, .zero, .zero, .zero, .zero, .zero]
  thresholdBins := #[]
  zeroBins := #[]
  comparisons := #[.lt, .lt, .lt, .lt, .lt, .lt]
  left := #[1, 3, 3, 0, 0, 0]
  right := #[2, 4, 5, 0, 0, 0]
  defaultLeft := #[true, true, true, true, true, true]
  missingAsZero := #[false, false, false, false, false, false]
  leaf := #[false, false, false, true, true, true]
  values := #[.zero, .zero, .zero, .zero, .zero, .zero]

/-- A shared node and a link back to the root are told apart. -/
theorem diamond_shows :
    diamond.validate = fail (.reachedTwice 3) ∧ diamond.Shows (.reachedTwice 3) ∧
      (diamond.withLinks #[1, 3, 0, 0, 0, 0] diamond.right).validate = fail (.cycle 0) ∧
      (diamond.withLinks #[1, 3, 0, 0, 0, 0] diamond.right).Shows (.cycle 0) := by
  have hshared : diamond.validate = fail (.reachedTwice 3) := by decide +kernel
  have hback : (diamond.withLinks #[1, 3, 0, 0, 0, 0] diamond.right).validate = fail (.cycle 0) := by
    decide +kernel
  exact ⟨hshared, (validate_names_defect _).2.2 _ hshared, hback,
    (validate_names_defect _).2.2 _ hback⟩

end TreeEnsemble.Tree
