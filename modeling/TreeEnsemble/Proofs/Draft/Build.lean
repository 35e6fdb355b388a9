import TreeEnsemble.Proofs.Draft.Links

/-!
What comes of a draft. A linked draft becomes a tree, which has at every node what the edits said
last about it; of any other draft the first node that lost its parents is reported.
-/

namespace TreeEnsemble

/-- A node of a tree is a split with the fields of a question, over two neighbouring nodes. -/
structure Tree.Asks (t : Tree) (node : Nat) (q : Question) (left : Nat) (asZero : Bool) : Prop where
  split : t.leaf[node]? = some false
  feature : t.features[node]? = some q.feature
  threshold : t.thresholds[node]? = some q.threshold
  comparison : t.comparisons[node]? = some q.comparison
  defaultLeft : t.defaultLeft[node]? = some q.defaultLeft
  leftChild : t.leftChild node = .ok left
  rightChild : t.rightChild node = .ok (left + 1)
  missingAsZero : t.missingAsZero[node]? = some asZero

namespace Draft

theorem size_toTree (d : Draft) : d.toTree.size = d.size := by
  simp [toTree, Tree.size, size]

theorem columnSize_toTree (d : Draft) (c : Column) :
    d.toTree.columnSize c = d.toTree.size := by
  cases c <;> simp [toTree, Tree.columnSize, Tree.size]

theorem column_at (d : Draft) {α : Type} (field : DraftNode → α) {i : Nat} (hi : i < d.size) :
    (d.nodes.map field)[i]? = some (field (d.nodeAt i)) := by
  have hn : d.nodes[i]? = some d.nodes[i] := Array.getElem?_eq_getElem hi
  rw [Array.getElem?_map, nodeAt, hn, Option.map_some, Option.getD_some]

theorem links_at (d : Draft) (side : Side) {i : Nat} (hi : i < d.size) :
    (d.toTree.links side)[i]? = some (UInt32.ofNat ((d.nodeAt i).link side)) := by
  cases side with
  | left => exact d.column_at (fun n => UInt32.ofNat n.left) hi
  | right => exact d.column_at (fun n => UInt32.ofNat n.right) hi

theorem Anchored.child?_toTree {d : Draft} (a : d.Anchored) (i : Nat) (side : Side) :
    d.toTree.child? i side = d.child? i side := by
  rcases Nat.lt_or_ge i d.size with hi | hi
  · have hleaf : d.toTree.leaf[i]? = some (d.nodeAt i).leaf := d.column_at (·.leaf) hi
    cases hl : (d.nodeAt i).leaf with
    | true =>
      rw [hl] at hleaf
      simp only [Tree.child?, hleaf, Draft.child?, hl, Option.some.injEq, Bool.true_eq_false,
        if_false, if_true]
    | false =>
      rw [hl] at hleaf
      have hchild := child?_of_splits hl side
      have hlt := (a.inside i side _ hchild).2
      have hsmall := a.small
      have hfits : (UInt32.ofNat ((d.nodeAt i).link side)).toNat = (d.nodeAt i).link side := by
        rw [UInt32.toNat_ofNat']
        exact Nat.mod_eq_of_lt (by omega)
      rw [hchild, Tree.child?, if_pos hleaf, d.links_at side hi, Option.map_some, hfits]
  · have hleaf : d.toTree.leaf[i]? = none :=
      Array.getElem?_eq_none (by simpa [toTree, size] using hi)
    have hfresh : d.nodeAt i = .ofValue .zero := by
      rw [nodeAt, Array.getElem?_eq_none hi, Option.getD_none]
    simp only [Tree.child?, hleaf, reduceCtorEq, Draft.child?, hfresh, if_false]
    rfl

theorem Grown.unshared {d : Draft} (g : d.Grown) : d.toTree.Unshared where
  columns := d.columnSize_toTree
  children := fun node side child h => by
    rw [g.child?_toTree] at h
    rw [size_toTree]
    exact (g.above node side child h).2
  paths := by
    -- the last link of a path is the only one to the end of the path
    have hroot : ∀ path side, d.toTree.follow 0 (path ++ [side]) ≠ some 0 := by
      intro path side h
      obtain ⟨mid, _, hchild⟩ := Tree.follow_snoc_eq_some h
      rw [g.child?_toTree] at hchild
      have := g.above mid side 0 hchild
      omega
    intro path
    induction path using List.reverseRecOn with
    | nil =>
      intro path' node h h'
      cases Option.some.inj h
      rcases List.eq_nil_or_concat path' with rfl | ⟨init, side, rfl⟩
      · rfl
      · exact absurd (by rwa [List.concat_eq_append] at h') (hroot init side)
    | append_singleton path side ih =>
      intro path' node h h'
      rcases List.eq_nil_or_concat path' with rfl | ⟨init, side', rfl⟩
      · cases Option.some.inj h'
        exact absurd h (hroot path side)
      · rw [List.concat_eq_append] at h' ⊢
        obtain ⟨mid, hmid, hchild⟩ := Tree.follow_snoc_eq_some h
        obtain ⟨mid', hmid', hchild'⟩ := Tree.follow_snoc_eq_some h'
        rw [g.child?_toTree] at hchild hchild'
        obtain ⟨rfl, rfl⟩ := g.unique mid mid' side side' node hchild hchild'
        rw [ih init mid hmid hmid']

/-- Parents come before their children, so a chain of parents ends at the root. -/
theorem Grown.linked_iff_reaches {d : Draft} (g : d.Grown) :
    d.Linked ↔ ∀ node < d.size, d.toTree.Reaches node := by
  constructor
  · intro hlinked node
    induction node using Nat.strongRecOn with
    | ind node ih =>
      intro hlt
      rcases Nat.eq_zero_or_pos node with rfl | hpos
      · exact ⟨[], rfl⟩
      · obtain ⟨i, side, h⟩ := hlinked node hpos hlt
        obtain ⟨habove, _⟩ := g.above i side node h
        obtain ⟨path, hpath⟩ := ih i habove (by omega)
        refine ⟨path ++ [side], ?_⟩
        rw [Tree.follow_snoc, hpath, Option.bind_some, g.child?_toTree, h]
  · intro hreach child hpos hlt
    obtain ⟨path, hpath⟩ := hreach child hlt
    rcases List.eq_nil_or_concat path with rfl | ⟨init, side, rfl⟩
    · cases Option.some.inj hpath
      omega
    · rw [List.concat_eq_append] at hpath
      obtain ⟨i, _, h⟩ := Tree.follow_snoc_eq_some hpath
      exact ⟨i, side, by rw [← g.child?_toTree, h]⟩

theorem Grown.build_cases {d : Draft} (g : d.Grown) :
    (d.Linked ∧ d.build = .ok d.toTree) ∨
      ¬d.Linked ∧ ∃ node < d.size, d.build = fail (.unreachable node) ∧
        ¬d.toTree.Reaches node ∧ ∀ v < node, d.toTree.Reaches v := by
  have hodd := g.odd
  have hpos : 0 < d.toTree.size := by
    rw [size_toTree]
    omega
  have hbins : d.toTree.checkBins = .ok () := Tree.checkBins_ok_iff.mpr (Or.inl ⟨rfl, rfl⟩)
  rw [g.linked_iff_reaches]
  rcases g.unshared.validate_cases hpos hbins with ⟨hok, hall⟩ | ⟨node, hn, hfail, hnot, hfirst⟩
  · rw [size_toTree] at hall
    refine Or.inl ⟨hall, ?_⟩
    simp only [build, Tree.checked, hok, ok_bind, pure_eq_ok]
  · rw [size_toTree] at hn
    refine Or.inr ⟨fun hall => hnot (hall node hn), node, hn, ?_, hnot, hfirst⟩
    simp only [build, Tree.checked, hfail, fail_bind]

/-- The flag that an edit gives a node. A leaf has none. -/
def Edit.flag? (node : Nat) : Edit → Option Bool
  | .missingAsZero v flag => if v = node then some flag else none
  | .leaf v _ => if v = node then some false else none
  | .root | .split _ _ => none

/-- The value that an edit gives a node. -/
def Edit.value? (node : Nat) : Edit → Option Binary32
  | .leaf v value => if v = node then some value else none
  | .root | .split _ _ | .missingAsZero _ _ => none

/-- A field of the nodes changes only where an edit has an entry for it. -/
structure Recorded {α : Type} (field : DraftNode → α) (entry : Nat → Edit → Option α) : Prop where
  unnamed : ∀ i e, e.node? ≠ some i → entry i e = none
  onto : ∀ i e size n, e.node? = some i → field (e.onto size n) = (entry i e).getD (field n)

theorem recorded_flag : Recorded (·.missingAsZero) Edit.flag? where
  unnamed := fun i e h => by
    cases e <;> simp_all [Edit.node?, Edit.flag?]
  onto := fun i e size n h => by
    cases e <;> simp_all [Edit.node?, Edit.flag?, Edit.onto, DraftNode.ofValue]

theorem recorded_value : Recorded (·.value) Edit.value? where
  unnamed := fun i e h => by
    cases e <;> simp_all [Edit.node?, Edit.value?]
  onto := fun i e size n h => by
    cases e <;> simp_all [Edit.node?, Edit.value?, Edit.onto, DraftNode.ofValue]

section

variable {α : Type} {field : DraftNode → α} {entry : Nat → Edit → Option α}

theorem Step.field_eq (recorded : Recorded field entry) {d d' : Draft} {e : Edit} {node : Nat}
    (s : d.Step d' e node) (i : Nat) :
    field (d'.nodeAt i) = (entry i e).getD (field (d.nodeAt i)) := by
  by_cases hi : i = node
  · subst hi
    rw [s.new, recorded.onto i e d.size _ s.named]
  · have hnone : entry i e = none := by
      apply recorded.unnamed
      rw [s.named]
      exact fun h => hi (Option.some.inj h).symm
    rw [s.others i hi, hnone, Option.getD_none]

/-- After a run a field has its last entry. -/
theorem Steps.field_eq (recorded : Recorded field entry) {d d' : Draft} {edits : List Edit}
    (run : d.Steps edits d') (i : Nat) :
    field (d'.nodeAt i) = (edits.filterMap (entry i)).getLastD (field (d.nodeAt i)) := by
  induction run with
  | nil => rfl
  | @cons d h d' e edits node first _ ih =>
    rw [ih, first.field_eq recorded i]
    cases hentry : entry i e with
    | none => rw [List.filterMap_cons_none hentry, Option.getD_none]
    | some x => rw [List.filterMap_cons_some hentry, Option.getD_some, List.getLastD_cons]

end

theorem nodeAt_root (i : Nat) : root.nodeAt i = .ofValue .zero := by
  cases i with
  | zero => rfl
  | succ i => simp [nodeAt, root]

theorem Step.splits_of_splits {d d' : Draft} {e : Edit} {node : Nat} (s : d.Step d' e node)
    {i : Nat} (h : d'.Splits i) : d.Splits i ∨ ∃ q, e = .split i q := by
  rcases s.child?_eq_some_iff.mp (child?_of_splits h .left) with ⟨_, hold⟩ | ⟨q, he, _⟩
  · exact Or.inl (splits_of_child? hold)
  · exact Or.inr ⟨q, he⟩

theorem Steps.splits_of_splits {d d' : Draft} {edits : List Edit} (run : d.Steps edits d') {i : Nat}
    (h : d'.Splits i) : d.Splits i ∨ ∃ q, .split i q ∈ edits := by
  induction run with
  | nil => exact Or.inl h
  | cons first _ ih =>
    rcases ih h with h | ⟨q, hq⟩
    · rcases first.splits_of_splits h with h | ⟨q, rfl⟩
      · exact Or.inl h
      · exact Or.inr ⟨q, List.mem_cons_self⟩
    · exact Or.inr ⟨q, List.mem_cons_of_mem _ hq⟩

/-- A split that is spared keeps all but its flag. -/
theorem Step.kept {d d' : Draft} {e : Edit} {node : Nat} (s : d.Step d' e node) {i : Nat}
    (h : d.Splits i) (hspares : d.Spares e) :
    ∃ flag, d'.nodeAt i = { d.nodeAt i with missingAsZero := flag } := by
  by_cases hi : i = node
  · subst hi
    have named := s.named
    rw [s.new]
    cases e with
    | root => nomatch named
    | split v q =>
      cases named
      exact absurd h (hspares i rfl)
    | missingAsZero v flag => exact ⟨flag, rfl⟩
    | leaf v value =>
      cases named
      exact absurd h (hspares i rfl)
  · exact ⟨(d.nodeAt i).missingAsZero, s.others i hi⟩

theorem Steps.kept {d d' : Draft} {edits : List Edit} (run : d.Steps edits d') {i : Nat}
    (h : d.Splits i) (hspares : d.Along Spares edits) :
    ∃ flag, d'.nodeAt i = { d.nodeAt i with missingAsZero := flag } := by
  induction run with
  | nil => exact ⟨_, rfl⟩
  | cons first _ ih =>
    obtain ⟨hfirst, hrest⟩ := first.along_iff.mp hspares
    obtain ⟨flag, hflag⟩ := first.kept h hfirst
    have hsplits : Splits _ i := (congrArg DraftNode.leaf hflag).trans h
    obtain ⟨flag', hflag'⟩ := ih hsplits hrest
    exact ⟨flag', by rw [hflag', hflag]⟩

theorem Steps.of_append {d h d' : Draft} {edits more : List Edit}
    (run : d.Steps (edits ++ more) d') (hrun : d.run edits = .ok h) : h.Steps more d' := by
  induction edits generalizing d with
  | nil =>
    cases hrun
    exact run
  | cons e edits ih =>
    cases run with
    | cons first rest =>
      rw [run_cons, first.applied] at hrun
      exact ih rest hrun

theorem Splits.lt {d : Draft} {i : Nat} (h : d.Splits i) : i < d.size := by
  by_contra hge
  have hnodes : d.nodes.size ≤ i := Nat.not_lt.mp hge
  unfold Splits nodeAt at h
  rw [Array.getElem?_eq_none hnodes] at h
  nomatch h

/-- A split that is made and then spared stands in the tree with its question and its two children,
and with the last flag of its node. -/
theorem Steps.asks {d d' h : Draft} {pre post : List Edit} {node : Nat} {q : Question}
    (run : d.Steps (pre ++ .split node q :: post) d') (g : d'.Grown) (hrun : d.run pre = .ok h)
    (hspares : d.Along Spares (pre ++ .split node q :: post)) :
    d'.toTree.Asks node q h.size (d'.nodeAt node).missingAsZero := by
  have hspares := hspares.of_append hrun
  cases run.of_append hrun with
  | @cons _ h' _ _ _ _ first rest =>
    cases first.named
    have hmade : h'.Splits node := congrArg DraftNode.leaf first.new
    obtain ⟨flag, hkept⟩ := rest.kept hmade (first.along_iff.mp hspares).2
    rw [first.new] at hkept
    have hsplits : d'.Splits node := congrArg DraftNode.leaf hkept
    have hlt := hsplits.lt
    have hchild : ∀ side, d'.toTree.child? node side = some ((d'.nodeAt node).link side) := by
      intro side
      rw [g.child?_toTree, child?_of_splits hsplits]
    have hcolumn : ∀ {α : Type} (field : DraftNode → α),
        (d'.nodes.map field)[node]? = some (field (d'.nodeAt node)) :=
      fun field => d'.column_at field hlt
    exact {
      split := (hcolumn (·.leaf)).trans (congrArg some hsplits)
      feature := (hcolumn (·.feature)).trans (by rw [hkept]; rfl)
      threshold := (hcolumn (·.threshold)).trans (by rw [hkept]; rfl)
      comparison := (hcolumn (·.comparison)).trans (by rw [hkept]; rfl)
      defaultLeft := (hcolumn (·.defaultLeft)).trans (by rw [hkept]; rfl)
      leftChild := (Tree.leftChild_of_child? (hchild .left)).trans (by rw [hkept]; rfl)
      rightChild := (Tree.rightChild_of_child? (hchild .right)).trans (by rw [hkept]; rfl)
      missingAsZero := (hcolumn fun n => n.missingAsZero && !n.leaf).trans (by
        have hleaf : (d'.nodeAt node).leaf = false := hsplits
        rw [hleaf, Bool.not_false, Bool.and_true]) }

theorem leaf_toTree_eq_some_iff {d : Draft} {i : Nat} {leaf : Bool} :
    d.toTree.leaf[i]? = some leaf ↔ i < d.size ∧ (d.nodeAt i).leaf = leaf := by
  constructor
  · intro h
    have hlt : i < d.size := by
      have := (Array.getElem?_eq_some_iff.mp h).1
      simpa [toTree, size] using this
    exact ⟨hlt, Option.some.inj ((d.column_at (·.leaf) hlt).symm.trans h)⟩
  · rintro ⟨hlt, rfl⟩
    exact d.column_at (·.leaf) hlt

theorem Steps.split_mem {d : Draft} {edits : List Edit} (run : root.Steps edits d) {i : Nat}
    (h : d.toTree.leaf[i]? = some false) : ∃ q, .split i q ∈ edits := by
  rcases run.splits_of_splits (leaf_toTree_eq_some_iff.mp h).2 with hroot | hmem
  · rw [Splits, nodeAt_root] at hroot
    cases hroot
  · exact hmem

theorem Steps.leaf_fields {d : Draft} {edits : List Edit} (run : root.Steps edits d) {i : Nat}
    (h : d.toTree.leaf[i]? = some true) :
    d.toTree.missingAsZero[i]? = some false ∧
      d.toTree.values[i]? = some ((edits.filterMap (Edit.value? i)).getLastD .zero) := by
  obtain ⟨hlt, hleaf⟩ := leaf_toTree_eq_some_iff.mp h
  have hvalue := run.field_eq recorded_value i
  rw [nodeAt_root] at hvalue
  refine ⟨(d.column_at (fun n => n.missingAsZero && !n.leaf) hlt).trans ?_, ?_⟩
  · rw [hleaf, Bool.not_true, Bool.and_false]
  · exact (d.column_at (·.value) hlt).trans (congrArg some hvalue)

theorem eq_nil_of_fits_empty {edits : List Edit} (hfits : empty.Along Fits edits)
    (hroot : .root ∉ edits) : edits = [] := by
  cases edits with
  | nil => rfl
  | cons e edits =>
    obtain ⟨hfit, _⟩ := along_cons.mp hfits
    cases e with
    | root => exact absurd List.mem_cons_self hroot
    | split node _ | missingAsZero node _ | leaf node _ =>
      have hnone : node < 0 := hfit node rfl
      omega

/-- Drafts after any edits that name their nodes. Only an empty one has no root. From the last root
on the edits give a tree exactly if none of them overwrites a split; otherwise the first node that
the root does not reach is reported. In the tree each split has the question and the children that
it was made with and the last flag that was set, and each leaf its last value and no flag. -/
theorem build_after_run {edits : List Edit} {d : Draft} (hfits : empty.Along Fits edits)
    (hrun : empty.run edits = .ok d) :
    (∀ e, d.Fits e → d.size + 1 < 2 ^ 32 → ∃ d', d.apply e = .ok d') ∧
    (.root ∉ edits → d.build = fail .noNodes) ∧
    ∀ before after, edits = before ++ .root :: after → .root ∉ after →
      ((∃ t, d.build = .ok t) ↔ root.Along Spares after) ∧
      (¬root.Along Spares after → ∃ node < d.size, d.build = fail (.unreachable node) ∧
        ¬d.toTree.Reaches node ∧ ∀ v < node, d.toTree.Reaches v) ∧
      ∀ t, d.build = .ok t → t.size = d.size ∧
        (∀ pre node q post h, after = pre ++ .split node q :: post → root.run pre = .ok h →
          t.Asks node q h.size ((after.filterMap (Edit.flag? node)).getLastD false)) ∧
        (∀ node : Nat, t.leaf[node]? = some false → ∃ q, .split node q ∈ after) ∧
        ∀ node : Nat, t.leaf[node]? = some true → t.missingAsZero[node]? = some false ∧
          t.values[node]? = some ((after.filterMap (Edit.value? node)).getLastD .zero) := by
  refine ⟨fun e he hsize => apply_ok_of_fits he hsize, fun hroot => ?_, ?_⟩
  · cases eq_nil_of_fits_empty hfits hroot
    cases hrun
    decide +kernel
  · rintro before after rfl hroot
    rw [run_append] at hrun
    obtain ⟨m, hm, hrun⟩ := bind_eq_ok_iff.mp hrun
    have hrun : root.run after = .ok d := hrun
    have hafter := (along_cons.mp (hfits.of_append hm)).2 root rfl
    have run := steps_of_run hroot hafter hrun
    have g := run.grown grown_root
    have hlinked := run.linked_iff grown_root
    rcases g.build_cases with ⟨hl, hb⟩ | ⟨hnl, node, hn, hb, hnot, hfirst⟩
    · have hspares := (hlinked.mp hl).2
      refine ⟨⟨fun _ => hspares, fun _ => ⟨_, hb⟩⟩, fun hnot => absurd hspares hnot, ?_⟩
      intro t ht
      cases Except.ok.inj (hb.symm.trans ht)
      refine ⟨d.size_toTree, ?_, fun node => run.split_mem, fun node => run.leaf_fields⟩
      rintro pre node q post h rfl hpre
      have hflag := run.field_eq recorded_flag node
      rw [nodeAt_root] at hflag
      have hasks := run.asks g hpre hspares
      rw [hflag] at hasks
      exact hasks
    · have hfails : ∀ t, d.build ≠ .ok t := by
        intro t ht
        cases hb.symm.trans ht
      refine ⟨⟨fun ⟨t, ht⟩ => absurd ht (hfails t), fun h => ?_⟩,
        fun _ => ⟨node, hn, hb, hnot, hfirst⟩, fun t ht => absurd ht (hfails t)⟩
      exact absurd (hlinked.mpr ⟨linked_root, h⟩) hnl

def lowHalf : Question := ⟨0, ⟨0x3f000000⟩, .lt, true⟩

def fromMinusOne : Question := ⟨1, ⟨0xbf800000⟩, .ge, false⟩

/-- Edits that set the flag of a node before they split it, and leave a leaf as it came. -/
def staircaseEdits : List Edit :=
  [.split 0 lowHalf, .leaf 1 ⟨0x3f800000⟩, .missingAsZero 2 true, .split 2 fromMinusOne,
    .leaf 4 ⟨0x40000000⟩]

def staircaseDraft : Draft :=
  ⟨#[Edit.onto 1 (.ofValue .zero) (.split 0 lowHalf), .ofValue ⟨0x3f800000⟩,
    Edit.onto 3 { DraftNode.ofValue .zero with missingAsZero := true } (.split 2 fromMinusOne),
    .ofValue .zero, .ofValue ⟨0x40000000⟩]⟩

/-- A draft that starts over with these edits becomes their tree. -/
theorem build_staircaseDraft :
    ∃ t, staircaseDraft.build = .ok t ∧ t.size = 5 ∧ t.Asks 2 fromMinusOne 3 true ∧
      t.missingAsZero[3]? = some false ∧ t.values[3]? = some .zero := by
  have hfits : empty.Along Fits ([.root, .split 0 fromMinusOne] ++ .root :: staircaseEdits) := by
    decide +kernel
  have hrun : empty.run ([.root, .split 0 fromMinusOne] ++ .root :: staircaseEdits) =
      .ok staircaseDraft := by
    decide +kernel
  obtain ⟨_, _, hbuild⟩ := build_after_run hfits hrun
  obtain ⟨hiff, _, hfields⟩ := hbuild [.root, .split 0 fromMinusOne] staircaseEdits rfl (by decide)
  obtain ⟨t, ht⟩ := hiff.mpr (by decide +kernel)
  obtain ⟨hsize, hsplits, _, hleaves⟩ := hfields t ht
  have hpre : root.run [.split 0 lowHalf, .leaf 1 ⟨0x3f800000⟩, .missingAsZero 2 true] =
      .ok ⟨staircaseDraft.nodes.extract 0 2 |>.push
        { DraftNode.ofValue .zero with missingAsZero := true }⟩ := by
    decide +kernel
  have htree : staircaseDraft.build = .ok staircaseDraft.toTree := by decide +kernel
  cases Except.ok.inj (ht.symm.trans htree)
  exact ⟨_, ht, hsize, hsplits _ 2 fromMinusOne _ _ rfl hpre, hleaves 3 (by decide +kernel)⟩

end Draft

end TreeEnsemble
