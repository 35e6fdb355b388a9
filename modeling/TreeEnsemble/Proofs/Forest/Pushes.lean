import TreeEnsemble.Proofs.Forest.Groups
import TreeEnsemble.Proofs.Forest.Runs

/-!
Trees pushed one after another. They stand behind the trees that were there, in the order in which
they came, and that order is not seen in the table of the forest's thresholds.
-/

namespace TreeEnsemble

namespace Forest

/-- The changes that push trees, each to its group. -/
def pushes (pushed : List (Tree × UInt32)) : List Change := pushed.map fun p => .push p.1 p.2

/-- Pushing goes on to the end if the groups exist. Codes aside, the trees pushed come after those
that were there. -/
theorem run_pushes {f : Forest} {pushed : List (Tree × UInt32)}
    (hin : ∀ p ∈ pushed, p.2 < f.groupCount) :
    ∃ g, f.run (pushes pushed) = .ok g ∧ g.width = f.width ∧
      g.clearBins.trees.toList =
        (f.trees.toList ++ pushed.map Prod.fst).map Tree.clearBins := by
  induction pushed generalizing f with
  | nil => exact ⟨f, rfl, rfl, by simp [clearBins]⟩
  | cons p pushed ih =>
    obtain ⟨hp, hrest⟩ := List.forall_mem_cons.mp hin
    obtain ⟨mid, hmid⟩ : ∃ mid, f.push p.1 p.2 = .ok mid := ⟨_, if_pos hp⟩
    have hgrown := (push_grown hmid).2
    obtain ⟨hwidth, hcount, _⟩ := eq_of_clearBins hgrown
    have hmidTrees : mid.trees.toList.map Tree.clearBins =
        (f.trees.toList ++ [p.1]).map Tree.clearBins := by
      have htrees := congrArg (fun g => g.trees.toList) hgrown
      simpa [clearBins, grown] using htrees
    obtain ⟨g, hrun, hsame, htrees⟩ := ih (f := mid) fun q hq => by
      rw [hcount]
      exact hrest q hq
    refine ⟨g, ?_, hsame.trans hwidth, ?_⟩
    · show f.run (.push p.1 p.2 :: pushes pushed) = .ok g
      rw [run_cons, change, hmid]
      exact hrun
    · rw [htrees, List.map_append, hmidTrees]
      simp

/-- Trees pushed in another order, to whatever groups, give the same table of thresholds. -/
theorem quantize_pushes {f g g' : Forest} {pushed pushed' : List (Tree × UInt32)}
    (hin : ∀ p ∈ pushed, p.2 < f.groupCount) (hin' : ∀ p ∈ pushed', p.2 < f.groupCount)
    (hperm : (pushed.map Prod.fst).Perm (pushed'.map Prod.fst))
    (hg : f.run (pushes pushed) = .ok g) (hg' : f.run (pushes pushed') = .ok g') {h : Forest}
    (hq : g.quantize = .ok (h, .ok ())) :
    ∃ h' table, g'.quantize = .ok (h', .ok ()) ∧ h.table = some table ∧ h'.table = some table := by
  obtain ⟨_, hrun, hwidth, htrees⟩ := run_pushes hin
  obtain ⟨_, hrun', hwidth', htrees'⟩ := run_pushes hin'
  cases hg.symm.trans hrun
  cases hg'.symm.trans hrun'
  -- the codes that the pushed trees bring along may differ, but quantization does not read them
  have hsame : g.clearBins.SameTrees g'.clearBins := {
    width := hwidth'.trans hwidth.symm
    trees := by
      rw [htrees, htrees']
      exact (hperm.append_left _).map _ }
  obtain ⟨h', table, hq', htable, htable'⟩ :=
    hsame.quantize (quantize_ok_congr (clearBins_clearBins g) hq)
  exact ⟨h', table, quantize_ok_congr (clearBins_clearBins g').symm hq', htable, htable'⟩

end Forest

open ThresholdTable in
/-- The table of some lists is their canonical form. Lists are refused exactly if one has a NaN, and
the first such list is named. Otherwise there is a feature for each list, with increasing thresholds
that stand in the list bit for bit, and every number of the list equals just one of them. Lists with
the same members, in any order and however often, have one table to the bit. So the order in which
trees are pushed into a forest is not seen in its own table. -/
theorem canonical_tables :
    (∀ lists : List (List Binary32), lists.flatten.length < 2 ^ 32 →
      ((∃ table, ofLists lists = .ok table) ↔ ∀ xs ∈ lists, ∀ x ∈ xs, x.isNaN = false) ∧
      (∀ e, ofLists lists = .error e ↔
        ∃ feature, FirstNaN lists feature ∧ e = .nanFeatureThreshold feature) ∧
      ∀ table, ofLists lists = .ok table → table.featureCount = lists.length ∧
        ∀ (feature : Nat) (xs : List Binary32), lists[feature]? = some xs →
          ∃ ys, table.thresholdsOf feature = .ok ys ∧ Increasing ys ∧
            (∀ x ∈ xs, ys.countP (·.eqv x) = 1) ∧ ∀ y ∈ ys, y ∈ xs) ∧
    (∀ lists lists' : List (List Binary32), List.Forall₂ SameMembers lists lists' →
      ofLists lists' = ofLists lists) ∧
    ∀ (f : Forest) (pushed pushed' : List (Tree × UInt32)),
      (∀ p ∈ pushed, p.2 < f.groupCount) → (∀ p ∈ pushed', p.2 < f.groupCount) →
      (pushed.map Prod.fst).Perm (pushed'.map Prod.fst) →
      ∃ g g', f.run (Forest.pushes pushed) = .ok g ∧ f.run (Forest.pushes pushed') = .ok g' ∧
        ∀ h, g.quantize = .ok (h, .ok ()) → ∃ h' table, g'.quantize = .ok (h', .ok ()) ∧
          h.table = some table ∧ h'.table = some table := by
  refine ⟨fun lists hfit => ⟨ofLists_ok_iff, fun e => ofLists_error_iff, fun table htable => ?_⟩,
    fun lists lists' => ofLists_congr, fun f pushed pushed' hin hin' hperm => ?_⟩
  · obtain ⟨table', htable', hwell, hwidth, hlists⟩ :=
      ofLists_canonical (ofLists_ok_iff.mp ⟨table, htable⟩) hfit
    cases htable.symm.trans htable'
    refine ⟨hwidth, fun feature xs hxs => ?_⟩
    obtain ⟨ys, hys, hof, hone⟩ := hlists feature xs hxs
    exact ⟨ys, hys, hwell.increasing feature ys hys, hone, hof⟩
  · obtain ⟨g, hg, _⟩ := Forest.run_pushes hin
    obtain ⟨g', hg', _⟩ := Forest.run_pushes hin'
    exact ⟨g, g', hg, hg', fun h hq => Forest.quantize_pushes hin hin' hperm hg hg' hq⟩

/-- The mixed lists shuffled, with other repeats. -/
def shuffledLists : List (List Binary32) :=
  [[⟨0x80000000⟩, .zero, .zero, ⟨0x3f000000⟩], [], [⟨0x7f800000⟩, ⟨0x7f800000⟩]]

/-- A stump at zero and a stump at negative zero, pushed in this order into a new forest. -/
def zeroStumps : List (Tree × UInt32) :=
  [(Forest.untidyStump .zero, 0), (Forest.untidyStump ⟨0x80000000⟩, 0)]

theorem canonical_tables_shuffled :
    (∃ xs, ThresholdTable.mixedTable.thresholdsOf 0 = .ok xs ∧ Increasing xs ∧
      xs.countP (·.eqv .zero) = 1) ∧
    ThresholdTable.ofLists shuffledLists = .ok ThresholdTable.mixedTable ∧
    ∃ g g' h h' table, (Forest.new 1 1).run (Forest.pushes zeroStumps) = .ok g ∧
      (Forest.new 1 1).run (Forest.pushes zeroStumps.reverse) = .ok g' ∧
      g.quantize = .ok (h, .ok ()) ∧ g'.quantize = .ok (h', .ok ()) ∧
      h.table = some table ∧ h'.table = some table := by
  obtain ⟨hlists, hsame, hpushes⟩ := canonical_tables
  refine ⟨?_, ?_, ?_⟩
  · obtain ⟨_, _, hread⟩ := hlists ThresholdTable.mixedLists (by decide)
    obtain ⟨_, hfeatures⟩ := hread _ ThresholdTable.ofLists_mixedLists
    obtain ⟨xs, hxs, hinc, hone, _⟩ := hfeatures 0 _ rfl
    exact ⟨xs, hxs, hinc, hone .zero (by decide)⟩
  · rw [← ThresholdTable.ofLists_mixedLists]
    refine hsame _ _ (.cons (fun x => ?_) (.cons (fun x => Iff.rfl) (.cons (fun x => ?_) .nil)))
    · simp only [List.mem_cons, List.not_mem_nil]
      tauto
    · simp
  · obtain ⟨g, g', hg, hg', hquantize⟩ := hpushes (.new 1 1) zeroStumps zeroStumps.reverse
      (by decide) (by decide) (by rw [List.map_reverse]; exact (List.reverse_perm _).symm)
    have hstart : (Forest.new 1 1).run (Forest.pushes zeroStumps) = .ok Forest.bothZeros := by
      decide +kernel
    cases hg.symm.trans hstart
    have hvalid : ∀ t ∈ Forest.bothZeros.trees, t.validate = .ok () := by decide +kernel
    have hsplits : Forest.bothZeros.splits = .ok [(0, .zero), (0, ⟨0x80000000⟩)] := by
      decide +kernel
    obtain ⟨h, hq⟩ := Forest.quantize_of_splits
      (fun t ht => Tree.wellFormed_of_validate (hvalid t ht)) (by decide) hsplits
    obtain ⟨h', table, hq', htable, htable'⟩ := hquantize h hq
    exact ⟨_, g', h, h', table, hg, hg', hq, hq', htable, htable'⟩

end TreeEnsemble
