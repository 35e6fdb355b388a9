import TreeEnsemble.Proofs.Forest.Groups
import TreeEnsemble.Proofs.Predictor.Row
import TreeEnsemble.Proofs.Tree.Recoding

/-!
Groups are independent ordered sums. The scores of all groups are kept in one array, but the score
of a group is its base score and then the leaf values of its own trees, added one after the other.
So a tree more adds one number to the score of its group, and trees of different groups may change
places. That a predictor on codes gets a new table for a new forest makes no difference: the trees
that were there reach the leaves that they reached.
-/

namespace TreeEnsemble

/-- Lists with the same keys have the same values, if elements with the same key do. -/
theorem map_congr_key {α κ β : Type} {key : α → κ} {v w : α → β} {xs ys : List α}
    (hkeys : ys.map key = xs.map key)
    (h : ∀ x ∈ xs, ∀ y ∈ ys, key y = key x → w y = v x) : ys.map w = xs.map v := by
  induction xs generalizing ys with
  | nil =>
    rw [List.map_nil, List.map_eq_nil_iff] at hkeys
    rw [hkeys]
    rfl
  | cons x xs ih =>
    cases ys with
    | nil => cases hkeys
    | cons y ys =>
      obtain ⟨hkey, hrest⟩ := List.cons.inj hkeys
      have hfirst := h x List.mem_cons_self y List.mem_cons_self hkey
      have hothers := ih hrest fun x' hx y' hy =>
        h x' (List.mem_cons_of_mem x hx) y' (List.mem_cons_of_mem y hy)
      rw [List.map_cons, List.map_cons, hfirst, hothers]

namespace Predictor

/-- The score of a group is a sum over the trees of the group only. -/
theorem groupScore_eq (p : Predictor) (slots : Array Slot) (group : Nat) (base : Binary32) :
    p.groupScore slots group base p.forest.treesWithGroups =
      ((p.forest.treesOf group).map (p.leafValueFor slots)).foldl (· + ·) base := by
  rw [Forest.treesOf, List.foldl_map, List.foldl_filterMap, groupScore]
  congr 1
  funext score tg
  split <;> rfl

theorem getElem?_scores (p : Predictor) (slots : Array Slot) (group : Nat) :
    (p.scores slots)[group]? = p.forest.baseScore[group]?.map fun base =>
      ((p.forest.treesOf group).map (p.leafValueFor slots)).foldl (· + ·) base := by
  simp only [scores, Array.getElem?_mapIdx, groupScore_eq]

theorem Sound.leafScore_eq {p : Predictor} (h : p.Sound) {group : Nat} {t : Tree}
    (ht : t ∈ p.forest.treesOf group) (slots : Array Slot) :
    p.leafScore t slots = .ok (p.leafValueFor slots t) := by
  obtain ⟨tg, hmem, rfl, _⟩ := Forest.mem_treesOf_iff.mp ht
  obtain ⟨hw, hr, _⟩ := h.trees tg hmem
  exact Predictor.leafScore_eq hw hr slots

theorem Sound.leafScores_eq {p : Predictor} (h : p.Sound) (slots : Array Slot) (group : Nat) :
    ((p.forest.treesOf group).mapM fun t => p.leafScore t slots) =
      .ok ((p.forest.treesOf group).map (p.leafValueFor slots)) := by
  refine mapM_eq_ok_of_at (by simp) fun i t x ht hx => ?_
  rw [List.getElem?_map, ht] at hx
  cases hx
  exact h.leafScore_eq (List.mem_of_getElem? ht) slots

theorem leafValueFor_recoded {p p' : Predictor} {t t' : Tree} {slots slots' : Array Slot}
    (h : t'.clearBins = t.clearBins)
    (hleaf : t'.leafFor p'.scale slots' = t.leafFor p.scale slots) :
    p'.leafValueFor slots' t' = p.leafValueFor slots t := by
  obtain ⟨_, _, rfl⟩ := Tree.exists_withBins h
  simp only [leafValueFor, leafScore, hleaf]
  rfl

/-- Two predictors find the same leaf value, each with slots of its own, in trees that differ in
their codes only. -/
def SameLeaves (p p' : Predictor) (slots slots' : Array Slot) : Prop :=
  ∀ t ∈ p.forest.trees, ∀ t' ∈ p'.forest.trees, t'.clearBins = t.clearBins →
    p'.leafValueFor slots' t' = p.leafValueFor slots t

namespace SameLeaves

variable {p p' : Predictor} {slots slots' : Array Slot} (h : SameLeaves p p' slots slots')

include h

theorem values {ts ts' : List Tree} (hts : ∀ t ∈ ts, t ∈ p.forest.trees)
    (hts' : ∀ t ∈ ts', t ∈ p'.forest.trees)
    (hkeys : ts'.map Tree.clearBins = ts.map Tree.clearBins) :
    ts'.map (p'.leafValueFor slots') = ts.map (p.leafValueFor slots) :=
  map_congr_key hkeys fun t ht t' ht' => h t (hts t ht) t' (hts' t' ht')

theorem groupValues {group : Nat}
    (hkeys : (p'.forest.treesOf group).map Tree.clearBins =
      (p.forest.treesOf group).map Tree.clearBins) :
    (p'.forest.treesOf group).map (p'.leafValueFor slots') =
      (p.forest.treesOf group).map (p.leafValueFor slots) :=
  h.values (fun _ => Forest.mem_trees_of_mem_treesOf) (fun _ => Forest.mem_trees_of_mem_treesOf)
    hkeys

/-- The value of a tree more is the last number that is added to the score of its group. -/
theorem scores_modify {group : Nat} {old : List Tree} {t' : Tree}
    (hbase : p'.forest.baseScore = p.forest.baseScore)
    (htrees : p'.forest.treesOf group = old ++ [t'])
    (hold : old.map Tree.clearBins = (p.forest.treesOf group).map Tree.clearBins)
    (hrest : ∀ other ≠ group, (p'.forest.treesOf other).map Tree.clearBins =
      (p.forest.treesOf other).map Tree.clearBins) :
    p'.scores slots' = (p.scores slots).modify group (· + p'.leafValueFor slots' t') := by
  refine Array.ext_getElem? fun other => ?_
  rw [Array.getElem?_modify, getElem?_scores, getElem?_scores, hbase]
  by_cases hother : group = other
  · subst hother
    have hmem : ∀ u ∈ old, u ∈ p'.forest.trees := by
      intro u hu
      have hin : u ∈ p'.forest.treesOf group := by
        rw [htrees]
        exact List.mem_append_left [t'] hu
      exact Forest.mem_trees_of_mem_treesOf hin
    have hvalues := h.values (fun _ => Forest.mem_trees_of_mem_treesOf) hmem hold
    rw [if_pos rfl, htrees, List.map_append, hvalues, Option.map_map]
    simp only [List.map_cons, List.map_nil, List.foldl_append, List.foldl_cons, List.foldl_nil]
    rfl
  · rw [if_neg hother, h.groupValues (hrest other fun heq => hother heq.symm)]

end SameLeaves

/-- Two predictors that bind every row of their width, and find the same leaf values for it. -/
structure Kindred (p p' : Predictor) : Prop where
  sound : p.Sound
  sound' : p'.Sound
  width : p'.width = p.width
  row : ∀ row : Array Binary32, row.size = p.width → ∃ slots slots',
    denseSlots p.coder p.policy row p.width = .ok slots ∧
    denseSlots p'.coder p'.policy row p'.width = .ok slots' ∧ SameLeaves p p' slots slots'

theorem kindred_raw {f f' : Forest} {s : Settings} (h : Sound ⟨f, .raw, s⟩)
    (h' : Sound ⟨f', .raw, s⟩) (hwidth : f'.width = f.width) :
    Kindred ⟨f, .raw, s⟩ ⟨f', .raw, s⟩ := by
  refine ⟨h, h', hwidth, fun row hrow => ?_⟩
  obtain ⟨slots, hslots⟩ := denseSlots_ok Coder.total_raw s.policy hrow trivial
  refine ⟨slots, slots, hslots, ?_, fun t _ t' _ hsame => ?_⟩
  · show denseSlots .raw s.policy row f'.width = .ok slots
    rw [hwidth]
    exact hslots
  · exact leafValueFor_recoded hsame (Tree.leafFor_raw_recoded hsame slots)

theorem kindred_binned {f f' : Forest} {table table' : ThresholdTable} {s : Settings}
    (h : Sound ⟨f, .binned table, s⟩) (h' : Sound ⟨f', .binned table', s⟩)
    (hwidth : f'.width = f.width) (ht : table.WellFormed) (hsmall : table.Small)
    (ht' : table'.WellFormed) (hsmall' : table'.Small) (hcov : f.width ≤ table.featureCount)
    (hcov' : f'.width ≤ table'.featureCount) (hc : ∀ t ∈ f.trees, t.CodedBy table)
    (hc' : ∀ t ∈ f'.trees, t.CodedBy table') :
    Kindred ⟨f, .binned table, s⟩ ⟨f', .binned table', s⟩ := by
  refine ⟨h, h', hwidth, fun row hrow => ?_⟩
  have hcovers : f.width ≤ table'.featureCount := hwidth ▸ hcov'
  obtain ⟨slots, hslots⟩ := denseSlots_ok (Coder.total_binned ht) s.policy hrow hcov
  obtain ⟨slots', hslots'⟩ := denseSlots_ok (Coder.total_binned ht') s.policy hrow hcovers
  refine ⟨slots, slots', hslots, ?_, fun t hmem t' hmem' hsame => ?_⟩
  · show denseSlots (.binned table') s.policy row f'.width = .ok slots'
    rw [hwidth]
    exact hslots'
  · apply leafValueFor_recoded hsame
    exact Tree.leafFor_binned_recoded ht hsmall ht' hsmall' hsame (hc t hmem) (hc' t' hmem')
      (codedAlike_denseSlots hslots hslots')

/-- The second predictor answers like the first with a tree more in a group. The new tree is the
last of its group; for each row, the value of the leaf that it reaches is added to the score of the
group, and no other score changes. Rows of the wrong size are refused alike. -/
structure AddsTree (p p' : Predictor) (t : Tree) (group : Nat) : Prop where
  row : ∀ row : Array Binary32, row.size = p.width → ∃ slots t' x out,
    p'.bindRow row p'.newSlots = .ok (slots, .ok ()) ∧
    (p'.forest.treesOf group).getLast? = some t' ∧ t'.clearBins = t.clearBins ∧
    p'.leafScore t' slots = .ok x ∧
    p.predictRow row = .ok (.ok out) ∧ group < out.size ∧
    p'.predictRow row = .ok (.ok (out.modify group (· + x)))
  refused : ∀ row : Array Binary32, row.size ≠ p.width → p'.predictRow row = p.predictRow row

namespace Kindred

variable {p p' : Predictor}

theorem refused (h : p.Kindred p') {row : Array Binary32} (hrow : row.size ≠ p.width) :
    p'.predictRow row = p.predictRow row := by
  rw [predictRow_width hrow, predictRow_width (h.width.symm ▸ hrow), h.width]

/-- If the groups have the same trees in the same order, the predictions are the same. -/
theorem predictRow_eq (h : p.Kindred p') (hbase : p'.forest.baseScore = p.forest.baseScore)
    (hkeys : ∀ group, (p'.forest.treesOf group).map Tree.clearBins =
      (p.forest.treesOf group).map Tree.clearBins) (row : Array Binary32) :
    p'.predictRow row = p.predictRow row := by
  by_cases hrow : row.size = p.width
  · obtain ⟨slots, slots', hd, hd', hsame⟩ := h.row row hrow
    have hscores : p'.scores slots' = p.scores slots := by
      refine Array.ext_getElem? fun group => ?_
      rw [getElem?_scores, getElem?_scores, hbase, hsame.groupValues (hkeys group)]
    rw [predictRow_ok h.sound hd, predictRow_ok h.sound' hd', hscores]
  · exact h.refused hrow

theorem addsTree (h : p.Kindred p') (hsize : p.forest.groups.size = p.forest.trees.size)
    {t : Tree} {group : UInt32} (hgroup : group.toNat < p.groupCount)
    (hgrown : p'.forest.clearBins = (p.forest.grown t group).clearBins) :
    p.AddsTree p' t group.toNat := by
  refine ⟨fun row hrow => ?_, fun row hrow => h.refused hrow⟩
  obtain ⟨slots, slots', hd, hd', hsame⟩ := h.row row hrow
  obtain ⟨⟨old, t', htrees, ht', hold⟩, hrest⟩ := Forest.treesOf_of_grown hsize hgrown
  obtain ⟨_, _, hbase⟩ := Forest.eq_of_clearBins hgrown
  have hlast : t' ∈ p'.forest.treesOf group.toNat := by
    rw [htrees]
    exact List.mem_append_right old List.mem_cons_self
  have hin : group.toNat < (p.scores slots).size := by
    rw [size_scores h.sound]
    exact hgroup
  refine ⟨slots', t', _, _, bindRow_ok p'.size_newSlots hd', ?_, ht',
    h.sound'.leafScore_eq hlast slots', predictRow_ok h.sound hd, hin, ?_⟩
  · rw [htrees, List.getLast?_concat]
  · rw [predictRow_ok h.sound' hd', hsame.scores_modify hbase htrees hold hrest]

end Kindred

/-- Forests of one width, each coded with its own table, have kindred predictors on codes. -/
theorem kindred_quantized {f f' g g' : Forest} {s : Settings} (hf : f.WellFormed)
    (hf' : f'.WellFormed) (hs : 0 < s.blockSize) (hcount : f.splitCount < 2 ^ 30)
    (hcount' : f'.splitCount < 2 ^ 30) (hq : f.quantize = .ok (g, .ok ()))
    (hq' : f'.quantize = .ok (g', .ok ())) (hwidth : g'.width = g.width) :
    ∃ c c', create .binned g s = .ok ⟨g, c, s⟩ ∧ create .binned g' s = .ok ⟨g', c', s⟩ ∧
      Kindred ⟨g, c, s⟩ ⟨g', c', s⟩ := by
  obtain ⟨table, htable, ht, hsmall, hg, hcov, hc⟩ := Forest.quantize_ok hf hcount hq
  obtain ⟨table', htable', ht', hsmall', hg', hcov', hc'⟩ := Forest.quantize_ok hf' hcount' hq'
  have hp := create_binned hg hs htable (Forest.isQuantized_of_codedBy htable hc)
  have hp' := create_binned hg' hs htable' (Forest.isQuantized_of_codedBy htable' hc')
  exact ⟨_, _, hp, hp', kindred_binned (sound_of_create hp) (sound_of_create hp') hwidth ht hsmall
    ht' hsmall' hcov hcov' hc hc'⟩

theorem create_reordered {f g : Forest} {scale : Scale} {c : Coder} {s : Settings}
    (h : f.Reordered g) (hf : create scale f s = .ok ⟨f, c, s⟩) :
    create scale g s = .ok ⟨g, c, s⟩ := by
  obtain ⟨hs, hw, c', hc, heq⟩ := create_ok_iff.mp hf
  cases heq
  rcases coderFor_ok hc with ⟨rfl, rfl⟩ | ⟨rfl, table, htable, hq, rfl⟩
  · exact create_raw (h.wellFormed hw) hs
  · exact create_binned (h.wellFormed hw) hs (h.table.trans htable) (h.isQuantized hw.groups hq)

/-- Trees of different groups may change places. -/
theorem predictions_reordered {f g : Forest} {c : Coder} {s : Settings} (h : f.Reordered g)
    (hf : Sound ⟨f, c, s⟩) (hg : Sound ⟨g, c, s⟩) :
    (∀ slots output, scoreSlots ⟨g, c, s⟩ slots output = scoreSlots ⟨f, c, s⟩ slots output) ∧
      ∀ row, predictRow ⟨g, c, s⟩ row = predictRow ⟨f, c, s⟩ row := by
  have hcount : groupCount ⟨g, c, s⟩ = groupCount ⟨f, c, s⟩ := congrArg UInt32.toNat h.groupCount
  have hwidth : width ⟨g, c, s⟩ = width ⟨f, c, s⟩ := h.width
  have hscores : ∀ slots, scores ⟨g, c, s⟩ slots = scores ⟨f, c, s⟩ slots := by
    intro slots
    refine Array.ext_getElem? fun group => ?_
    rw [getElem?_scores, getElem?_scores, h.order, h.baseScore]
    rfl
  have hslots : ∀ slots output,
      scoreSlots ⟨g, c, s⟩ slots output = scoreSlots ⟨f, c, s⟩ slots output := by
    intro slots output
    by_cases hout : output.size = groupCount ⟨f, c, s⟩
    · rw [scoreSlots_eq hf slots hout, scoreSlots_eq hg slots (hout.trans hcount.symm), hscores]
    · rw [scoreSlots, scoreSlots, hcount, if_neg hout, if_neg hout]
  refine ⟨hslots, fun row => ?_⟩
  have hbind : ∀ slots, bindRow ⟨g, c, s⟩ row slots = bindRow ⟨f, c, s⟩ row slots := by
    intro slots
    simp only [bindRow, hwidth]
    rfl
  simp only [predictRow, predictRowInto, newSlots, newOutput, hwidth, hcount, hbind, hslots]

section Push

variable {f f' : Forest} {t : Tree} {group : UInt32} {s : Settings} (hf : f.WellFormed)
  (hf' : f'.WellFormed) (hs : 0 < s.blockSize) (hpush : f.push t group = .ok f')

include hf hf' hs hpush

theorem addsTree_raw :
    ∃ p p', create .raw f s = .ok p ∧ create .raw f' s = .ok p' ∧ p.AddsTree p' t group.toNat := by
  obtain ⟨hin, hgrown⟩ := Forest.push_grown hpush
  have hp := create_raw hf hs
  have hp' := create_raw hf' hs
  obtain ⟨hwidth, _⟩ := Forest.eq_of_clearBins hgrown
  have hkin := kindred_raw (sound_of_create hp) (sound_of_create hp') hwidth
  exact ⟨_, _, hp, hp', hkin.addsTree hf.groups (UInt32.lt_iff_toNat_lt.mp hin) hgrown⟩

theorem addsTree_binned {g g' : Forest} (hcount : f'.splitCount < 2 ^ 30)
    (hq : f.quantize = .ok (g, .ok ())) (hq' : f'.quantize = .ok (g', .ok ())) :
    ∃ p p', create .binned g s = .ok p ∧ create .binned g' s = .ok p' ∧
      p.AddsTree p' t group.toNat := by
  obtain ⟨hin, hgrown⟩ := Forest.push_grown hpush
  have hg := Forest.clearBins_quantize hq
  have hgrown' : g'.clearBins = (g.grown t group).clearBins := by
    rw [Forest.clearBins_quantize hq', hgrown, Forest.clearBins_grown, Forest.clearBins_grown, hg]
  obtain ⟨hwidth, _⟩ := Forest.eq_of_clearBins hgrown'
  have hcountOld : f.splitCount < 2 ^ 30 :=
    Nat.lt_of_le_of_lt (Forest.splitCount_le_of_grown hgrown) hcount
  obtain ⟨c, c', hp, hp', hkin⟩ := kindred_quantized hf hf' hs hcountOld hcount hq hq' hwidth
  obtain ⟨_, hgroups, _⟩ := Forest.eq_of_clearBins hg
  have hgroup : group.toNat < g.groupCount.toNat := by
    rw [hgroups]
    exact UInt32.lt_iff_toNat_lt.mp hin
  exact ⟨_, _, hp, hp', hkin.addsTree (create_ok_iff.mp hp).2.1.groups hgroup hgrown'⟩

end Push

/-- Each forest may be coded with a table of its own. -/
theorem predictions_requantized {f f' g : Forest} {s : Settings} (h : f.Reordered f')
    (hf : f.WellFormed) (hs : 0 < s.blockSize) (hcount : f.splitCount < 2 ^ 30)
    (hq : f.quantize = .ok (g, .ok ())) :
    ∃ g' p p', f'.quantize = .ok (g', .ok ()) ∧ create .binned g s = .ok p ∧
      create .binned g' s = .ok p' ∧ ∀ row, p'.predictRow row = p.predictRow row := by
  obtain ⟨g', _, hq', _⟩ := (h.sameTrees hf.groups).quantize hq
  have hg := Forest.clearBins_quantize hq
  have hg' := Forest.clearBins_quantize hq'
  obtain ⟨hwidth, _, hbase⟩ := Forest.eq_of_clearBins hg
  obtain ⟨hwidth', _, hbase'⟩ := Forest.eq_of_clearBins hg'
  have hkeys : ∀ group, (g'.treesOf group).map Tree.clearBins =
      (g.treesOf group).map Tree.clearBins := by
    intro group
    rw [Forest.map_clearBins_treesOf hg', Forest.map_clearBins_treesOf hg, h.order]
  have hcount' : f'.splitCount < 2 ^ 30 := by
    rw [h.splitCount hf.groups]
    exact hcount
  obtain ⟨c, c', hp, hp', hkin⟩ :=
    kindred_quantized hf (h.wellFormed hf) hs hcount hcount' hq hq'
      (hwidth'.trans (h.width.trans hwidth.symm))
  exact ⟨g', _, _, hq', hp, hp',
    hkin.predictRow_eq (hbase'.trans (h.baseScore.trans hbase.symm)) hkeys⟩

/-- Groups are independent ordered sums. The score of a group is the base score and then the leaf
values of the group's trees, added in order. A tree more adds one number to the score of its group
and changes no other score, and a reordering that keeps the order inside each group changes nothing;
both hold for raw values, and for codes although every forest is coded with a table of its own. -/
theorem groups_are_ordered_sums {f : Forest} {s : Settings} (hvalid : f.validate = .ok ())
    (hs : 0 < s.blockSize) :
    (∀ scale, (scale = .binned → f.isQuantized = true) → ∃ p, create scale f s = .ok p ∧
      (∀ slots output, output.size = p.groupCount → ∃ out, p.scoreSlots slots output = .ok out ∧
        out.size = f.groupCount.toNat ∧ ∀ group base, f.baseScore[group]? = some base →
          ∃ xs, ((f.treesOf group).mapM fun t => p.leafScore t slots) = .ok xs ∧
            out[group]? = some (xs.foldl (· + ·) base)) ∧
      ∀ g, f.Reordered g → g.validate = .ok () ∧ ∃ q, create scale g s = .ok q ∧
        (∀ slots output, q.scoreSlots slots output = p.scoreSlots slots output) ∧
        ∀ row, q.predictRow row = p.predictRow row) ∧
    (∀ t group f', f.push t group = .ok f' → f'.validate = .ok () →
      (∃ p p', create .raw f s = .ok p ∧ create .raw f' s = .ok p' ∧
        p.AddsTree p' t group.toNat) ∧
      ∀ g g', f'.splitCount < 2 ^ 30 → f.quantize = .ok (g, .ok ()) →
        f'.quantize = .ok (g', .ok ()) →
        ∃ p p', create .binned g s = .ok p ∧ create .binned g' s = .ok p' ∧
          p.AddsTree p' t group.toNat) ∧
    ∀ f' g, f.Reordered f' → f.splitCount < 2 ^ 30 → f.quantize = .ok (g, .ok ()) →
      ∃ g' p p', f'.quantize = .ok (g', .ok ()) ∧ create .binned g s = .ok p ∧
        create .binned g' s = .ok p' ∧ ∀ row, p'.predictRow row = p.predictRow row := by
  have hf := Forest.validate_ok_iff.mp hvalid
  refine ⟨fun scale hscale => ?_, fun t group f' hpush hvalid' => ?_,
    fun f' g h hcount hq => predictions_requantized h hf hs hcount hq⟩
  · obtain ⟨c, hp⟩ := exists_create hf hs hscale
    have hsound := sound_of_create hp
    refine ⟨_, hp, fun slots output hout => ?_, fun g h => ?_⟩
    · refine ⟨_, scoreSlots_eq hsound slots hout, size_scores hsound slots, ?_⟩
      intro group base hbase
      refine ⟨_, hsound.leafScores_eq slots group, ?_⟩
      rw [getElem?_scores, hbase]
      rfl
    · have hq := create_reordered h hp
      exact ⟨Forest.validate_ok_iff.mpr (h.wellFormed hf), _, hq,
        predictions_reordered h hsound (sound_of_create hq)⟩
  · have hf' := Forest.validate_ok_iff.mp hvalid'
    exact ⟨addsTree_raw hf hf' hs hpush, fun g g' hcount hq hq' =>
      addsTree_binned hf hf' hs hpush hcount hq hq'⟩

/-- The staircases in the other order. -/
def swappedStaircases : Forest := { Forest.staircases with groups := #[0, 1] }

theorem reordered_swappedStaircases : Forest.staircases.Reordered swappedStaircases where
  groupCount := rfl
  featureCount := rfl
  baseScore := rfl
  table := rfl
  groups := rfl
  perm := .swap _ _ []
  order := fun group => by
    match group with
    | 0 => rfl
    | 1 => rfl
    | n + 2 => rfl

/-- The staircases and a stump in group 0, which gives their table a threshold more. -/
def moreStaircases : Forest :=
  Forest.staircases.grown (Forest.untidyStump ⟨0x3f800000⟩) 0

theorem groups_of_staircases :
    ∃ g g' p p', Forest.staircases.push (Forest.untidyStump ⟨0x3f800000⟩) 0 = .ok moreStaircases ∧
      Forest.staircases.quantize = .ok (g, .ok ()) ∧
      moreStaircases.quantize = .ok (g', .ok ()) ∧
      create .binned g {} = .ok p ∧ create .binned g' {} = .ok p' ∧
      p.AddsTree p' (Forest.untidyStump ⟨0x3f800000⟩) 0 ∧
      ∃ e q, swappedStaircases.quantize = .ok (e, .ok ()) ∧ create .binned e {} = .ok q ∧
        ∀ row, q.predictRow row = p.predictRow row := by
  have hpush : Forest.staircases.push (Forest.untidyStump ⟨0x3f800000⟩) 0 = .ok moreStaircases :=
    rfl
  have hvalid : Forest.staircases.validate = .ok () := by decide +kernel
  have hvalid' : moreStaircases.validate = .ok () := by decide +kernel
  have hsplits : Forest.staircases.splits = .ok [(0, ⟨0x3f000000⟩), (1, ⟨0xbf800000⟩),
      (0, ⟨0x3f000000⟩), (1, ⟨0xbf800000⟩)] := by decide +kernel
  have hsplits' : moreStaircases.splits = .ok [(0, ⟨0x3f000000⟩), (1, ⟨0xbf800000⟩),
      (0, ⟨0x3f000000⟩), (1, ⟨0xbf800000⟩), (0, ⟨0x3f800000⟩)] := by decide +kernel
  have hf := Forest.validate_ok_iff.mp hvalid
  have hf' := Forest.validate_ok_iff.mp hvalid'
  obtain ⟨g, hg⟩ := Forest.quantize_of_splits hf.trees (by decide) hsplits
  obtain ⟨g', hg'⟩ := Forest.quantize_of_splits hf'.trees (by decide) hsplits'
  obtain ⟨_, hadds, hreorders⟩ := groups_are_ordered_sums (s := {}) hvalid (by decide)
  obtain ⟨p, p', hp, hp', hadd⟩ := (hadds _ 0 _ hpush hvalid').2 g g' (by decide) hg hg'
  obtain ⟨e, q, q', he, hq, hq', hrows⟩ :=
    hreorders swappedStaircases g reordered_swappedStaircases (by decide) hg
  cases Except.ok.inj (hp.symm.trans hq)
  exact ⟨g, g', p, p', hpush, hg, hg', hp, hp', hadd, e, q', he, hq', hrows⟩

end Predictor

end TreeEnsemble
