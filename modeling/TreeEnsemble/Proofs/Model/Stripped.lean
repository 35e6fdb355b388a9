import TreeEnsemble.Proofs.Forest.Defects
import TreeEnsemble.Proofs.Forest.OwnTable
import TreeEnsemble.Proofs.Model.RoundTrip
import TreeEnsemble.Proofs.Predictor.Safety
import TreeEnsemble.Proofs.Predictor.Uncoded
import TreeEnsemble.Proofs.Tree.Defects

/-!
Models whose documents lack codes. A column of codes that is absent is read as an empty one, so a
tree that lacks both columns is read as a tree without codes, and a forest may come back with its
table and with codes in some of its trees only. Such a forest is sound but not quantized, and
quantizing it gives back what was there. A tree that lacks one of the columns is read too, and is
refused by its check.
-/

namespace TreeEnsemble

open Document Reader

namespace Document

/-- The record without the fields of some names. -/
def without (omitted : String → Bool) : Document → Document
  | .record fields => .record (fields.filter fun f => !omitted f.1)
  | d => d

def changeField (name : String) (change : Document → Document) : Document → Document
  | .record fields => .record (fields.map fun f => if f.1 = name then (f.1, change f.2) else f)
  | d => d

/-- Changes each item of a list, which is told its place. -/
def changeItems (change : Nat → Document → Document) : Document → Document
  | .list items => .list (items.mapIdx change)
  | d => d

end Document

/-- The columns of codes that are left out of the document of a tree. -/
structure Gap where
  thresholdBins : Bool
  zeroBins : Bool
  deriving DecidableEq

namespace Gap

/-- Leaves out both columns or none. -/
def both (omitted : Bool) : Gap := ⟨omitted, omitted⟩

/-- One column is left out and the other one is there. -/
def Uneven (gap : Gap) : Prop := gap.thresholdBins ≠ gap.zeroBins

instance (gap : Gap) : Decidable gap.Uneven := inferInstanceAs (Decidable (_ ≠ _))

def omits (gap : Gap) (name : String) : Bool :=
  gap.thresholdBins && name == Tree.thresholdBinsName || gap.zeroBins && name == Tree.zeroBinsName

theorem omits_thresholdBinsName (gap : Gap) :
    gap.omits Tree.thresholdBinsName = gap.thresholdBins := by
  simp [omits, Tree.thresholdBinsName, Tree.zeroBinsName]

theorem omits_zeroBinsName (gap : Gap) : gap.omits Tree.zeroBinsName = gap.zeroBins := by
  simp [omits, Tree.thresholdBinsName, Tree.zeroBinsName]

theorem omits_featuresName (gap : Gap) : gap.omits Tree.featuresName = false := by
  simp [omits, Tree.featuresName, Tree.thresholdBinsName, Tree.zeroBinsName]

theorem omits_columnName (gap : Gap) (column : Column) : gap.omits column.name = false := by
  cases column <;> simp [omits, Column.name, Tree.thresholdBinsName, Tree.zeroBinsName]

end Gap

section Fields

variable {α : Type} {omitted : String → Bool} {fields : List (String × Document)} {name : String}
  {r : Reader α} {x : α}

theorem lookup_without (omitted : String → Bool) (fields : List (String × Document))
    (name : String) :
    (fields.filter fun f => !omitted f.1).lookup name =
      if omitted name then none else fields.lookup name := by
  induction fields with
  | nil => simp
  | cons f fields ih =>
    obtain ⟨key, d⟩ := f
    by_cases hname : name = key
    · subst hname
      cases homitted : omitted name <;> simp [homitted, ih]
    · have hother : (name == key) = false := beq_eq_false_iff_ne.mpr hname
      cases homitted : omitted key <;> simp [homitted, List.lookup_cons, hother, ih]

theorem checkedFields_without {known : List (String × Reader Unit)} {d : Document}
    (omitted : String → Bool) (h : checkedFields known d = .ok fields) :
    checkedFields known (d.without omitted) = .ok (fields.filter fun f => !omitted f.1) := by
  cases d with
  | record written =>
    obtain ⟨rfl, hall⟩ := checkedFields_ok_iff.mp h
    exact checkedFields_ok_iff.mpr ⟨rfl, fun f hf => hall f (List.mem_filter.mp hf).1⟩
  | _ => nomatch h

theorem required_without (hkept : omitted name = false) (h : required fields name r = .ok x) :
    required (fields.filter fun f => !omitted f.1) name r = .ok x := by
  rw [required, lookup_without, hkept]
  exact h

/-- An optional field that is left out is read as absent. -/
theorem optional_without {absent : α} (h : optional fields name r absent = .ok x) :
    optional (fields.filter fun f => !omitted f.1) name r absent =
      .ok (if omitted name then absent else x) := by
  rw [optional, lookup_without]
  cases omitted name with
  | true => rfl
  | false => exact h

end Fields

namespace Tree

/-- The tree without the columns that are left out. -/
def withGap (t : Tree) (gap : Gap) : Tree :=
  t.withBins (if gap.thresholdBins then #[] else t.thresholdBins)
    (if gap.zeroBins then #[] else t.zeroBins)

theorem withGap_both (t : Tree) (omitted : Bool) :
    t.withGap (.both omitted) = if omitted then t.clearBins else t := by
  cases omitted <;> rfl

/-- Whatever document a tree is read from, without columns of codes it is read as a tree without
them. -/
theorem load_without {d : Document} {t : Tree} (h : load d = .ok t) (gap : Gap) :
    load (d.without gap.omits) = .ok (t.withGap gap) := by
  obtain ⟨fields, hfields, h⟩ := bind_eq_ok_iff.mp h
  obtain ⟨features, hfeatures, h⟩ := bind_eq_ok_iff.mp h
  obtain ⟨thresholds, hthresholds, h⟩ := bind_eq_ok_iff.mp h
  obtain ⟨thresholdBins, hthresholdBins, h⟩ := bind_eq_ok_iff.mp h
  obtain ⟨zeroBins, hzeroBins, h⟩ := bind_eq_ok_iff.mp h
  obtain ⟨comparisons, hcomparisons, h⟩ := bind_eq_ok_iff.mp h
  obtain ⟨left, hleft, h⟩ := bind_eq_ok_iff.mp h
  obtain ⟨right, hright, h⟩ := bind_eq_ok_iff.mp h
  obtain ⟨defaultLeft, hdefaultLeft, h⟩ := bind_eq_ok_iff.mp h
  obtain ⟨missingAsZero, hmissingAsZero, h⟩ := bind_eq_ok_iff.mp h
  obtain ⟨leaf, hleaf, h⟩ := bind_eq_ok_iff.mp h
  obtain ⟨values, hvalues, h⟩ := bind_eq_ok_iff.mp h
  cases h
  refine then_ok (checkedFields_without gap.omits hfields) <|
    then_ok (required_without gap.omits_featuresName hfeatures) <|
    then_ok (required_without (gap.omits_columnName .thresholds) hthresholds) <|
    then_ok (optional_without hthresholdBins) <|
    then_ok (optional_without hzeroBins) <|
    then_ok (required_without (gap.omits_columnName .comparisons) hcomparisons) <|
    then_ok (required_without (gap.omits_columnName .left) hleft) <|
    then_ok (required_without (gap.omits_columnName .right) hright) <|
    then_ok (required_without (gap.omits_columnName .defaultLeft) hdefaultLeft) <|
    then_ok (required_without (gap.omits_columnName .missingAsZero) hmissingAsZero) <|
    then_ok (required_without (gap.omits_columnName .leaf) hleaf) <|
    then_ok (required_without (gap.omits_columnName .values) hvalues) ?_
  simp only [withGap, withBins, Gap.omits_thresholdBinsName, Gap.omits_zeroBinsName, pure_eq_ok]

theorem WellFormed.withGap {t : Tree} (h : t.WellFormed) {gap : Gap} (hgap : ¬gap.Uneven) :
    (t.withGap gap).WellFormed := by
  obtain ⟨thresholdBins, zeroBins⟩ := gap
  obtain rfl : thresholdBins = zeroBins := not_not.mp hgap
  rw [← Gap.both, withGap_both]
  cases thresholdBins
  · exact h
  · exact h.clearBins

theorem sizes_withGap {t : Tree} (hbins : t.hasBins = true) (gap : Gap) :
    (t.withGap gap).thresholdBins.size = (if gap.thresholdBins then 0 else t.size) ∧
      (t.withGap gap).zeroBins.size = if gap.zeroBins then 0 else t.size := by
  obtain ⟨hthresholds, hzeros⟩ : t.thresholdBins.size = t.size ∧ t.zeroBins.size = t.size := by
    simpa only [hasBins, Bool.and_eq_true, beq_iff_eq] using hbins
  simp only [withGap, withBins, apply_ite Array.size, Array.size_empty, hthresholds, hzeros,
    and_self]

theorem not_binsFit_withGap {t : Tree} (h : t.WellFormed) (hbins : t.hasBins = true) {gap : Gap}
    (hgap : gap.Uneven) : ¬(t.withGap gap).BinsFit := by
  have hpos := h.nonempty
  have hsize : (t.withGap gap).size = t.size := rfl
  obtain ⟨hthresholds, hzeros⟩ := sizes_withGap hbins gap
  rw [BinsFit, hthresholds, hzeros, hsize]
  cases hl : gap.thresholdBins <;> cases hr : gap.zeroBins
  case false.false | true.true => exact absurd (hl.trans hr.symm) hgap
  all_goals
    simp only [Bool.false_eq_true, if_true, if_false]
    omega

/-- A tree with codes that lacks one column of them fails its check, and only for that. -/
theorem validate_withGap {t : Tree} (h : t.WellFormed) (hbins : t.hasBins = true) {gap : Gap}
    (hgap : gap.Uneven) :
    (t.withGap gap).validate = fail (.binLengths (if gap.thresholdBins then 0 else t.size)
      (if gap.zeroBins then 0 else t.size) t.size) := by
  have columns : ∀ column, (t.withGap gap).columnSize column = (t.withGap gap).size :=
    fun column => (t.columnSize_withBins _ _ column).trans (h.columns column)
  obtain ⟨hthresholds, hzeros⟩ := sizes_withGap hbins gap
  rcases checkBins_cases (t.withGap gap) with ⟨_, hfit⟩ | ⟨hfail, _⟩
  · exact absurd hfit (not_binsFit_withGap h hbins hgap)
  · rw [validate, checkColumns_ok_iff.mpr columns, ok_bind, hfail, fail_bind, hthresholds, hzeros]
    rfl

theorem hasBins_clearBins {t : Tree} (h : t.WellFormed) : t.clearBins.hasBins = false := by
  have hpos := h.nonempty
  have hne : ¬0 = t.size := by omega
  simpa [hasBins, clearBins, size] using hne

end Tree

namespace Forest

/-- The forest without the columns of codes that are left out of its trees. -/
def withGaps (f : Forest) (gaps : Nat → Gap) : Forest :=
  { f with trees := f.trees.mapIdx fun place t => t.withGap (gaps place) }

/-- The document of the forest without the columns of codes that are left out of its trees. -/
def dumpWithGaps (f : Forest) (gaps : Nat → Gap) : Document :=
  f.dump.changeField "trees" (changeItems fun place d => d.without (gaps place).omits)

/-- Takes the codes of some trees away and leaves the table. -/
def clearBinsOf (f : Forest) (chosen : Nat → Bool) : Forest :=
  { f with trees := f.trees.mapIdx fun place t => if chosen place then t.clearBins else t }

theorem withGaps_both (f : Forest) (chosen : Nat → Bool) :
    f.withGaps (fun place => .both (chosen place)) = f.clearBinsOf chosen := by
  simp only [withGaps, Tree.withGap_both, clearBinsOf]

theorem clearBins_withGaps (f : Forest) (gaps : Nat → Gap) :
    (f.withGaps gaps).clearBins = f.clearBins := by
  have htrees : (f.withGaps gaps).trees.map Tree.clearBins = f.trees.map Tree.clearBins := by
    apply Array.ext_getElem?
    intro place
    simp only [withGaps, Array.getElem?_map, Array.getElem?_mapIdx, Option.map_map]
    rfl
  simp only [clearBins, htrees]
  rfl

theorem load_dumpWithGaps {f : Forest} (hfinite : f.Finite)
    (htable : ∀ table, f.table = some table → table.WellFormed) (gaps : Nat → Gap) :
    load (f.dumpWithGaps gaps) = .ok (f.withGaps gaps) := by
  have hdump : f.dumpWithGaps gaps = f.document (.list ((f.trees.toList.map Tree.dump).mapIdx
      fun place d => d.without (gaps place).omits)) := rfl
  have htrees : array Tree.load (.list ((f.trees.toList.map Tree.dump).mapIdx
      fun place d => d.without (gaps place).omits)) = .ok (f.withGaps gaps).trees := by
    have hread : ((f.trees.toList.map Tree.dump).mapIdx fun place d =>
        d.without (gaps place).omits).mapM Tree.load = .ok (f.withGaps gaps).trees.toList := by
      refine mapM_eq_ok_of_at (by simp [withGaps]) fun place d t hd ht => ?_
      simp only [withGaps, Array.toList_mapIdx, List.getElem?_mapIdx, List.getElem?_map,
        Option.map_map, Option.map_eq_some_iff, Function.comp_apply] at hd ht
      obtain ⟨u, hu, rfl⟩ := ht
      obtain ⟨u', hu', rfl⟩ := hd
      cases Option.some.inj (hu.symm.trans hu')
      have hmem := Array.mem_toList_iff.mp (List.mem_of_getElem? hu)
      exact Tree.load_without (u.carries_dump.read (hfinite.trees u hmem)) (gaps place)
    exact then_ok hread rfl
  rw [hdump]
  exact (carries_document htable (.always htrees)).read ⟨trivial, hfinite.baseScore, hfinite.table⟩

theorem getElem?_withGaps (f : Forest) (gaps : Nat → Gap) (place : Nat) :
    (f.withGaps gaps).trees[place]? = f.trees[place]?.map fun t => t.withGap (gaps place) :=
  Array.getElem?_mapIdx

theorem mem_withGaps {f : Forest} {gaps : Nat → Gap} {u : Tree} (h : u ∈ (f.withGaps gaps).trees) :
    ∃ place < f.trees.size, ∃ t ∈ f.trees, u = t.withGap (gaps place) := by
  obtain ⟨place, hplace, rfl⟩ := Array.mem_mapIdx.mp h
  exact ⟨place, hplace, _, Array.getElem_mem hplace, rfl⟩

theorem WellFormed.withGaps {f : Forest} (h : f.WellFormed) {gaps : Nat → Gap}
    (hgaps : ∀ place < f.trees.size, ¬(gaps place).Uneven) : (f.withGaps gaps).WellFormed where
  baseScore := h.baseScore
  groups := h.groups.trans Array.size_mapIdx.symm
  inRange := h.inRange
  trees := fun u hu => by
    obtain ⟨place, hplace, t, ht, rfl⟩ := mem_withGaps hu
    exact (h.trees t ht).withGap (hgaps place hplace)
  within := fun u hu => by
    obtain ⟨_, _, t, ht, rfl⟩ := mem_withGaps hu
    exact h.within t ht

/-- The check of a forest with codes reports the first tree that lacks one column of them. -/
theorem validate_withGaps {f : Forest} (h : f.WellFormed) (hbins : ∀ t ∈ f.trees, t.hasBins = true)
    {gaps : Nat → Gap} {place : Nat} {t : Tree} (ht : f.trees[place]? = some t)
    (hplace : (gaps place).Uneven) (hfirst : ∀ earlier < place, ¬(gaps earlier).Uneven) :
    (f.withGaps gaps).validate = fail (.invalidTree place (.binLengths
      (if (gaps place).thresholdBins then 0 else t.size)
      (if (gaps place).zeroBins then 0 else t.size) t.size)) := by
  have hmem := Array.mem_of_getElem? ht
  have hat : (f.withGaps gaps).trees[place]? = some (t.withGap (gaps place)) := by
    rw [getElem?_withGaps, ht, Option.map_some]
  have hinvalid := Tree.validate_withGap (h.trees t hmem) (hbins t hmem) hplace
  refine validate_eq_fail_iff.mpr <| .tree h.baseScore (h.groups.trans Array.size_mapIdx.symm)
    h.inRange hat (.invalid hinvalid) fun earlier hlt u hu => ?_
  rw [getElem?_withGaps, Option.map_eq_some_iff] at hu
  obtain ⟨v, hv, rfl⟩ := hu
  have hmem := Array.mem_of_getElem? hv
  exact Tree.usable_iff.mpr ⟨(h.trees v hmem).withGap (hfirst earlier hlt), h.within v hmem⟩

theorem isQuantized_clearBinsOf {f : Forest} (h : f.WellFormed) {chosen : Nat → Bool} {place : Nat}
    (hplace : place < f.trees.size) (hchosen : chosen place = true) :
    (f.clearBinsOf chosen).isQuantized = false := by
  have hmem : f.trees[place].clearBins ∈ (f.clearBinsOf chosen).trees :=
    Array.mem_mapIdx.mpr ⟨place, hplace, if_pos hchosen⟩
  have hbins := Tree.hasBins_clearBins (h.trees _ (Array.getElem_mem hplace))
  refine Bool.and_eq_false_iff.mpr (Or.inr (Bool.eq_false_iff.mpr fun hall => ?_))
  rw [Array.all_eq_true_iff_forall_mem] at hall
  exact absurd (hall _ hmem) (by rw [hbins]; decide)

/-- What a forest has that quantizing with its own table does not change. -/
theorem codes_of_quantize {f : Forest} (h : f.WellFormed) (hq : f.quantize = .ok (f, .ok ())) :
    ∃ table, f.table = some table ∧ table.WellFormed ∧ ∀ t ∈ f.trees, t.hasBins = true := by
  obtain ⟨table, hown, hwith⟩ := quantizeWith_ownTable hq
  obtain ⟨_, htable, _, _, hcoded⟩ := quantizeWith_ok h hwith
  exact ⟨table, htable, wellFormed_of_coded h.trees hown hcoded, fun t ht => (hcoded t ht).bins⟩

end Forest

open Predictor in
/-- Models without codes. Leave both columns of codes out of the documents of some trees, at least
one, of a valid forest with finite numbers that was quantized. The forest that is read has its table
and all but the codes of those trees. It passes its check, but does not count as quantized and gets
no predictor on codes; on raw values it is predicted as before, and quantizing it gives back the
forest that there was. If only one column is left out of the document of a tree, the forest is
read too, but the check refuses the first such tree. -/
theorem load_without_codes {f g : Forest} (hq : f.quantize = .ok (g, .ok ()))
    (hvalid : g.validate = .ok ()) (hfinite : g.Finite) :
    (∀ chosen : Nat → Bool, (∃ place < g.trees.size, chosen place = true) →
      ∃ h, Forest.load (g.dumpWithGaps fun place => .both (chosen place)) = .ok h ∧
        h = g.clearBinsOf chosen ∧ h.validate = .ok () ∧ h.table.isSome = true ∧
        h.isQuantized = false ∧
        (∀ s : Settings, 0 < s.blockSize → create .binned h s = fail .notQuantized ∧
          ∃ p q, create .raw g s = .ok p ∧ create .raw h s = .ok q ∧ p.AcceptsAll ∧ p.Same q) ∧
        h.quantize = .ok (g, .ok ())) ∧
    ∀ (gaps : Nat → Gap) (place : Nat) (t : Tree), g.trees[place]? = some t →
      (gaps place).Uneven → (∀ earlier < place, ¬(gaps earlier).Uneven) →
      ∃ h, Forest.load (g.dumpWithGaps gaps) = .ok h ∧ h = g.withGaps gaps ∧
        h.validate = fail (.invalidTree place (.binLengths
          (if (gaps place).thresholdBins then 0 else t.size)
          (if (gaps place).zeroBins then 0 else t.size) t.size)) := by
  have hg := Forest.validate_ok_iff.mp hvalid
  have hagain := Forest.quantize_ok_congr (Forest.clearBins_quantize hq) hq
  obtain ⟨table, htable, hwell, hbins⟩ := Forest.codes_of_quantize hg hagain
  have hload := Forest.load_dumpWithGaps hfinite fun other hother =>
    Option.some.inj (htable.symm.trans hother) ▸ hwell
  constructor
  · intro chosen ⟨place, hplace, hchosen⟩
    have hgaps := g.withGaps_both chosen
    have hsame : (g.clearBinsOf chosen).clearBins = g.clearBins := hgaps ▸ g.clearBins_withGaps _
    have hh : (g.clearBinsOf chosen).WellFormed := hgaps ▸ hg.withGaps fun _ _ => not_not.mpr rfl
    have hnot := Forest.isQuantized_clearBinsOf hg hplace hchosen
    have hsome : (g.clearBinsOf chosen).table.isSome = true := by
      rw [Option.isSome_iff_exists]
      exact ⟨table, htable⟩
    refine ⟨_, hgaps ▸ hload _, rfl, Forest.validate_ok_iff.mpr hh, hsome, hnot,
      fun s hs => ⟨create_notQuantized hh hs hnot, ?_⟩, Forest.quantize_ok_congr hsame hagain⟩
    have hp := create_raw hg hs
    have haccepts := acceptsAll_of_covers (sound_of_create hp) Coder.total_raw trivial
    exact ⟨_, _, hp, create_raw hh hs, haccepts, same_raw hsame s⟩
  · intro gaps place t ht hplace hfirst
    exact ⟨_, hload gaps, rfl, Forest.validate_withGaps hg hbins ht hplace hfirst⟩

/-- The staircases with the codes of the table of their own thresholds. -/
def Forest.ownStaircases : Forest :=
  { codedStaircases with table := some ⟨#[⟨0x3f000000⟩, ⟨0xbf800000⟩], #[0, 1, 2]⟩ }

theorem Forest.quantize_staircases : staircases.quantize = .ok (ownStaircases, .ok ()) := by
  have htwice : ∀ x : Binary32, x.isNaN = false → sortThresholds [x, x] = [x] := by
    intro x hx
    have hsorted : [x, x].mergeSort Binary32.totalLe = [x, x] :=
      List.mergeSort_of_pairwise (by simp [Binary32.totalLe])
    rw [sortThresholds, hsorted, dropRepeats, if_pos (Binary32.eqv_self hx), dropRepeats]
  have hsplits : staircases.splits = .ok [(0, ⟨0x3f000000⟩), (1, ⟨0xbf800000⟩),
      (0, ⟨0x3f000000⟩), (1, ⟨0xbf800000⟩)] := by
    decide +kernel
  have hlists : ThresholdTable.ofLists [[⟨0x3f000000⟩, ⟨0x3f000000⟩],
      [⟨0xbf800000⟩, ⟨0xbf800000⟩]] = .ok ⟨#[⟨0x3f000000⟩, ⟨0xbf800000⟩], #[0, 1, 2]⟩ := by
    simp only [ThresholdTable.ofLists, ThresholdTable.addFeatures, htwice ⟨0x3f000000⟩ rfl,
      htwice ⟨0xbf800000⟩ rfl]
    decide +kernel
  rw [quantize_of_ownTable ((ownTable_of_splits hsplits).mpr hlists)]
  decide +kernel

/-- The second staircase comes back without codes, or with half of them. -/
theorem load_without_codes_staircases :
    (∃ h, Forest.load (Forest.ownStaircases.dumpWithGaps fun place => .both (place == 1)) = .ok h ∧
      h.validate = .ok () ∧ h.isQuantized = false ∧
      h.quantize = .ok (.ownStaircases, .ok ())) ∧
    ∃ h, Forest.load (Forest.ownStaircases.dumpWithGaps fun place => ⟨place == 1, false⟩) = .ok h ∧
      h.validate = fail (.invalidTree 1 (.binLengths 0 5 5)) := by
  have hfinite : Forest.ownStaircases.Finite := by
    refine ⟨by decide +kernel, by decide +kernel, fun table htable => ?_⟩
    cases htable
    decide +kernel
  obtain ⟨hwithout, hhalf⟩ :=
    load_without_codes Forest.quantize_staircases (by decide +kernel) hfinite
  constructor
  · obtain ⟨h, hload, _, hvalid, _, hnot, _, hagain⟩ :=
      hwithout (fun place => place == 1) ⟨1, by decide, rfl⟩
    exact ⟨h, hload, hvalid, hnot, hagain⟩
  · obtain ⟨h, hload, _, hrefused⟩ :=
      hhalf (fun place => ⟨place == 1, false⟩) 1 _ rfl (by decide) (by decide)
    exact ⟨h, hload, hrefused⟩

end TreeEnsemble
