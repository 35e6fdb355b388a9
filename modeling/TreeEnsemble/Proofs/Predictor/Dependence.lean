import TreeEnsemble.Proofs.Predictor.Safety
import TreeEnsemble.Proofs.Tree.Missing

/-!
What a prediction depends on. A walk reads the slots of the features that it tests and no others, so
slots that agree there send it the same way. In a row, then, a feature that no split of the forest
tests has no say, whatever it holds.
-/

namespace TreeEnsemble

namespace Tree

/-- A walk is repeated over slots that agree with its own where it tests them. -/
theorem Descent.of_agrees {t : Tree} {scale : Scale} {a b : Array Slot} {start : Nat}
    {route : Route} (h : t.Descent scale a start route)
    (hsame : ∀ node ∈ route.splits, ∀ feature, t.feature node = .ok feature →
      a[feature]? = b[feature]?) : t.Descent scale b start route := by
  induction h with
  | stop hleaf => exact .stop hleaf
  | @next node child rest hsplit hchild _ ih =>
    obtain ⟨hnode, hrest⟩ := List.forall_mem_cons.mp hsame
    obtain ⟨feature, hf, _⟩ := bind_eq_ok_iff.mp hchild
    have hpresent : present? a feature = present? b feature := by
      rw [present?, present?, hnode feature hf]
    exact .next hsplit ((childFor_congr hf hpresent).symm.trans hchild) (ih hrest)

theorem routeFrom_of_agrees {t : Tree} (h : t.WellFormed) {scale : Scale}
    (hs : t.Readable scale) {a b : Array Slot} {start : Nat} (hstart : start < t.size)
    {route : Route} (hroute : t.routeFrom scale a start = .ok route)
    (hsame : ∀ node ∈ route.splits, ∀ feature, t.feature node = .ok feature →
      a[feature]? = b[feature]?) : t.routeFrom scale b start = .ok route := by
  obtain ⟨route', hroute', hwalk'⟩ := routeFrom_ok h hs b hstart
  have hwalk := (descent_of_routeWithin hroute).of_agrees hsame
  rw [hroute', hwalk.unique hwalk']

end Tree

/-- A split of the forest tests the feature. -/
def Forest.Tests (f : Forest) (feature : Nat) : Prop :=
  ∃ t ∈ f.trees, ∃ node : Nat, t.leaf[node]? = some false ∧ t.feature node = .ok feature

/-- A coder gives equal values of a feature equal slots. -/
theorem getElem?_denseSlots {c : Coder} {policy : MissingPolicy} {row row' : Array Binary32}
    {width : Nat} {slots slots' : Array Slot} (h : denseSlots c policy row width = .ok slots)
    (h' : denseSlots c policy row' width = .ok slots') {feature : Nat}
    (hsame : row[feature]? = row'[feature]?) : slots[feature]? = slots'[feature]? := by
  have hsize : slots.size = slots'.size := (size_of_denseSlots h).trans (size_of_denseSlots h').symm
  cases hs : slots[feature]? with
  | none =>
    have hout := Array.getElem?_eq_none_iff.mp hs
    exact (Array.getElem?_eq_none (hsize ▸ hout)).symm
  | some s =>
    have hin := (Array.getElem?_eq_some_iff.mp hs).1
    have hs' : slots'[feature]? = some slots'[feature] := Array.getElem?_eq_getElem (hsize ▸ hin)
    obtain ⟨x, hx, hslot⟩ := slot_of_denseSlots h hs
    obtain ⟨x', hx', hslot'⟩ := slot_of_denseSlots h' hs'
    cases Option.some.inj (hx.symm.trans (hsame.trans hx'))
    rw [hs', Except.ok.inj (hslot.symm.trans hslot')]

namespace Predictor

/-- Slots that agree on the features that the forest tests get the same scores. -/
theorem scores_of_agrees {p : Predictor} {f : Forest} (hf : p.forest = f)
    (hwell : ∀ t ∈ f.trees, t.WellFormed) {a b : Array Slot}
    (hsame : ∀ feature, f.Tests feature → a[feature]? = b[feature]?) : p.scores a = p.scores b := by
  refine scores_congr rfl fun t ht => ?_
  rw [hf] at ht
  refine Tree.leafFor_congr rfl rfl fun node hl => ?_
  obtain ⟨feature, hfeature⟩ := t.feature_ok ((hwell t ht).lt_of_leaf hl)
  apply Tree.childFor_congr hfeature
  rw [present?, present?, hsame feature ⟨t, ht, node, hl, hfeature⟩]

/-- Rows that agree on the features that the forest tests get the same answer, or one of them is not
answered. -/
theorem predictRow_of_agrees {scale : Scale} {f : Forest} {s : Settings} {p : Predictor}
    (hp : create scale f s = .ok p) {row row' : Array Binary32} (hr : row.size = f.width)
    (hr' : row'.size = f.width)
    (hsame : ∀ feature, f.Tests feature → row[feature]? = row'[feature]?)
    {answer answer' : Except PredictorError (Array Binary32)} (h : p.predictRow row = .ok answer)
    (h' : p.predictRow row' = .ok answer') : answer' = answer := by
  have hsound := sound_of_create hp
  obtain ⟨_, hw, c, _, rfl⟩ := create_ok_iff.mp hp
  rcases c.covers_or_tooSmall f.width with hcov | ⟨table, rfl, hsmall⟩
  · rcases denseSlots_cases c s.policy hr hcov with ⟨slots, hd⟩ | ⟨fault, hd⟩
    · rcases denseSlots_cases c s.policy hr' hcov with ⟨slots', hd'⟩ | ⟨fault, hd'⟩
      · have hscores := scores_of_agrees (p := ⟨f, c, s⟩) rfl hw.trees fun feature ht =>
          getElem?_denseSlots hd hd' (hsame feature ht)
        cases h.symm.trans (predictRow_ok hsound hd)
        cases h'.symm.trans (predictRow_ok hsound hd')
        rw [hscores]
      · cases h'.symm.trans (predictRow_fault hr' hd')
    · cases h.symm.trans (predictRow_fault hr hd)
  · have hrow := predictRow_error (p := ⟨f, .binned table, s⟩) hr
      (denseSlots_tooSmall s.policy hr hsmall)
    have hrow' := predictRow_error (p := ⟨f, .binned table, s⟩) hr'
      (denseSlots_tooSmall s.policy hr' hsmall)
    cases h.symm.trans hrow
    cases h'.symm.trans hrow'
    rfl

/-- A prediction depends on the features that it tests. In a valid tree the walk over some slots is
repeated over any others that agree with them at the features tested on the way. So a predictor
gives one answer to all rows that agree on the features tested by its forest, whatever the rest of
them holds; and if the table of the forest is partitioned, it does give an answer. -/
theorem depends_on_tested_features :
    (∀ t : Tree, t.validate = .ok () → ∀ scale, t.Readable scale → ∀ (a b : Array Slot) start,
      start < t.size → ∃ route, t.routeFrom scale a start = .ok route ∧
        t.leafFrom scale a start = .ok route.leaf ∧
        ((∀ node ∈ route.splits, ∀ feature, t.feature node = .ok feature →
            a[feature]? = b[feature]?) →
          t.routeFrom scale b start = .ok route ∧ t.leafFrom scale b start = .ok route.leaf)) ∧
    ∀ scale f s p, create scale f s = .ok p → ∀ row row' : Array Binary32, row.size = f.width →
      row'.size = f.width → (∀ feature, f.Tests feature → row[feature]? = row'[feature]?) →
      (∀ answer answer', p.predictRow row = .ok answer → p.predictRow row' = .ok answer' →
        answer' = answer) ∧
      ((∀ table, f.table = some table → table.Partitioned) →
        ∃ answer, p.predictRow row = .ok answer ∧ p.predictRow row' = .ok answer) := by
  constructor
  · intro t hvalid scale hs a b start hstart
    have h := Tree.wellFormed_of_validate hvalid
    obtain ⟨route, hroute, _⟩ := Tree.routeFrom_ok h hs a hstart
    refine ⟨route, hroute, Tree.leafFrom_of_routeFrom hroute, fun hsame => ?_⟩
    have hroute' := Tree.routeFrom_of_agrees h hs hstart hroute hsame
    exact ⟨hroute', Tree.leafFrom_of_routeFrom hroute'⟩
  · intro scale f s p hp row row' hr hr' hsame
    refine ⟨fun answer answer' => predictRow_of_agrees hp hr hr' hsame, fun htable => ?_⟩
    have hc := total_of_create hp fun table ht =>
      ThresholdTable.wellFormed_iff_partitioned.mpr (htable table ht)
    obtain ⟨answer, h⟩ := predictRow_answers (sound_of_create hp) hc row
    obtain ⟨answer', h'⟩ := predictRow_answers (sound_of_create hp) hc row'
    cases predictRow_of_agrees hp hr hr' hsame h h'
    exact ⟨answer, h, h'⟩

/-- The coded staircases, in rows with one feature more than they test. -/
def spareFeature : Forest := { Forest.codedStaircases with featureCount := 3 }

theorem depends_on_tested_features_spare :
    (∃ route, Tree.codedStaircase.routeFrom .binned #[.ofBin (-1), .ofBin 5] 0 = .ok route ∧
      Tree.codedStaircase.routeFrom .binned #[.ofBin (-1)] 0 = .ok route) ∧
    ∃ p answer, create .binned spareFeature {} = .ok p ∧
      p.predictRow #[.zero, ⟨0x3f800000⟩, .quietNaN] = .ok answer ∧
      p.predictRow #[.zero, ⟨0x3f800000⟩, .infinity true] = .ok answer := by
  obtain ⟨hwalks, hrows⟩ := depends_on_tested_features
  constructor
  · have hbins : Tree.codedStaircase.hasBins = true := by decide
    obtain ⟨route, hroute, _, hagain⟩ := hwalks Tree.codedStaircase (by decide +kernel) .binned
      hbins #[.ofBin (-1), .ofBin 5] #[.ofBin (-1)] 0 (by decide)
    -- the walk ends below the root, which tests the first feature
    have hshort : Tree.codedStaircase.routeFrom .binned #[.ofBin (-1), .ofBin 5] 0 =
        .ok ⟨[0], 1⟩ := by decide +kernel
    cases hroute.symm.trans hshort
    refine ⟨_, hroute, (hagain fun node hn feature hf => ?_).1⟩
    cases List.mem_singleton.mp hn
    cases hf
    rfl
  · have hw : spareFeature.WellFormed := Forest.validate_ok_iff.mp (by decide +kernel)
    have hp := create_binned (s := {}) hw (by decide) rfl (by decide +kernel)
    have htests : ∀ t ∈ spareFeature.trees, ∀ node < t.size, t.leaf[node]? = some false →
        t.feature node = .ok 0 ∨ t.feature node = .ok 1 := by decide
    have hsame : ∀ feature, spareFeature.Tests feature →
        (#[.zero, ⟨0x3f800000⟩, .quietNaN] : Array Binary32)[feature]? =
          (#[.zero, ⟨0x3f800000⟩, .infinity true] : Array Binary32)[feature]? := by
      rintro feature ⟨t, ht, node, hl, hf⟩
      rcases htests t ht node ((hw.trees t ht).lt_of_leaf hl) hl with hzero | hone
      · cases hf.symm.trans hzero
        rfl
      · cases hf.symm.trans hone
        rfl
    obtain ⟨_, hanswer⟩ := hrows .binned spareFeature {} _ hp _ _ rfl rfl hsame
    obtain ⟨answer, h, h'⟩ := hanswer fun table ht => by
      cases ht
      exact ThresholdTable.wellFormed_iff_partitioned.mp
        (ThresholdTable.ofParts_ok Forest.ofParts_staircaseTable).2
    exact ⟨_, answer, hp, h, h'⟩

end Predictor

end TreeEnsemble
