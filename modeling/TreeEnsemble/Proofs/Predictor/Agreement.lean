import TreeEnsemble.Proofs.Predictor.Safety
import TreeEnsemble.Proofs.Tree.Agreement

/-!
Predictors on raw values and on codes agree. With NaN as missing, both bind each input to slots for
the same values, so all trees of a coded forest reach the same leaves on both scales.
-/

namespace TreeEnsemble

theorem sameRow_sparseSlots {table : ThresholdTable} {indices : List UInt32}
    {values : List Binary32} {old old' raw binned : Array Slot} (hold : old.size = old'.size)
    (hr : sparseSlots .raw .nanIsMissing indices values old = .ok raw)
    (hb : sparseSlots (.binned table) .nanIsMissing indices values old' = .ok binned) :
    SameRow table raw binned := by
  obtain ⟨_, _, hr⟩ := bind_eq_ok_iff.mp hr
  obtain ⟨_, _, hr⟩ := bind_eq_ok_iff.mp hr
  obtain ⟨_, _, hb⟩ := bind_eq_ok_iff.mp hb
  obtain ⟨_, _, hb⟩ := bind_eq_ok_iff.mp hb
  have hstart : SameRow table (resetMissing old) (resetMissing old') := by
    rw [resetMissing_eq, resetMissing_eq, hold]
    exact sameRow_missing table old'.size
  exact sameRow_scatter hstart (lift_eq_ok_iff.mp hr) (lift_eq_ok_iff.mp hb)

namespace Predictor

theorem scoreMatrix_congr {p q : Predictor} (hforest : q.forest = p.forest) (h : p.Sound)
    (h' : q.Sound) {bound bound' : Nat → Array Slot} {n : Nat}
    (hscores : ∀ i < n, p.scores (bound i) = q.scores (bound' i)) :
    p.scoreMatrix bound n = q.scoreMatrix bound' n := by
  have hcount : p.groupCount = q.groupCount :=
    congrArg (fun f => f.groupCount.toNat) hforest.symm
  refine Matrix.ext_get? hcount rfl fun group i => ?_
  by_cases hi : i < n
  · rw [get?_scoreMatrix h bound hi, get?_scoreMatrix h' bound' hi, hscores i hi]
  · rw [Matrix.get?_eq_none_of_width (Nat.not_lt.mp hi),
      Matrix.get?_eq_none_of_width (Nat.not_lt.mp hi)]

/-- Two predictors of one forest that bind every row of its width. -/
structure Twins (p q : Predictor) : Prop where
  forest : q.forest = p.forest
  sound : p.Sound
  sound' : q.Sound
  total : p.coder.Total
  total' : q.coder.Total
  covers : p.coder.Covers p.width
  covers' : q.coder.Covers q.width

namespace Twins

variable {p q : Predictor}

theorem width (h : Twins p q) : q.width = p.width := congrArg Forest.width h.forest

theorem groupCount (h : Twins p q) : q.groupCount = p.groupCount :=
  congrArg (fun f => f.groupCount.toNat) h.forest

/-- Twins give a row one answer if they give its slots the same scores. -/
theorem predictRow (h : Twins p q) {row : Array Binary32} (hr : row.size = p.width)
    (hscores : ∀ slots slots', denseSlots p.coder p.policy row p.width = .ok slots →
      denseSlots q.coder q.policy row q.width = .ok slots' → p.scores slots = q.scores slots') :
    ∃ out, p.predictRow row = .ok (.ok out) ∧ q.predictRow row = .ok (.ok out) := by
  obtain ⟨slots, hd⟩ := denseSlots_ok h.total p.policy hr h.covers
  obtain ⟨slots', hd'⟩ := denseSlots_ok h.total' q.policy (hr.trans h.width.symm) h.covers'
  refine ⟨p.scores slots, predictRow_ok h.sound hd, ?_⟩
  rw [predictRow_ok h.sound' hd', hscores slots slots' hd hd']

theorem predictSparseRow (h : Twins p q) {indices : List UInt32} {values : List Binary32}
    (hcheck : checkSparse indices values p.width = .ok ())
    (hscores : ∀ slots slots', sparseSlots p.coder p.policy indices values p.newSlots = .ok slots →
      sparseSlots q.coder q.policy indices values q.newSlots = .ok slots' →
      p.scores slots = q.scores slots') :
    ∃ out, p.predictSparseRow indices values = .ok (.ok out) ∧
      q.predictSparseRow indices values = .ok (.ok out) := by
  have hsize := p.size_newSlots
  have hsize' : q.newSlots.size = p.width := q.size_newSlots.trans h.width
  have hcov : p.coder.Covers p.newSlots.size := hsize.symm ▸ h.covers
  have hcov' : q.coder.Covers q.newSlots.size := q.size_newSlots.symm ▸ h.covers'
  obtain ⟨slots, hd, _⟩ := sparseSlots_ok h.total p.policy (hsize.symm ▸ hcheck) hcov
  obtain ⟨slots', hd', _⟩ := sparseSlots_ok h.total' q.policy (hsize'.symm ▸ hcheck) hcov'
  refine ⟨p.scores slots, predictSparseRow_ok h.sound hd, ?_⟩
  rw [predictSparseRow_ok h.sound' hd', hscores slots slots' hd hd']

theorem predictInto (h : Twins p q) {features : Matrix}
    (hscores : ∀ i row slots slots', features.row i = .ok row →
      denseSlots p.coder p.policy row p.width = .ok slots →
      denseSlots q.coder q.policy row q.width = .ok slots' → p.scores slots = q.scores slots')
    {available available' : Nat} {schedule schedule' : Schedule} (output : Matrix)
    (ha : 0 < available) (ha' : 0 < available') (hs : ∀ n, (schedule n).Perm (List.range n))
    (hs' : ∀ n, (schedule' n).Perm (List.range n)) :
    p.predictInto features available schedule output =
      q.predictInto features available' schedule' output := by
  by_cases hw : features.width = p.width
  · have hw' : features.width = q.width := hw.trans h.width.symm
    by_cases hshape : output.height = p.groupCount ∧ output.width = features.height
    · obtain ⟨hh, hn⟩ := hshape
      obtain ⟨bound, hb⟩ := binds_of_covers h.total h.covers hw
      obtain ⟨bound', hb'⟩ := binds_of_covers h.total' h.covers' hw'
      have hmatrix :
          p.scoreMatrix bound features.height = q.scoreMatrix bound' features.height := by
        refine scoreMatrix_congr h.forest h.sound h.sound' fun i hi => ?_
        obtain ⟨row, hrow, hd⟩ := hb i (List.mem_range.mpr hi)
        obtain ⟨row', hrow', hd'⟩ := hb' i (List.mem_range.mpr hi)
        cases Except.ok.inj (hrow.symm.trans hrow')
        exact hscores i row _ _ hrow hd hd'
      rw [predictInto_ok h.sound hw hh hn ha hs hb,
        predictInto_ok h.sound' hw' (hh.trans h.groupCount.symm) hn ha' hs' hb', hmatrix]
    · have hwrong : output.height ≠ p.groupCount ∨ output.width ≠ features.height := by
        omega
      have hwrong' : output.height ≠ q.groupCount ∨ output.width ≠ features.height := by
        rw [h.groupCount]
        exact hwrong
      simp only [Predictor.predictInto, if_neg (not_not.mpr hw), if_neg (not_not.mpr hw'),
        if_pos hwrong, if_pos hwrong']
  · simp only [Predictor.predictInto, h.width, if_pos hw]

end Twins

/-- Two predictors of one forest whose trees are all coded by a table: one on raw values, one on
the codes of the table. -/
structure Paired (p q : Predictor) (table : ThresholdTable) : Prop where
  forest : q.forest = p.forest
  raw : p.coder = .raw
  binned : q.coder = .binned table
  policy : p.policy = .nanIsMissing
  policy' : q.policy = .nanIsMissing
  sound : p.Sound
  sound' : q.Sound
  total : p.coder.Total
  total' : q.coder.Total
  coded : ∀ t ∈ p.forest.trees, t.CodedBy table
  wellFormed : table.WellFormed
  small : table.Small
  covers : p.width ≤ table.featureCount

namespace Paired

variable {p q : Predictor} {table : ThresholdTable}

theorem width (h : Paired p q table) : q.width = p.width := congrArg Forest.width h.forest

theorem covers' (h : Paired p q table) : q.coder.Covers q.width := by
  rw [h.binned, h.width]
  exact h.covers

theorem scores (h : Paired p q table) {raw binned : Array Slot} (hrow : SameRow table raw binned) :
    p.scores raw = q.scores binned := by
  have hscale : p.scale = .raw := by rw [scale, h.raw, Coder.scale]
  have hscale' : q.scale = .binned := by rw [scale, h.binned, Coder.scale]
  refine scores_congr h.forest fun t ht => ?_
  rw [hscale, hscale']
  exact Tree.leafFor_sameRow h.wellFormed h.small (h.coded t ht) hrow

theorem twins (h : Paired p q table) : Twins p q where
  forest := h.forest
  sound := h.sound
  sound' := h.sound'
  total := h.total
  total' := h.total'
  covers := h.raw ▸ trivial
  covers' := h.covers'

theorem scores_denseSlots (h : Paired p q table) (row : Array Binary32) (raw binned : Array Slot)
    (hd : denseSlots p.coder p.policy row p.width = .ok raw)
    (hd' : denseSlots q.coder q.policy row q.width = .ok binned) :
    p.scores raw = q.scores binned := by
  rw [h.raw, h.policy] at hd
  rw [h.binned, h.policy', h.width] at hd'
  exact h.scores (sameRow_denseSlots hd hd')

theorem predictRow (h : Paired p q table) (row : Array Binary32) :
    p.predictRow row = q.predictRow row := by
  by_cases hr : row.size = p.width
  · obtain ⟨out, hout, hout'⟩ := h.twins.predictRow hr (h.scores_denseSlots row)
    rw [hout, hout']
  · rw [predictRow_width hr, predictRow_width (h.width ▸ hr), h.width]

theorem predictSparseRow (h : Paired p q table) (indices : List UInt32) (values : List Binary32) :
    p.predictSparseRow indices values = q.predictSparseRow indices values := by
  have hsize : p.newSlots.size = q.newSlots.size := by
    rw [size_newSlots, size_newSlots, h.width]
  cases hcheck : checkSparse indices values p.newSlots.size with
  | ok u =>
    obtain ⟨out, hout, hout'⟩ := h.twins.predictSparseRow (p.size_newSlots ▸ hcheck)
      fun raw binned hd hd' => by
        rw [h.raw, h.policy] at hd
        rw [h.binned, h.policy'] at hd'
        exact h.scores (sameRow_sparseSlots hsize hd hd')
    rw [hout, hout']
  | error failure =>
    cases failure with
    | fault fault => exact absurd hcheck (checkSparse_ne_fault indices values _ fault)
    | error e =>
      -- the check comes before any coding
      have hcheck' : checkSparse indices values q.newSlots.size = fail e := hsize ▸ hcheck
      rw [predictSparseRow_error (sparseSlots_refused p.coder p.policy hcheck),
        predictSparseRow_error (sparseSlots_refused q.coder q.policy hcheck')]

theorem predictInto (h : Paired p q table) (features : Matrix) {available available' : Nat}
    {schedule schedule' : Schedule} (output : Matrix) (ha : 0 < available) (ha' : 0 < available')
    (hs : ∀ n, (schedule n).Perm (List.range n)) (hs' : ∀ n, (schedule' n).Perm (List.range n)) :
    p.predictInto features available schedule output =
      q.predictInto features available' schedule' output :=
  h.twins.predictInto (fun _ row raw binned _ => h.scores_denseSlots row raw binned) output ha ha'
    hs hs'

end Paired

end Predictor

end TreeEnsemble
