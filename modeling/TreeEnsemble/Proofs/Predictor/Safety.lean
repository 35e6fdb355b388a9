import TreeEnsemble.Proofs.Predictor.Batch

/-!
No prediction of an accepted predictor faults. The checks of the forest and of its table are enough
for every read and write along the way, whatever the model and the input hold; and an input of the
right shape is refused only when the table does not cover its features.
-/

namespace TreeEnsemble.Predictor

theorem bindRow_answers {p : Predictor} (hc : p.coder.Total) (row : Array Binary32)
    (old : Array Slot) : ∃ new r, p.bindRow row old = .ok (new, r) := by
  unfold bindRow
  split
  next => exact ⟨_, _, rfl⟩
  next =>
    obtain ⟨new, r, h⟩ :=
      Attempt.update_answers old (denseSlots_ne_fault hc p.policy row old.size)
    exact ⟨new, r.mapError .bind, by rw [bindDense, h]; rfl⟩

theorem bindSparseRow_answers {p : Predictor} (hc : p.coder.Total) (indices : List UInt32)
    (values : List Binary32) (old : Array Slot) :
    ∃ new r, p.bindSparseRow indices values old = .ok (new, r) := by
  unfold bindSparseRow
  split
  next => exact ⟨_, _, rfl⟩
  next =>
    obtain ⟨new, r, h⟩ :=
      Attempt.update_answers old (sparseSlots_ne_fault hc p.policy indices values old)
    exact ⟨new, r.mapError .bind, by rw [bindSparse, h]; rfl⟩

theorem predictRow_answers {p : Predictor} (h : p.Sound) (hc : p.coder.Total)
    (row : Array Binary32) : ∃ answer, p.predictRow row = .ok answer := by
  obtain ⟨slots, r, hbind⟩ := bindRow_answers hc row p.newSlots
  cases r with
  | ok _ => exact ⟨_, predictRow_of_bound h hbind⟩
  | error e =>
    refine ⟨.error e, ?_⟩
    simp only [predictRow, predictRowInto, hbind, ok_bind, pure_eq_ok]

theorem predictSparseRow_covered {p : Predictor} (h : p.Sound) (hc : p.coder.Total)
    (hcov : p.coder.Covers p.width) {indices : List UInt32} {values : List Binary32}
    (hcheck : checkSparse indices values p.width = .ok ()) :
    ∃ out, p.predictSparseRow indices values = .ok (.ok out) := by
  rw [← p.size_newSlots] at hcheck hcov
  obtain ⟨slots, hd, _⟩ := sparseSlots_ok hc p.policy hcheck hcov
  exact ⟨_, predictSparseRow_ok h hd⟩

theorem predictSparseRow_answers {p : Predictor} (h : p.Sound) (hc : p.coder.Total)
    (indices : List UInt32) (values : List Binary32) :
    ∃ answer, p.predictSparseRow indices values = .ok answer := by
  obtain ⟨slots, r, hbind⟩ := bindSparseRow_answers hc indices values p.newSlots
  cases r with
  | ok _ => exact ⟨_, predictSparseRow_of_bound h hbind⟩
  | error e =>
    refine ⟨.error e, ?_⟩
    simp only [predictSparseRow, hbind, ok_bind, pure_eq_ok]

theorem binds_of_covers {p : Predictor} (hc : p.coder.Total) (hcov : p.coder.Covers p.width)
    {features : Matrix} (hw : features.width = p.width) :
    ∃ bound, p.Binds features bound (List.range features.height) := by
  refine exists_binds fun i hi => ?_
  obtain ⟨row, hrow, hsize⟩ := Matrix.row_ok (List.mem_range.mp hi)
  obtain ⟨slots, hd⟩ := denseSlots_ok hc p.policy (hsize.trans hw) hcov
  exact ⟨row, slots, hrow, hd⟩

/-- Each row, sparse row and batch of the right shape is predicted. -/
structure AcceptsAll (p : Predictor) : Prop where
  row : ∀ row, row.size = p.width → ∃ out, p.predictRow row = .ok (.ok out)
  sparseRow : ∀ indices values, indices.length = values.length →
    (∀ i ∈ indices, i.toNat < p.width) → ∃ out, p.predictSparseRow indices values = .ok (.ok out)
  batch : ∀ features available (schedule : Schedule) output, features.width = p.width →
    0 < available → (∀ n, (schedule n).Perm (List.range n)) → output.height = p.groupCount →
    output.width = features.height →
    ∃ m, p.predictInto features available schedule output = .ok (m, .ok ())

theorem acceptsAll_of_covers {p : Predictor} (h : p.Sound) (hc : p.coder.Total)
    (hcov : p.coder.Covers p.width) : p.AcceptsAll where
  row := by
    intro row hr
    obtain ⟨slots, hd⟩ := denseSlots_ok hc p.policy hr hcov
    exact ⟨_, predictRow_ok h hd⟩
  sparseRow := fun _ _ hlen hin => predictSparseRow_covered h hc hcov (checkSparse_ok hlen hin)
  batch := by
    intro features available schedule output hw ha hs hh hn
    obtain ⟨bound, hb⟩ := binds_of_covers hc hcov hw
    exact ⟨_, predictInto_ok h hw hh hn ha hs hb⟩

end TreeEnsemble.Predictor
