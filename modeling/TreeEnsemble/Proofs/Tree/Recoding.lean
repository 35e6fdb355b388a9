import TreeEnsemble.Proofs.Tree.Agreement

/-!
Trees that differ in their codes only. Walks by numbers never see a code. Walks by codes see how the
code of a value compares with the code of a threshold, and two tables that list the threshold agree
on that, whatever else they list.
-/

namespace TreeEnsemble

/-- Slots for the same values, as codes of two tables. -/
def CodedAlike (table table' : ThresholdTable) (slots slots' : Array Slot) : Prop :=
  ∀ feature, (present? slots feature = none ∧ present? slots' feature = none) ∨
    ∃ x bin bin', table.valueBin feature x = .ok bin ∧ table'.valueBin feature x = .ok bin' ∧
      present? slots feature = some (.ofBin bin) ∧ present? slots' feature = some (.ofBin bin')

theorem codedAlike_denseSlots {table table' : ThresholdTable} {policy : MissingPolicy}
    {row : Array Binary32} {width : Nat} {slots slots' : Array Slot}
    (h : denseSlots (.binned table) policy row width = .ok slots)
    (h' : denseSlots (.binned table') policy row width = .ok slots') :
    CodedAlike table table' slots slots' := by
  intro feature
  have hsize := size_of_denseSlots h
  have hsize' := size_of_denseSlots h'
  unfold present?
  by_cases hin : feature < width
  · have hs : slots[feature]? = some slots[feature] := Array.getElem?_eq_getElem (by omega)
    have hs' : slots'[feature]? = some slots'[feature] := Array.getElem?_eq_getElem (by omega)
    obtain ⟨x, hx, hslot⟩ := slot_of_denseSlots h hs
    obtain ⟨x', hx', hslot'⟩ := slot_of_denseSlots h' hs'
    cases Option.some.inj (hx.symm.trans hx')
    rw [hs, hs']
    unfold Coder.slot at hslot hslot'
    by_cases hhides : policy.hides x = true
    · rw [if_pos hhides] at hslot hslot'
      rw [← Except.ok.inj hslot, ← Except.ok.inj hslot']
      exact Or.inl ⟨rfl, rfl⟩
    · rw [if_neg hhides] at hslot hslot'
      obtain ⟨bin, hbin, hslot⟩ := bind_eq_ok_iff.mp hslot
      obtain ⟨bin', hbin', hslot'⟩ := bind_eq_ok_iff.mp hslot'
      rw [← Except.ok.inj hslot, ← Except.ok.inj hslot']
      exact Or.inr ⟨x, bin, bin', hbin, hbin', rfl, rfl⟩
  · rw [Array.getElem?_eq_none (by omega), Array.getElem?_eq_none (by omega)]
    exact Or.inl ⟨rfl, rfl⟩

namespace Tree

theorem exists_withBins {t u : Tree} (h : u.clearBins = t.clearBins) :
    ∃ thresholdBins zeroBins, u = t.withBins thresholdBins zeroBins := by
  refine ⟨u.thresholdBins, u.zeroBins, ?_⟩
  show u.clearBins.withBins u.thresholdBins u.zeroBins = _
  rw [h]
  rfl

theorem leafFor_raw_recoded {t u : Tree} (h : u.clearBins = t.clearBins) (slots : Array Slot) :
    u.leafFor .raw slots = t.leafFor .raw slots := by
  obtain ⟨_, _, rfl⟩ := exists_withBins h
  exact leafFor_congr rfl rfl fun _ _ => rfl

section Codes

variable {t : Tree} {thresholdBins zeroBins : Array Int32} {table table' : ThresholdTable}
  (ht : table.WellFormed) (hsmall : table.Small) (ht' : table'.WellFormed)
  (hsmall' : table'.Small)

include ht hsmall ht' hsmall'

/-- A value chooses the same child by the codes of two tables. -/
theorem branch_recoded {node feature feature' : Nat} {threshold threshold' x : Binary32}
    {bin zero bin' zero' value value' : Int32}
    (h : t.SplitCodes table node feature threshold bin zero)
    (h' : (t.withBins thresholdBins zeroBins).SplitCodes table' node feature' threshold' bin' zero')
    (hvalue : table.valueBin feature x = .ok value)
    (hvalue' : table'.valueBin feature x = .ok value') :
    (t.withBins thresholdBins zeroBins).branch .binned node (.ofBin value') =
      t.branch .binned node (.ofBin value) := by
  cases Except.ok.inj (h.feature_eq.symm.trans h'.feature_eq)
  cases Except.ok.inj (h.threshold_eq.symm.trans h'.threshold_eq)
  have hcompare := ThresholdTable.compare_bins_agree ht hsmall ht' hsmall' hvalue h.ofThreshold
    hvalue' h'.ofThreshold
  have horder : Scale.binned.order (t.withBins thresholdBins zeroBins) node (.ofBin value') =
      Scale.binned.order t node (.ofBin value) := by
    rw [h'.order_binned, h.order_binned, hcompare]
  simp only [branch, horder]
  rfl

theorem childFor_recoded {slots slots' : Array Slot} {node : Nat} (hc : t.CodedBy table)
    (hc' : (t.withBins thresholdBins zeroBins).CodedBy table')
    (hslots : CodedAlike table table' slots slots') (hl : t.leaf[node]? = some false) :
    (t.withBins thresholdBins zeroBins).childFor .binned slots' node =
      t.childFor .binned slots node := by
  obtain ⟨feature, threshold, bin, zero, codes⟩ := hc.splits node hl
  obtain ⟨feature', threshold', bin', zero', codes'⟩ := hc'.splits node hl
  cases Except.ok.inj (codes.feature_eq.symm.trans codes'.feature_eq)
  have hf := codes.feature_eq
  have hf' := codes'.feature_eq
  rcases hslots feature with ⟨hs, hs'⟩ | ⟨x, value, value', hvalue, hvalue', hs, hs'⟩
  · -- the codes of zero differ, but they stand for one value
    have hbranch :=
      branch_recoded ht hsmall ht' hsmall' codes codes' codes.ofZero codes'.ofZero
    exact childFor_absent hf' hf hs' hs rfl rfl codes'.zeroSlot_binned codes.zeroSlot_binned hbranch
  · rw [childFor_present hf hs, childFor_present hf' hs']
    exact branch_recoded ht hsmall ht' hsmall' codes codes' hvalue hvalue'

/-- One tree, coded by two tables, sends a row bound with each of them to one leaf. -/
theorem leafFor_binned_recoded {u : Tree} {slots slots' : Array Slot}
    (h : u.clearBins = t.clearBins) (hc : t.CodedBy table) (hc' : u.CodedBy table')
    (hslots : CodedAlike table table' slots slots') :
    u.leafFor .binned slots' = t.leafFor .binned slots := by
  obtain ⟨_, _, rfl⟩ := exists_withBins h
  exact leafFor_congr rfl rfl fun _ hl =>
    childFor_recoded ht hsmall ht' hsmall' hc hc' hslots hl

end Codes

end Tree

end TreeEnsemble
