import TreeEnsemble.Proofs.Binding
import TreeEnsemble.Proofs.Forest.Quantization
import TreeEnsemble.Proofs.Tree.Walk

/-!
Walks on both scales agree. In a tree with the codes of a table, slots that stand for the same
values choose the same child at every split, by numbers on one side and by codes on the other.
-/

namespace TreeEnsemble

theorem SameRow.present? {table : ThresholdTable} {raw binned : Array Slot}
    (h : SameRow table raw binned) (feature : Nat) :
    (present? raw feature = none ∧ present? binned feature = none) ∨
      ∃ x bin, x.isNaN = false ∧ table.valueBin feature x = .ok bin ∧
        present? raw feature = some (.ofFloat x) ∧ present? binned feature = some (.ofBin bin) := by
  obtain ⟨hsize, hsame⟩ := h
  by_cases hin : feature < raw.size
  · obtain ⟨r, hr⟩ : ∃ r, raw[feature]? = some r := ⟨_, Array.getElem?_eq_getElem hin⟩
    obtain ⟨b, hb⟩ : ∃ b, binned[feature]? = some b :=
      ⟨_, Array.getElem?_eq_getElem (hsize ▸ hin)⟩
    cases hsame feature r b hr hb with
    | missing =>
      left
      simp [TreeEnsemble.present?, hr, hb, Slot.isMissing, Slot.missing]
    | @value x bin hx hbin =>
      right
      refine ⟨x, bin, hx, hbin, ?_, ?_⟩
      · simp [TreeEnsemble.present?, hr, Slot.isMissing, Slot.ofFloat]
      · simp [TreeEnsemble.present?, hb, Slot.isMissing, Slot.ofBin]
  · left
    unfold TreeEnsemble.present?
    rw [Array.getElem?_eq_none (by omega), Array.getElem?_eq_none (by omega)]
    exact ⟨rfl, rfl⟩

namespace Tree

theorem SplitCodes.order_binned {t : Tree} {table : ThresholdTable} {node feature : Nat}
    {threshold : Binary32} {bin zero : Int32}
    (h : t.SplitCodes table node feature threshold bin zero) (code : Int32) :
    Scale.binned.order t node (.ofBin code) = .ok (some (compare code.toInt bin.toInt)) := by
  have hcode : (Slot.ofBin code).asBin = code := Int32.toInt32_toUInt32 code
  simp only [Scale.order, h.bin_eq, ok_bind, hcode, pure_eq_ok]

theorem SplitCodes.zeroSlot_binned {t : Tree} {table : ThresholdTable} {node feature : Nat}
    {threshold : Binary32} {bin zero : Int32}
    (h : t.SplitCodes table node feature threshold bin zero) :
    Scale.binned.zeroSlot t node = .ok (.ofBin zero) := by
  simp only [Scale.zeroSlot, h.zero_eq, ok_bind, pure_eq_ok]

theorem SplitCodes.order {t : Tree} {table : ThresholdTable} {node feature : Nat}
    {threshold v : Binary32} {bin zero code : Int32}
    (h : t.SplitCodes table node feature threshold bin zero) (ht : table.WellFormed)
    (hsmall : table.Small) (hv : v.isNaN = false) (hcode : table.valueBin feature v = .ok code) :
    Scale.raw.order t node (.ofFloat v) = Scale.binned.order t node (.ofBin code) := by
  have hvalue : (Slot.ofFloat v).asFloat = v := rfl
  rw [h.order_binned code, ThresholdTable.compare_bins ht hsmall hv hcode h.ofThreshold]
  simp only [Scale.order, h.threshold_eq, ok_bind, hvalue, pure_eq_ok]

theorem SplitCodes.branch {t : Tree} {table : ThresholdTable} {node feature : Nat}
    {threshold v : Binary32} {bin zero code : Int32}
    (h : t.SplitCodes table node feature threshold bin zero) (ht : table.WellFormed)
    (hsmall : table.Small) (hv : v.isNaN = false) (hcode : table.valueBin feature v = .ok code) :
    t.branch .raw node (.ofFloat v) = t.branch .binned node (.ofBin code) := by
  simp only [Tree.branch, h.order ht hsmall hv hcode]

theorem childFor_sameRow {t : Tree} {table : ThresholdTable} {raw binned : Array Slot} {node : Nat}
    (ht : table.WellFormed) (hsmall : table.Small) (hc : t.CodedBy table)
    (hrow : SameRow table raw binned) (hl : t.leaf[node]? = some false) :
    t.childFor .raw raw node = t.childFor .binned binned node := by
  obtain ⟨feature, threshold, bin, zero, codes⟩ := hc.splits node hl
  have hf := codes.feature_eq
  rcases hrow.present? feature with ⟨hr, hb⟩ | ⟨x, code, hx, hcode, hr, hb⟩
  · have hzero : Scale.raw.zeroSlot t node = .ok (.ofFloat .zero) := rfl
    -- the stored code of zero stands for zero
    have hbranch := codes.branch ht hsmall (by decide) codes.ofZero
    exact childFor_absent hf hf hr hb rfl rfl hzero codes.zeroSlot_binned hbranch
  · rw [childFor_present hf hr, childFor_present hf hb]
    exact codes.branch ht hsmall hx hcode

theorem leafFor_sameRow {t : Tree} {table : ThresholdTable} {raw binned : Array Slot}
    (ht : table.WellFormed) (hsmall : table.Small) (hc : t.CodedBy table)
    (hrow : SameRow table raw binned) : t.leafFor .raw raw = t.leafFor .binned binned :=
  leafFor_congr rfl rfl fun _ hl => childFor_sameRow ht hsmall hc hrow hl

end Tree

end TreeEnsemble
