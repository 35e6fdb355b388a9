import TreeEnsemble.Forest.Quantization
import TreeEnsemble.Proofs.Threshold.Coding

/-!
What a threshold table is, whoever made it. The check of stored parts accepts the pairs of arrays
that are partitioned into increasing runs, and no others; tables made from lists or from a forest
are such pairs, and every look-up in one has an answer.
-/

namespace TreeEnsemble

namespace ThresholdTable

/-- The offsets cut the thresholds into one strictly increasing run for each feature, unless there
is neither an offset nor a threshold. -/
def Partitioned (t : ThresholdTable) : Prop :=
  (t.thresholds = #[] ∧ t.offsets = #[]) ∨
    t.Cut ∧ ∀ (feature : Nat) (first last : UInt32), t.offsets[feature]? = some first →
      t.offsets[feature + 1]? = some last →
      Increasing (t.thresholds.extract first.toNat last.toNat).toList

theorem Cut.thresholdsOf_eq {t : ThresholdTable} (h : t.Cut) {feature : Nat} {first last : UInt32}
    (hf : t.offsets[feature]? = some first) (hl : t.offsets[feature + 1]? = some last) :
    t.thresholdsOf feature = .ok (t.thresholds.extract first.toNat last.toNat).toList := by
  have hle := h.ascending feature first last hf hl
  have hr := region_eq_ok hf hl hle (h.offset_le_size hl)
  simp only [thresholdsOf, hr, ok_bind, pure_eq_ok, Span.read]

theorem Cut.increasing_iff {t : ThresholdTable} (h : t.Cut) :
    (∀ feature < t.featureCount, ∃ xs, t.thresholdsOf feature = .ok xs ∧ Increasing xs) ↔
      ∀ (feature : Nat) (first last : UInt32), t.offsets[feature]? = some first →
        t.offsets[feature + 1]? = some last →
        Increasing (t.thresholds.extract first.toNat last.toNat).toList := by
  constructor
  · intro hall feature first last hf hl
    have hin := (Array.getElem?_eq_some_iff.mp hl).1
    obtain ⟨xs, hxs, hinc⟩ := hall feature (by unfold featureCount; omega)
    cases Except.ok.inj ((h.thresholdsOf_eq hf hl).symm.trans hxs)
    exact hinc
  · intro hall feature hin
    unfold featureCount at hin
    have hf : t.offsets[feature]? = some t.offsets[feature] :=
      Array.getElem?_eq_getElem (by omega)
    have hl : t.offsets[feature + 1]? = some t.offsets[feature + 1] :=
      Array.getElem?_eq_getElem (by omega)
    exact ⟨_, h.thresholdsOf_eq hf hl, hall feature _ _ hf hl⟩

theorem wellFormed_iff_partitioned {t : ThresholdTable} : t.WellFormed ↔ t.Partitioned := by
  constructor
  · intro h
    rcases Nat.eq_zero_or_pos t.offsets.size with hnone | hpos
    · have hsize := h.noOffsets hnone
      exact Or.inl ⟨Array.eq_empty_of_size_eq_zero hsize, Array.eq_empty_of_size_eq_zero hnone⟩
    · have hcut := h.cut hpos
      exact Or.inr ⟨hcut, hcut.increasing_iff.mp fun feature _ => h.thresholdsOf_ok feature⟩
  · rintro (⟨hthresholds, hoffsets⟩ | ⟨hcut, hruns⟩)
    · obtain ⟨thresholds, offsets⟩ := t
      cases hthresholds
      cases hoffsets
      exact wellFormed_noFeatures (Nat.zero_le 1) nofun
    · exact wellFormed_of_cut hcut (hcut.increasing_iff.mpr hruns)

end ThresholdTable

theorem Forest.ownTable_ok {f : Forest} {table : ThresholdTable} (h : f.ownTable = .ok table) :
    ∃ lists, ThresholdTable.ofLists lists = .ok table := by
  obtain ⟨splits, _, h⟩ := bind_eq_ok_iff.mp h
  dsimp only at h
  split at h
  next t ht =>
    cases h
    exact ⟨_, ht⟩
  next => exact absurd h fail_ne_ok

theorem Forest.made_ownTable {f : Forest} {table : ThresholdTable} (h : f.ownTable = .ok table) :
    table.Made := by
  obtain ⟨_, hlists⟩ := ownTable_ok h
  exact .ofLists hlists

namespace ThresholdTable

/-- A list with both zeros and a repeat, an empty list, and an infinity. -/
def mixedLists : List (List Binary32) :=
  [[⟨0x3f000000⟩, .zero, ⟨0x3f000000⟩, ⟨0x80000000⟩], [], [⟨0x7f800000⟩]]

/-- The table of the mixed lists, in which the negative zero stands for both. -/
def mixedTable : ThresholdTable :=
  ⟨#[⟨0x80000000⟩, ⟨0x3f000000⟩, ⟨0x7f800000⟩], #[0, 2, 2, 3]⟩

theorem ofLists_mixedLists : ofLists mixedLists = .ok mixedTable := by
  have hsort : [⟨0x3f000000⟩, .zero, ⟨0x3f000000⟩, ⟨0x80000000⟩].mergeSort Binary32.totalLe =
      [⟨0x80000000⟩, .zero, ⟨0x3f000000⟩, ⟨0x3f000000⟩] := by
    simp [List.mergeSort, List.MergeSort.Internal.splitInTwo, Binary32.totalLe,
      Binary32.totalRank, Binary32.negative, Binary32.magnitude, Binary32.zero]
  have hfirst : sortThresholds [⟨0x3f000000⟩, .zero, ⟨0x3f000000⟩, ⟨0x80000000⟩] =
      [⟨0x80000000⟩, ⟨0x3f000000⟩] := by
    rw [sortThresholds, hsort, dropRepeats, if_pos (by decide), dropRepeats, if_neg (by decide),
      dropRepeats, if_pos (by decide), dropRepeats]
  have hnone : sortThresholds [] = [] := by simp [sortThresholds, dropRepeats]
  have hlast : sortThresholds [⟨0x7f800000⟩] = [⟨0x7f800000⟩] := by
    simp [sortThresholds, dropRepeats]
  simp only [ofLists, mixedLists, addFeatures, hfirst, hnone, hlast]
  decide +kernel

end ThresholdTable

end TreeEnsemble
