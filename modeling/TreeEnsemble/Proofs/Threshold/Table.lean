import Mathlib.Algebra.Group.Nat.Defs
import Mathlib.Data.List.Basic
import TreeEnsemble.Threshold.Build

/-!
Well-formed threshold tables: the offsets cut the thresholds into one run per feature, and each run
is strictly increasing. Every operation that makes a table makes a well-formed one, and in a
well-formed table each feature has its thresholds inside the array.
-/

namespace TreeEnsemble

def Increasing (xs : List Binary32) : Prop :=
  (∀ x ∈ xs, x.isNaN = false) ∧ xs.Pairwise fun x y => x.lt y = true

theorem increasing_nil : Increasing [] := ⟨nofun, .nil⟩

theorem increasing_of_neighbours {xs : List Binary32} (hnan : ∀ x ∈ xs, x.isNaN = false)
    (h : ∀ p ∈ neighbours xs, p.2.le p.1 = false) : Increasing xs := by
  refine ⟨hnan, ?_⟩
  induction xs with
  | nil => exact .nil
  | cons x xs ih =>
    have hrest := ih (fun y hy => hnan y (List.mem_cons_of_mem x hy)) fun p hp => h p (by
      cases xs with
      | nil => simp [neighbours] at hp
      | cons y ys => exact List.mem_cons_of_mem _ hp)
    refine List.pairwise_cons.mpr ⟨?_, hrest⟩
    cases xs with
    | nil => simp
    | cons y ys =>
      have hxy : x.lt y = true := Binary32.lt_of_not_le (hnan x (by simp)) (hnan y (by simp))
        (h (x, y) (by simp [neighbours]))
      intro z hz
      rcases List.mem_cons.mp hz with rfl | hz
      · exact hxy
      · exact Binary32.lt_trans hxy ((List.pairwise_cons.mp hrest).1 z hz)

theorem mem_neighbours {α : Type} {xs : List α} {i : Nat} {a b : α} (ha : xs[i]? = some a)
    (hb : xs[i + 1]? = some b) : (a, b) ∈ neighbours xs := by
  refine List.mem_iff_getElem?.mpr ⟨i, ?_⟩
  simp [neighbours, List.getElem?_zip_eq_some, ha, hb]

theorem exists_of_mem_neighbours {α : Type} {xs : List α} {p : α × α} (h : p ∈ neighbours xs) :
    ∃ i : Nat, xs[i]? = some p.1 ∧ xs[i + 1]? = some p.2 := by
  obtain ⟨i, hi⟩ := List.mem_iff_getElem?.mp h
  obtain ⟨ha, hb⟩ := List.getElem?_zip_eq_some.mp hi
  exact ⟨i, ha, by simpa using hb⟩

theorem Increasing.neighbours_le {xs : List Binary32} (h : Increasing xs) {x y : Binary32}
    (hp : (x, y) ∈ neighbours xs) : y.le x = false := by
  obtain ⟨i, hx, hy⟩ := exists_of_mem_neighbours hp
  obtain ⟨hi, hxi⟩ := List.getElem?_eq_some_iff.mp hx
  obtain ⟨hj, hyj⟩ := List.getElem?_eq_some_iff.mp hy
  have hlt := List.pairwise_iff_getElem.mp h.2 i (i + 1) hi hj (Nat.lt_succ_self i)
  rw [hxi, hyj, Binary32.lt_iff] at hlt
  dsimp only at hlt
  rw [Bool.eq_false_iff, ne_eq, Binary32.le_iff]
  omega

namespace ThresholdTable

structure WellFormed (t : ThresholdTable) : Prop where
  noOffsets : t.offsets.size = 0 → t.thresholds.size = 0
  first : ∀ first, t.offsets[0]? = some first → first = 0
  ascending : ∀ (i : Nat) first last, t.offsets[i]? = some first → t.offsets[i + 1]? = some last →
    first ≤ last
  last : ∀ last, t.offsets[t.offsets.size - 1]? = some last → last.toNat = t.thresholds.size
  increasing : ∀ feature xs, t.thresholdsOf feature = .ok xs → Increasing xs

/-- The offsets start at 0, never decrease, and end at the number of thresholds. -/
structure Cut (t : ThresholdTable) : Prop where
  first : t.offsets[0]? = some 0
  ascending : ∀ (i : Nat) first last, t.offsets[i]? = some first → t.offsets[i + 1]? = some last →
    first ≤ last
  last : ∃ last, t.offsets[t.offsets.size - 1]? = some last ∧ last.toNat = t.thresholds.size

theorem Cut.size_pos {t : ThresholdTable} (h : t.Cut) : 0 < t.offsets.size :=
  (Array.getElem?_eq_some_iff.mp h.first).1

theorem WellFormed.cut {t : ThresholdTable} (h : t.WellFormed) (hpos : 0 < t.offsets.size) :
    t.Cut := by
  have hfirst : t.offsets[0]? = some t.offsets[0] := Array.getElem?_eq_getElem hpos
  have hlast : t.offsets[t.offsets.size - 1]? = some t.offsets[t.offsets.size - 1] :=
    Array.getElem?_eq_getElem (by omega)
  exact ⟨h.first _ hfirst ▸ hfirst, h.ascending, _, hlast, h.last _ hlast⟩

theorem Cut.offset_le_size {t : ThresholdTable} (h : t.Cut) {i : Nat} {o : UInt32}
    (ho : t.offsets[i]? = some o) : o.toNat ≤ t.thresholds.size := by
  have hi := (Array.getElem?_eq_some_iff.mp ho).1
  -- from the last offset backwards
  induction hk : t.offsets.size - 1 - i generalizing i o with
  | zero =>
    obtain rfl : i = t.offsets.size - 1 := by omega
    obtain ⟨last, hlast, hsize⟩ := h.last
    cases Option.some.inj (ho.symm.trans hlast)
    exact Nat.le_of_eq hsize
  | succ k ih =>
    have hnext : i + 1 < t.offsets.size := by omega
    have ho' : t.offsets[i + 1]? = some t.offsets[i + 1] := Array.getElem?_eq_getElem hnext
    have hle := UInt32.le_iff_toNat_le.mp (h.ascending i o t.offsets[i + 1] ho ho')
    exact Nat.le_trans hle (ih ho' hnext (by omega))

theorem WellFormed.offset_le_size {t : ThresholdTable} (h : t.WellFormed) {i : Nat} {o : UInt32}
    (ho : t.offsets[i]? = some o) : o.toNat ≤ t.thresholds.size :=
  (h.cut (Nat.zero_lt_of_lt (Array.getElem?_eq_some_iff.mp ho).1)).offset_le_size ho

theorem Cut.region_ok {t : ThresholdTable} (h : t.Cut) (feature : Nat) :
    ∃ r, t.region feature = .ok r ∧ r.start ≤ r.stop ∧ r.stop ≤ t.thresholds.size := by
  unfold region
  split
  next first last hf hl =>
    have hle := h.ascending feature first last hf hl
    have hb := h.offset_le_size hl
    exact ⟨⟨first.toNat, last.toNat⟩, if_pos ⟨hle, hb⟩, UInt32.le_iff_toNat_le.mp hle, hb⟩
  next => exact ⟨⟨0, 0⟩, rfl, Nat.le_refl 0, Nat.zero_le _⟩

theorem region_uncovered {t : ThresholdTable} {feature : Nat} (h : t.featureCount ≤ feature) :
    t.region feature = .ok ⟨0, 0⟩ := by
  have hnone : t.offsets[feature + 1]? = none := by
    unfold featureCount at h
    exact Array.getElem?_eq_none (by omega)
  unfold region
  split
  next hl => cases hl.symm.trans hnone
  next => rfl

theorem WellFormed.region_ok {t : ThresholdTable} (h : t.WellFormed) (feature : Nat) :
    ∃ r, t.region feature = .ok r ∧ r.start ≤ r.stop ∧ r.stop ≤ t.thresholds.size := by
  by_cases hin : t.featureCount ≤ feature
  · exact ⟨⟨0, 0⟩, region_uncovered hin, Nat.le_refl 0, Nat.zero_le _⟩
  · exact (h.cut (by unfold featureCount at hin; omega)).region_ok feature

theorem WellFormed.thresholdsOf_ok {t : ThresholdTable} (h : t.WellFormed) (feature : Nat) :
    ∃ xs, t.thresholdsOf feature = .ok xs ∧ Increasing xs := by
  obtain ⟨r, hr, _⟩ := h.region_ok feature
  have hxs : t.thresholdsOf feature = .ok (r.read t.thresholds).toList := by
    simp [thresholdsOf, hr]
  exact ⟨_, hxs, h.increasing feature _ hxs⟩

theorem length_thresholdsOf_le {t : ThresholdTable} {feature : Nat} {xs : List Binary32}
    (h : t.thresholdsOf feature = .ok xs) : xs.length ≤ t.thresholdCount := by
  obtain ⟨r, _, h⟩ := bind_eq_ok_iff.mp h
  cases h
  simp only [Span.read, Array.length_toList, Array.size_extract, thresholdCount]
  omega

theorem thresholdsOf_eq {t : ThresholdTable} {feature : Nat} {r : Span} {xs : List Binary32}
    (hr : t.region feature = .ok r) (hstop : r.stop ≤ t.thresholds.size)
    (hxs : t.thresholdsOf feature = .ok xs) :
    xs.length = r.stop - r.start ∧
      ∀ i < xs.length, t.thresholds[r.start + i]? = xs[i]? := by
  have hread : xs = (r.read t.thresholds).toList := by
    simp only [thresholdsOf, hr, ok_bind, pure_eq_ok] at hxs
    exact (Except.ok.inj hxs).symm
  subst hread
  have hlen : (r.read t.thresholds).toList.length = r.stop - r.start := by
    simp only [Span.read, Array.length_toList, Array.size_extract]
    omega
  refine ⟨hlen, fun i hi => ?_⟩
  rw [hlen] at hi
  have hb : r.start + i < t.thresholds.size := by omega
  rw [Array.getElem?_toList, Span.read, Array.getElem?_extract, if_pos (by omega)]

theorem checkOffsets_ok_iff {t : ThresholdTable} : t.checkOffsets = .ok () ↔ t.Cut := by
  constructor
  · intro h
    obtain ⟨first, hf, h⟩ := bind_eq_ok_iff.mp h
    split at h
    next => exact absurd h fail_ne_ok
    next hzero =>
      split at h
      next => exact absurd h fail_ne_ok
      next hasc =>
        obtain ⟨last, hl, h⟩ := bind_eq_ok_iff.mp h
        split at h
        next => exact absurd h fail_ne_ok
        next hlast =>
          have hzero : first = 0 := by simpa using hzero
          simp only [List.any_eq_true, decide_eq_true_eq, not_exists, not_and] at hasc
          refine ⟨hzero ▸ fetch_eq_ok_iff.mp (lift_eq_ok_iff.mp hf), fun i a b ha hb => ?_, last,
            fetch_eq_ok_iff.mp (lift_eq_ok_iff.mp hl), by simpa using hlast⟩
          exact UInt32.not_lt.mp (hasc (a, b)
            (mem_neighbours (Array.getElem?_toList ▸ ha) (Array.getElem?_toList ▸ hb)))
  · intro h
    obtain ⟨last, hlast, hsize⟩ := h.last
    have hasc : ((neighbours t.offsets.toList).any fun p => decide (p.2 < p.1)) = false := by
      refine List.any_eq_false.mpr fun p hp => ?_
      obtain ⟨i, ha, hb⟩ := exists_of_mem_neighbours hp
      have hle := h.ascending i p.1 p.2 (Array.getElem?_toList ▸ ha) (Array.getElem?_toList ▸ hb)
      simpa using UInt32.not_lt.mpr hle
    simp [checkOffsets, fetch_eq_ok_iff.mpr h.first, fetch_eq_ok_iff.mpr hlast, hasc, hsize]

theorem checkFeature_ok_iff {t : ThresholdTable} {feature : Nat} :
    t.checkFeature feature = .ok () ↔ ∃ xs, t.thresholdsOf feature = .ok xs ∧ Increasing xs := by
  constructor
  · intro h
    obtain ⟨xs, hxs, h⟩ := bind_eq_ok_iff.mp h
    split at h
    next => exact absurd h fail_ne_ok
    next hnan =>
      split at h
      next => exact absurd h fail_ne_ok
      next hord =>
        simp only [List.any_eq_true, not_exists, not_and, Bool.not_eq_true] at hnan hord
        exact ⟨xs, lift_eq_ok_iff.mp hxs, increasing_of_neighbours hnan hord⟩
  · rintro ⟨xs, hxs, hinc⟩
    have hnan : xs.any Binary32.isNaN = false := by simpa using hinc.1
    have hord : ((neighbours xs).any fun p => p.2.le p.1) = false := by
      simpa using fun a b hp => hinc.neighbours_le hp
    simp only [checkFeature, hxs, lift_ok, ok_bind, hnan, hord]
    rfl

theorem thresholdsOf_uncovered {t : ThresholdTable} {feature : Nat} (h : t.featureCount ≤ feature) :
    t.thresholdsOf feature = .ok [] := by
  simp [thresholdsOf, region_uncovered h, Span.read]

theorem wellFormed_noFeatures {offsets : Array UInt32} (hcount : offsets.size ≤ 1)
    (hzero : ∀ first, offsets[0]? = some first → first = 0) :
    (ThresholdTable.mk #[] offsets).WellFormed where
  noOffsets := fun _ => rfl
  first := hzero
  ascending := by
    intro i first last _ hl
    obtain ⟨hi, _⟩ := Array.getElem?_eq_some_iff.mp hl
    dsimp only at hi
    omega
  last := by
    intro last hl
    have hplace : offsets.size - 1 = 0 := by omega
    dsimp only at hl
    rw [hplace] at hl
    rw [hzero last hl]
    rfl
  increasing := by
    intro feature xs hxs
    have hnone : (ThresholdTable.mk #[] offsets).featureCount = 0 := Nat.sub_eq_zero_of_le hcount
    rw [thresholdsOf_uncovered (hnone ▸ Nat.zero_le feature)] at hxs
    cases hxs
    exact increasing_nil

theorem wellFormed_of_cut {t : ThresholdTable} (h : t.Cut)
    (hfeat : ∀ feature < t.featureCount, ∃ xs, t.thresholdsOf feature = .ok xs ∧ Increasing xs) :
    t.WellFormed where
  noOffsets := fun h0 => absurd h0 (Nat.ne_of_gt h.size_pos)
  first := fun first hf => Option.some.inj (hf.symm.trans h.first)
  ascending := h.ascending
  last := by
    intro l hl
    obtain ⟨last, hlast, hsize⟩ := h.last
    rw [Option.some.inj (hl.symm.trans hlast), hsize]
  increasing := by
    intro feature xs hxs
    by_cases hin : feature < t.featureCount
    · obtain ⟨ys, hys, hinc⟩ := hfeat feature hin
      cases Except.ok.inj (hys.symm.trans hxs)
      exact hinc
    · rw [thresholdsOf_uncovered (by omega)] at hxs
      cases hxs
      exact increasing_nil

/-- The check of stored parts lets the well-formed tables through, and keeps them as they are. -/
theorem ofParts_ok_iff {thresholds : Array Binary32} {offsets : Array UInt32}
    {t : ThresholdTable} :
    ofParts thresholds offsets = .ok t ↔ t = ⟨thresholds, offsets⟩ ∧ t.WellFormed := by
  by_cases ho : offsets.isEmpty = true
  · have hno : offsets = #[] := Array.isEmpty_iff.mp ho
    simp only [ofParts, ho, if_true]
    constructor
    · intro h
      split at h
      next ht =>
        cases h
        have hnone : thresholds = #[] := Array.isEmpty_iff.mp ht
        exact ⟨by rw [hno, hnone, empty], wellFormed_noFeatures (Nat.zero_le 1) nofun⟩
      next => exact absurd h fail_ne_ok
    · rintro ⟨rfl, h⟩
      have hnone : thresholds = #[] := Array.eq_empty_of_size_eq_zero (h.noOffsets (by simp [hno]))
      simp [hno, hnone, empty]
  · have hpos : 0 < offsets.size := by simpa [Array.size_pos_iff] using ho
    simp only [ofParts, if_neg ho]
    constructor
    · intro h
      obtain ⟨_, hoff, h⟩ := bind_eq_ok_iff.mp h
      obtain ⟨_, hfeat, h⟩ := bind_eq_ok_iff.mp h
      cases h
      exact ⟨rfl, wellFormed_of_cut (checkOffsets_ok_iff.mp hoff) fun feature hin =>
        checkFeature_ok_iff.mp (forM_eq_ok_iff.mp hfeat feature (List.mem_range.mpr hin))⟩
    · rintro ⟨rfl, h⟩
      have hoff := checkOffsets_ok_iff.mpr (h.cut hpos)
      have hfeat : (List.range (ThresholdTable.mk thresholds offsets).featureCount).forM
          (ThresholdTable.mk thresholds offsets).checkFeature = .ok () :=
        forM_eq_ok_iff.mpr fun feature _ => checkFeature_ok_iff.mpr (h.thresholdsOf_ok feature)
      simp only [hoff, hfeat, ok_bind, pure_eq_ok]

theorem ofParts_ok {thresholds : Array Binary32} {offsets : Array UInt32} {t : ThresholdTable}
    (h : ofParts thresholds offsets = .ok t) : t = ⟨thresholds, offsets⟩ ∧ t.WellFormed :=
  ofParts_ok_iff.mp h

end ThresholdTable

end TreeEnsemble
