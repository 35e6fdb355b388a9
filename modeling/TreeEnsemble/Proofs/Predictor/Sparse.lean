import TreeEnsemble.Proofs.Predictor.Safety
import TreeEnsemble.Proofs.Threshold.Partition
import Mathlib.Data.List.Nodup

/-!
Sparse rows as dense rows. With NaN as missing, a sparse row is bound as the dense row that starts
out as NaNs and has the listed values written over them from left to right, so both rows have the
same prediction. If no feature is listed twice, the order of the list does not count.
-/

namespace TreeEnsemble

/-- A row with listed values written over it, from left to right. -/
def writeListed (row : Array Binary32) (pairs : List (UInt32 × Binary32)) : Array Binary32 :=
  pairs.foldl (fun row p => row.setIfInBounds p.1.toNat p.2) row

theorem size_writeListed (row : Array Binary32) (pairs : List (UInt32 × Binary32)) :
    (writeListed row pairs).size = row.size := by
  induction pairs generalizing row with
  | nil => rfl
  | cons p pairs ih => exact (ih _).trans Array.size_setIfInBounds

/-- Writes to different places may be done in any order. -/
theorem writeListed_perm {pairs pairs' : List (UInt32 × Binary32)} (h : pairs'.Perm pairs)
    (hdistinct : (pairs.map Prod.fst).Nodup) (row : Array Binary32) :
    writeListed row pairs' = writeListed row pairs := by
  refine (h.symm.foldl_eq' (fun p hp q hq row => ?_) row).symm
  by_cases heq : p = q
  · rw [heq]
  · have hfst : p.1 ≠ q.1 := fun hfst => heq (List.inj_on_of_nodup_map hdistinct hp hq hfst)
    have hplace : p.1.toNat ≠ q.1.toNat := fun hplace => hfst (UInt32.toNat_inj.mp hplace)
    exact Array.setIfInBounds_comm p.2 q.2 hplace

namespace Coder

theorem encode_replicate (c : Coder) {nan : Binary32} (hnan : nan.isNaN = true) (first n : Nat) :
    c.encode .nanIsMissing first (List.replicate n nan) = .ok (List.replicate n .missing) := by
  induction n generalizing first with
  | zero => rfl
  | succ n ih =>
    have hslot : c.slot .nanIsMissing first nan = .ok .missing := if_pos hnan
    rw [List.replicate_succ, encode, hslot, ok_bind, ih, ok_bind, pure_eq_ok, List.replicate_succ]

/-- Writing a value into a row writes its slot into the slots of the row. -/
theorem encode_set {c : Coder} {policy : MissingPolicy} {first i : Nat} {xs : List Binary32}
    {slots : List Slot} {x : Binary32} {s : Slot} (h : c.encode policy first xs = .ok slots)
    (hs : c.slot policy (first + i) x = .ok s) :
    c.encode policy first (xs.set i x) = .ok (slots.set i s) := by
  induction xs generalizing first i slots with
  | nil =>
    cases h
    rfl
  | cons y ys ih =>
    obtain ⟨r, hr, h⟩ := bind_eq_ok_iff.mp h
    obtain ⟨rest, hrest, h⟩ := bind_eq_ok_iff.mp h
    cases h
    cases i with
    | zero =>
      rw [Nat.add_zero] at hs
      rw [List.set_cons_zero, List.set_cons_zero, encode, hs, ok_bind, hrest, ok_bind, pure_eq_ok]
    | succ i =>
      have hs : c.slot policy (first + 1 + i) x = .ok s := by
        rwa [Nat.add_right_comm]
      rw [List.set_cons_succ, List.set_cons_succ, encode, hr, ok_bind, ih hrest hs, ok_bind,
        pure_eq_ok]

/-- Slots of a row that are written over are the slots of the row written over. -/
theorem encode_writeListed {c : Coder} {policy : MissingPolicy}
    {pairs : List (UInt32 × Binary32)} {row : Array Binary32} {slots out : Array Slot}
    (hrow : c.encode policy 0 row.toList = .ok slots.toList)
    (hout : c.scatter policy slots pairs = .ok out) :
    c.encode policy 0 (writeListed row pairs).toList = .ok out.toList := by
  induction pairs generalizing row slots with
  | nil =>
    cases hout
    exact hrow
  | cons p pairs ih =>
    obtain ⟨s, hs, hout⟩ := bind_eq_ok_iff.mp hout
    obtain ⟨next, hstore, hout⟩ := bind_eq_ok_iff.mp hout
    obtain ⟨_, rfl⟩ := store_eq_ok_iff.mp hstore
    refine ih ?_ hout
    rw [Array.toList_setIfInBounds, Array.toList_setIfInBounds]
    exact encode_set hrow (by rwa [Nat.zero_add])

end Coder

/-- A sparse row that passes its check is bound as the NaNs written over. -/
theorem sparseSlots_eq_dense {c : Coder} (hc : c.Total) {nan : Binary32} (hnan : nan.isNaN = true)
    {indices : List UInt32} {values : List Binary32} {old : Array Slot}
    (hcheck : checkSparse indices values old.size = .ok ()) :
    sparseSlots c .nanIsMissing indices values old =
      denseSlots c .nanIsMissing
        (writeListed (Array.replicate old.size nan) (indices.zip values)) old.size := by
  have hsize :
      (writeListed (Array.replicate old.size nan) (indices.zip values)).size = old.size := by
    rw [size_writeListed, Array.size_replicate]
  rcases c.covers_or_tooSmall old.size with hcov | ⟨table, rfl, hsmall⟩
  · have hin : ∀ p ∈ indices.zip values,
        p.1.toNat < (Array.replicate old.size Slot.missing).size := by
      rw [Array.size_replicate]
      exact lt_of_checkSparse hcheck
    obtain ⟨out, hout, _⟩ := Coder.scatter_ok hc .nanIsMissing hin
    have hrow : c.encode .nanIsMissing 0 (Array.replicate old.size nan).toList =
        .ok (Array.replicate old.size Slot.missing).toList := by
      rw [Array.toList_replicate, Array.toList_replicate]
      exact c.encode_replicate hnan 0 old.size
    have hencode := Coder.encode_writeListed hrow hout
    simp only [sparseSlots, denseSlots, hcheck, hsize, Coder.checkWidth_ok hcov, ok_bind,
      resetMissing_eq, hout, hencode, lift_ok, ne_eq, not_true_eq_false, if_false, pure_eq_ok,
      Array.toArray_toList]
  · rw [sparseSlots_tooSmall .nanIsMissing hcheck hsmall,
      denseSlots_tooSmall .nanIsMissing hsize hsmall]

namespace Predictor

/-- The dense row of a sparse row: NaNs with the listed values written over them. -/
def filledRow (p : Predictor) (nan : Binary32) (indices : List UInt32) (values : List Binary32) :
    Array Binary32 :=
  writeListed (Array.replicate p.width nan) (indices.zip values)

theorem size_filledRow (p : Predictor) (nan : Binary32) (indices : List UInt32)
    (values : List Binary32) : (p.filledRow nan indices values).size = p.width := by
  rw [filledRow, size_writeListed, Array.size_replicate]

theorem bindSparseRow_eq_bindRow {p : Predictor} (hc : p.coder.Total)
    (hpolicy : p.policy = .nanIsMissing) {nan : Binary32} (hnan : nan.isNaN = true)
    {indices : List UInt32} {values : List Binary32} (hlen : indices.length = values.length)
    (hin : ∀ i ∈ indices, i.toNat < p.width) {old : Array Slot} (hold : old.size = p.width) :
    p.bindSparseRow indices values old = p.bindRow (p.filledRow nan indices values) old := by
  have hcheck : checkSparse indices values old.size = .ok () := checkSparse_ok hlen (hold ▸ hin)
  have hslots := sparseSlots_eq_dense hc hnan hcheck
  rw [bindSparseRow_eq indices values hold, bindRow_eq (p.size_filledRow nan indices values) hold,
    hpolicy, hslots, hold, filledRow]

/-- Rows bound alike are predicted alike. -/
theorem predictSparseRow_congr {p : Predictor} {indices : List UInt32} {values : List Binary32}
    {row : Array Binary32}
    (h : p.bindSparseRow indices values p.newSlots = p.bindRow row p.newSlots) :
    p.predictSparseRow indices values = p.predictRow row := by
  unfold predictSparseRow predictRow predictRowInto
  rw [h]
  rcases p.bindRow row p.newSlots with fault | ⟨slots, _ | _⟩
  · rfl
  · rfl
  · dsimp only [ok_bind]
    cases p.scoreSlots slots p.newOutput <;> rfl

theorem filledRow_perm (p : Predictor) (nan : Binary32) {indices indices' : List UInt32}
    {values values' : List Binary32} (hlen : indices.length = values.length)
    (hdistinct : indices.Nodup) (hperm : (indices'.zip values').Perm (indices.zip values)) :
    p.filledRow nan indices' values' = p.filledRow nan indices values := by
  refine writeListed_perm hperm ?_ _
  rw [List.map_fst_zip (by omega)]
  exact hdistinct

/-- With NaN as missing, a sparse row in range gets the answer of the dense row that starts out as
NaNs and has the listed values written over them, and is bound to the same slots. If no feature is
listed twice, the order of the list changes neither. -/
theorem sparse_row_is_filled_row {scale : Scale} {f : Forest} {s : Settings} {p : Predictor}
    (hp : create scale f s = .ok p) (hpolicy : s.policy = .nanIsMissing)
    (ht : ∀ table, f.table = some table → table.Partitioned) {nan : Binary32}
    (hnan : nan.isNaN = true) {indices : List UInt32} {values : List Binary32}
    (hlen : indices.length = values.length) (hin : ∀ i ∈ indices, i.toNat < p.width) :
    (∃ answer, p.predictSparseRow indices values = .ok answer ∧
      p.predictRow (p.filledRow nan indices values) = .ok answer) ∧
    (∀ old, old.size = p.width → ∃ new r, p.bindSparseRow indices values old = .ok (new, r) ∧
      p.bindRow (p.filledRow nan indices values) old = .ok (new, r)) ∧
    (indices.Nodup → ∀ indices' values', indices'.length = values'.length →
      (indices'.zip values').Perm (indices.zip values) →
      p.predictSparseRow indices' values' = p.predictSparseRow indices values ∧
        ∀ old, p.bindSparseRow indices' values' old = p.bindSparseRow indices values old) := by
  have hsound := sound_of_create hp
  have hc : p.coder.Total := total_of_create hp fun table htable =>
    ThresholdTable.wellFormed_iff_partitioned.mpr (ht table htable)
  have hpolicy : p.policy = .nanIsMissing := by
    obtain ⟨_, _, _, _, rfl⟩ := create_ok_iff.mp hp
    exact hpolicy
  have hbind : ∀ old, old.size = p.width →
      p.bindSparseRow indices values old = p.bindRow (p.filledRow nan indices values) old :=
    fun old hold => bindSparseRow_eq_bindRow hc hpolicy hnan hlen hin hold
  have hpredict := predictSparseRow_congr (hbind p.newSlots p.size_newSlots)
  refine ⟨?_, fun old hold => ?_, fun hdistinct indices' values' hlen' hperm => ?_⟩
  · obtain ⟨answer, hanswer⟩ := predictSparseRow_answers hsound hc indices values
    exact ⟨answer, hanswer, hpredict ▸ hanswer⟩
  · obtain ⟨new, r, hnew⟩ := bindSparseRow_answers hc indices values old
    exact ⟨new, r, hnew, hbind old hold ▸ hnew⟩
  · have hin' : ∀ i ∈ indices', i.toNat < p.width := by
      intro i hi
      obtain ⟨x, hx⟩ := exists_pair_of_mem hlen' hi
      exact hin i (List.of_mem_zip (hperm.mem_iff.mp hx)).1
    have hbind' : ∀ old, old.size = p.width →
        p.bindSparseRow indices' values' old = p.bindRow (p.filledRow nan indices values) old := by
      intro old hold
      rw [← p.filledRow_perm nan hlen hdistinct hperm]
      exact bindSparseRow_eq_bindRow hc hpolicy hnan hlen' hin' hold
    refine ⟨(predictSparseRow_congr (hbind' p.newSlots p.size_newSlots)).trans hpredict.symm, ?_⟩
    intro old
    by_cases hold : old.size = p.width
    · rw [hbind' old hold, hbind old hold]
    · rw [bindSparseRow, if_pos hold, bindSparseRow, if_pos hold]

/-- The coded staircases with NaN as missing. -/
def hidingPredictor : Predictor :=
  ⟨.codedStaircases, .binned Forest.staircaseTable, ⟨.nanIsMissing, 1, 0⟩⟩

/-- A number and then a NaN for feature 1 leave it missing; two features may come in any order. -/
theorem sparse_row_hidingPredictor :
    (∃ answer, hidingPredictor.predictSparseRow [1, 0, 1] [.zero, ⟨0x3f800000⟩, .quietNaN] =
        .ok answer ∧
      hidingPredictor.predictRow #[⟨0x3f800000⟩, .quietNaN] = .ok answer) ∧
      hidingPredictor.predictSparseRow [1, 0] [.zero, ⟨0x3f800000⟩] =
        hidingPredictor.predictSparseRow [0, 1] [⟨0x3f800000⟩, .zero] := by
  have hp : create .binned .codedStaircases ⟨.nanIsMissing, 1, 0⟩ = .ok hidingPredictor := by
    decide +kernel
  have ht : ∀ table, Forest.codedStaircases.table = some table → table.Partitioned := by
    intro table htable
    cases htable
    have hwell := (ThresholdTable.ofParts_ok Forest.ofParts_staircaseTable).2
    exact ThresholdTable.wellFormed_iff_partitioned.mp hwell
  have hwidth : hidingPredictor.width = 2 := rfl
  constructor
  · have hfilled := @sparse_row_is_filled_row .binned .codedStaircases ⟨.nanIsMissing, 1, 0⟩
      hidingPredictor hp rfl ht .quietNaN rfl [1, 0, 1] [.zero, ⟨0x3f800000⟩, .quietNaN] rfl
      (by simp [hwidth])
    exact hfilled.1
  · have hswap : (([1, 0] : List UInt32).zip [Binary32.zero, ⟨0x3f800000⟩]).Perm
        (([0, 1] : List UInt32).zip [⟨0x3f800000⟩, Binary32.zero]) := List.Perm.swap _ _ _
    have hsorted := @sparse_row_is_filled_row .binned .codedStaircases ⟨.nanIsMissing, 1, 0⟩
      hidingPredictor hp rfl ht .quietNaN rfl [0, 1] [⟨0x3f800000⟩, .zero] rfl
      (by simp [hwidth])
    exact (hsorted.2.2 (by simp) [1, 0] [.zero, ⟨0x3f800000⟩] rfl hswap).1

end Predictor

end TreeEnsemble
