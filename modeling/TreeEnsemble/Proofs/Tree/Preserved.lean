import TreeEnsemble.Proofs.Tree.Missing

/-!
Walks over rows in which NaN is a value like others. A NaN fails every comparison of numbers, so the
walk over numbers goes right; its code lies below all thresholds, so the walk over codes goes where
values below the threshold go. At all other splits both walks choose the same child.
-/

namespace TreeEnsemble

/-- The values listed for features, over those that were there. -/
def listValues (pairs : List (UInt32 × Binary32)) (value : Nat → Option Binary32) :
    Nat → Option Binary32 :=
  pairs.foldl (fun value p feature => if p.1.toNat = feature then some p.2 else value feature) value

/-- Slots that hold the same values, NaNs as well, as numbers on one side and as codes on the
other. -/
structure Preserved (table : ThresholdTable) (value : Nat → Option Binary32)
    (raw binned : Array Slot) : Prop where
  present : ∀ feature x, value feature = some x → present? raw feature = some (.ofFloat x) ∧
    ∃ bin, table.valueBin feature x = .ok bin ∧ present? binned feature = some (.ofBin bin)
  absent : ∀ feature, value feature = none →
    present? raw feature = none ∧ present? binned feature = none

theorem present?_eq_some {slots : Array Slot} {feature : Nat} {s : Slot}
    (hs : slots[feature]? = some s) (hshown : s.isMissing = false) :
    present? slots feature = some s := by
  rw [present?, hs]
  simp [hshown]

theorem slot_binned_preserve {table : ThresholdTable} {feature : Nat} {x : Binary32} {s : Slot}
    (h : (Coder.binned table).slot .preserve feature x = .ok s) :
    ∃ bin, table.valueBin feature x = .ok bin ∧ s = .ofBin bin := by
  obtain ⟨bin, hbin, h⟩ := bind_eq_ok_iff.mp h
  exact ⟨bin, hbin, (Except.ok.inj h).symm⟩

theorem Preserved.store {table : ThresholdTable} {value : Nat → Option Binary32}
    {raw binned : Array Slot} (h : Preserved table value raw binned) {place : Nat}
    {x : Binary32} {bin : Int32} (hin : place < raw.size) (hin' : place < binned.size)
    (hbin : table.valueBin place x = .ok bin) :
    Preserved table (fun feature => if place = feature then some x else value feature)
      (raw.setIfInBounds place (.ofFloat x)) (binned.setIfInBounds place (.ofBin bin)) := by
  constructor
  case present =>
    intro feature y hy
    by_cases heq : place = feature
    · subst heq
      rw [if_pos rfl] at hy
      cases hy
      refine ⟨present?_eq_some ?_ rfl, bin, hbin, present?_eq_some ?_ rfl⟩
      · rw [Array.getElem?_setIfInBounds_self, if_pos hin]
      · rw [Array.getElem?_setIfInBounds_self, if_pos hin']
    · rw [if_neg heq] at hy
      rw [present?_setIfInBounds_ne _ heq, present?_setIfInBounds_ne _ heq]
      exact h.present feature y hy
  case absent =>
    intro feature hy
    by_cases heq : place = feature
    · rw [if_pos heq] at hy
      cases hy
    · rw [if_neg heq] at hy
      rw [present?_setIfInBounds_ne _ heq, present?_setIfInBounds_ne _ heq]
      exact h.absent feature hy

theorem Preserved.scatter {table : ThresholdTable} {value : Nat → Option Binary32}
    {pairs : List (UInt32 × Binary32)} {raw binned raw' binned' : Array Slot}
    (h : Preserved table value raw binned)
    (hr : Coder.raw.scatter .preserve raw pairs = .ok raw')
    (hb : (Coder.binned table).scatter .preserve binned pairs = .ok binned') :
    Preserved table (listValues pairs value) raw' binned' := by
  induction pairs generalizing value raw binned with
  | nil =>
    cases hr
    cases hb
    exact h
  | cons p pairs ih =>
    obtain ⟨r, hslot, hr⟩ := bind_eq_ok_iff.mp hr
    obtain ⟨_, hstore, hr⟩ := bind_eq_ok_iff.mp hr
    obtain ⟨b, hslot', hb⟩ := bind_eq_ok_iff.mp hb
    obtain ⟨_, hstore', hb⟩ := bind_eq_ok_iff.mp hb
    obtain ⟨hin, rfl⟩ := store_eq_ok_iff.mp hstore
    obtain ⟨hin', rfl⟩ := store_eq_ok_iff.mp hstore'
    cases hslot
    obtain ⟨bin, hbin, rfl⟩ := slot_binned_preserve hslot'
    exact ih (h.store hin hin' hbin) hr hb

namespace Tree

end Tree

end TreeEnsemble
