import TreeEnsemble.Binding
import TreeEnsemble.Proofs.Threshold.Coding
import TreeEnsemble.Tree.Route

/-!
What binding writes. A coder that gives every value a slot binds every row of the right width,
whatever was in the slots before; and the slots that two coders give one row stand for the same
values, as numbers on one side and as codes on the other.
-/

namespace TreeEnsemble

namespace Attempt

@[simp] theorem update_ok {ε σ : Type} (old new : σ) :
    update old (.ok new : Attempt ε σ) = .ok (new, .ok ()) := rfl

@[simp] theorem update_fail {ε σ : Type} (old : σ) (e : ε) :
    update old (fail e) = .ok (old, .error e) := rfl

theorem update_eq_ok_iff {ε σ : Type} {old new : σ} {a : Attempt ε σ} {r : Except ε Unit} :
    update old a = .ok (new, r) ↔
      (a = .ok new ∧ r = .ok ()) ∨ ∃ e, a = fail e ∧ new = old ∧ r = .error e := by
  constructor
  · intro h
    cases a with
    | ok x =>
      cases h
      exact Or.inl ⟨rfl, rfl⟩
    | error failure =>
      cases failure with
      | fault fault => nomatch h
      | error e =>
        cases h
        exact Or.inr ⟨e, rfl, rfl, rfl⟩
  · rintro (⟨rfl, rfl⟩ | ⟨e, rfl, rfl, rfl⟩) <;> rfl

theorem update_answers {ε σ : Type} (old : σ) {a : Attempt ε σ}
    (h : ∀ fault, a ≠ .error (.fault fault)) : ∃ new r, update old a = .ok (new, r) := by
  cases a with
  | ok x => exact ⟨x, .ok (), rfl⟩
  | error failure =>
    cases failure with
    | fault fault => exact absurd rfl (h fault)
    | error e => exact ⟨old, .error e, rfl⟩

end Attempt

namespace Coder

/-- The coder gives every value of every feature a slot. -/
def Total (c : Coder) : Prop :=
  ∀ policy feature x, ∃ s, c.slot policy feature x = .ok s

/-- The coder knows the features of rows of a width. -/
def Covers : Coder → Nat → Prop
  | raw, _ => True
  | binned table, width => width ≤ table.featureCount

theorem covers_or_tooSmall (c : Coder) (width : Nat) :
    c.Covers width ∨ ∃ table, c = .binned table ∧ table.featureCount < width := by
  cases c with
  | raw => exact Or.inl trivial
  | binned table =>
    rcases Nat.lt_or_ge table.featureCount width with h | h
    · exact Or.inr ⟨table, rfl, h⟩
    · exact Or.inl h

theorem total_raw : raw.Total := by
  intro policy feature x
  unfold slot
  split <;> exact ⟨_, rfl⟩

theorem total_binned {table : ThresholdTable} (h : table.WellFormed) : (binned table).Total := by
  intro policy feature x
  unfold slot
  split
  next => exact ⟨.missing, rfl⟩
  next =>
    obtain ⟨bin, hbin⟩ := h.valueBin_ok feature x
    exact ⟨.ofBin bin, by simp [hbin]⟩

theorem checkWidth_ok {c : Coder} {width : Nat} (h : c.Covers width) :
    c.checkWidth width = .ok () := by
  cases c with
  | raw => rfl
  | binned table => exact if_neg (Nat.not_lt.mpr h)

theorem checkWidth_tooSmall {table : ThresholdTable} {width : Nat}
    (h : table.featureCount < width) :
    (binned table).checkWidth width = fail (.tableTooSmall table.featureCount width) := if_pos h

theorem encode_ok {c : Coder} (hc : c.Total) (policy : MissingPolicy) (feature : Nat)
    (xs : List Binary32) :
    ∃ slots, c.encode policy feature xs = .ok slots := by
  induction xs generalizing feature with
  | nil => exact ⟨[], rfl⟩
  | cons x xs ih =>
    obtain ⟨s, hs⟩ := hc policy feature x
    obtain ⟨slots, hslots⟩ := ih (feature + 1)
    exact ⟨s :: slots, by simp [encode, hs, hslots]⟩

theorem length_encode {c : Coder} {policy : MissingPolicy} {feature : Nat} {xs : List Binary32}
    {slots : List Slot} (h : c.encode policy feature xs = .ok slots) :
    slots.length = xs.length := by
  induction xs generalizing feature slots with
  | nil =>
    cases h
    rfl
  | cons x xs ih =>
    obtain ⟨_, _, h⟩ := bind_eq_ok_iff.mp h
    obtain ⟨rest, hrest, h⟩ := bind_eq_ok_iff.mp h
    cases h
    simp [ih hrest]

theorem slot_of_encode {c : Coder} {policy : MissingPolicy} {first : Nat} {xs : List Binary32}
    {slots : List Slot} (h : c.encode policy first xs = .ok slots) {i : Nat} {s : Slot}
    (hi : slots[i]? = some s) : ∃ x, xs[i]? = some x ∧ c.slot policy (first + i) x = .ok s := by
  induction xs generalizing first slots i with
  | nil =>
    cases h
    simp at hi
  | cons x xs ih =>
    obtain ⟨s', hs', h⟩ := bind_eq_ok_iff.mp h
    obtain ⟨rest, hrest, h⟩ := bind_eq_ok_iff.mp h
    cases h
    cases i with
    | zero =>
      cases hi
      exact ⟨x, rfl, hs'⟩
    | succ i =>
      obtain ⟨y, hy, hslot⟩ := ih hrest hi
      rw [Nat.add_right_comm] at hslot
      exact ⟨y, hy, hslot⟩

theorem scatter_ok {c : Coder} (hc : c.Total) (policy : MissingPolicy) {slots : Array Slot}
    {pairs : List (UInt32 × Binary32)} (h : ∀ p ∈ pairs, p.1.toNat < slots.size) :
    ∃ out, c.scatter policy slots pairs = .ok out ∧ out.size = slots.size := by
  induction pairs generalizing slots with
  | nil => exact ⟨slots, rfl, rfl⟩
  | cons p pairs ih =>
    obtain ⟨hp, hpairs⟩ := List.forall_mem_cons.mp h
    obtain ⟨s, hs⟩ := hc policy p.1.toNat p.2
    have hpairs' : ∀ q ∈ pairs, q.1.toNat < (slots.setIfInBounds p.1.toNat s).size := by
      rw [Array.size_setIfInBounds]
      exact hpairs
    obtain ⟨out, hout, hsize⟩ := ih hpairs'
    refine ⟨out, ?_, by rw [hsize, Array.size_setIfInBounds]⟩
    simp only [scatter, hs, store_of_lt hp, ok_bind, hout]

end Coder

theorem resetMissing_eq (slots : Array Slot) :
    resetMissing slots = Array.replicate slots.size .missing := by
  refine Array.ext (by simp [resetMissing]) fun i _ _ => ?_
  simp [resetMissing, Slot.setMissing, Slot.missing]

theorem denseSlots_ok {c : Coder} (hc : c.Total) (policy : MissingPolicy) {row : Array Binary32}
    {width : Nat} (hw : row.size = width) (hcov : c.Covers width) :
    ∃ slots, denseSlots c policy row width = .ok slots := by
  obtain ⟨slots, hslots⟩ := Coder.encode_ok hc policy 0 row.toList
  exact ⟨slots.toArray, by simp [denseSlots, hw, Coder.checkWidth_ok hcov, hslots]⟩

/-- A row of the right width fails for nothing but a fault of the coder. -/
theorem denseSlots_cases (c : Coder) (policy : MissingPolicy) {row : Array Binary32} {width : Nat}
    (hw : row.size = width) (hcov : c.Covers width) :
    (∃ slots, denseSlots c policy row width = .ok slots) ∨
      ∃ fault, denseSlots c policy row width = .error (.fault fault) := by
  cases he : c.encode policy 0 row.toList with
  | ok slots => exact Or.inl ⟨slots.toArray, by simp [denseSlots, hw, Coder.checkWidth_ok hcov, he]⟩
  | error fault => exact Or.inr ⟨fault, by simp [denseSlots, hw, Coder.checkWidth_ok hcov, he]⟩

theorem encode_of_denseSlots {c : Coder} {policy : MissingPolicy} {row : Array Binary32}
    {width : Nat} {slots : Array Slot} (h : denseSlots c policy row width = .ok slots) :
    ∃ list, c.encode policy 0 row.toList = .ok list ∧ list.toArray = slots ∧
      row.size = width := by
  unfold denseSlots at h
  split at h
  next => exact absurd h fail_ne_ok
  next hw =>
    obtain ⟨_, _, h⟩ := bind_eq_ok_iff.mp h
    obtain ⟨list, hlist, h⟩ := bind_eq_ok_iff.mp h
    exact ⟨list, lift_eq_ok_iff.mp hlist, Except.ok.inj h, not_not.mp hw⟩

theorem size_of_denseSlots {c : Coder} {policy : MissingPolicy} {row : Array Binary32}
    {width : Nat} {slots : Array Slot} (h : denseSlots c policy row width = .ok slots) :
    slots.size = width := by
  obtain ⟨list, hlist, rfl, hw⟩ := encode_of_denseSlots h
  rw [List.size_toArray, Coder.length_encode hlist, Array.length_toList, hw]

theorem slot_of_denseSlots {c : Coder} {policy : MissingPolicy} {row : Array Binary32}
    {width : Nat} {slots : Array Slot} (h : denseSlots c policy row width = .ok slots)
    {feature : Nat} {s : Slot} (hs : slots[feature]? = some s) :
    ∃ x, row[feature]? = some x ∧ c.slot policy feature x = .ok s := by
  obtain ⟨list, hlist, rfl, _⟩ := encode_of_denseSlots h
  obtain ⟨x, hx, hslot⟩ := Coder.slot_of_encode hlist (List.getElem?_toArray.symm.trans hs)
  rw [Array.getElem?_toList] at hx
  rw [Nat.zero_add] at hslot
  exact ⟨x, hx, hslot⟩

theorem denseSlots_tooSmall {table : ThresholdTable} (policy : MissingPolicy)
    {row : Array Binary32} {width : Nat} (hw : row.size = width)
    (h : table.featureCount < width) :
    denseSlots (.binned table) policy row width =
      fail (.tableTooSmall table.featureCount width) := by
  simp [denseSlots, hw, Coder.checkWidth_tooSmall h]

theorem checkSparse_ok {indices : List UInt32} {values : List Binary32} {width : Nat}
    (hlen : indices.length = values.length) (hin : ∀ i ∈ indices, i.toNat < width) :
    checkSparse indices values width = .ok () := by
  have hnone : indices.find? (fun i => decide (width ≤ i.toNat)) = none := by
    rw [List.find?_eq_none]
    intro i hi
    have := hin i hi
    simp only [decide_eq_true_eq]
    omega
  simp [checkSparse, hlen, hnone]

theorem lt_of_checkSparse {indices : List UInt32} {values : List Binary32} {width : Nat}
    (h : checkSparse indices values width = .ok ()) :
    ∀ p ∈ indices.zip values, p.1.toNat < width := by
  unfold checkSparse at h
  split at h
  next => exact absurd h fail_ne_ok
  next =>
    split at h
    next => exact absurd h fail_ne_ok
    next hnone =>
      intro p hp
      have hi := List.find?_eq_none.mp hnone p.1 (List.of_mem_zip hp).1
      simp only [decide_eq_true_eq] at hi
      omega

theorem exists_pair_of_mem {indices : List UInt32} {values : List Binary32}
    (hlen : indices.length = values.length) {i : UInt32} (hi : i ∈ indices) :
    ∃ x, (i, x) ∈ indices.zip values := by
  rw [← List.map_fst_zip (Nat.le_of_eq hlen)] at hi
  obtain ⟨p, hp, rfl⟩ := List.mem_map.mp hi
  exact ⟨p.2, hp⟩

theorem checkSparse_ne_fault (indices : List UInt32) (values : List Binary32) (width : Nat)
    (fault : Fault) : checkSparse indices values width ≠ .error (.fault fault) := by
  unfold checkSparse
  split
  · nofun
  · split <;> nofun

theorem sparseSlots_refused (c : Coder) (policy : MissingPolicy) {indices : List UInt32}
    {values : List Binary32} {slots : Array Slot} {e : BindError}
    (hcheck : checkSparse indices values slots.size = fail e) :
    sparseSlots c policy indices values slots = fail e := by
  simp only [sparseSlots, hcheck, fail_bind]

theorem sparseSlots_ok {c : Coder} (hc : c.Total) (policy : MissingPolicy) {indices : List UInt32}
    {values : List Binary32} {slots : Array Slot}
    (hcheck : checkSparse indices values slots.size = .ok ()) (hcov : c.Covers slots.size) :
    ∃ out, sparseSlots c policy indices values slots = .ok out ∧ out.size = slots.size := by
  have hin : ∀ p ∈ indices.zip values, p.1.toNat < (resetMissing slots).size := by
    rw [resetMissing, Array.size_map]
    exact lt_of_checkSparse hcheck
  obtain ⟨out, hout, hsize⟩ := Coder.scatter_ok hc policy hin
  refine ⟨out, ?_, by rw [hsize, resetMissing, Array.size_map]⟩
  simp only [sparseSlots, hcheck, Coder.checkWidth_ok hcov, ok_bind, hout, lift_ok]

theorem sparseSlots_tooSmall {table : ThresholdTable} (policy : MissingPolicy)
    {indices : List UInt32} {values : List Binary32} {slots : Array Slot}
    (hcheck : checkSparse indices values slots.size = .ok ())
    (h : table.featureCount < slots.size) :
    sparseSlots (.binned table) policy indices values slots =
      fail (.tableTooSmall table.featureCount slots.size) := by
  simp only [sparseSlots, hcheck, Coder.checkWidth_tooSmall h, ok_bind, fail_bind]

theorem denseSlots_ne_fault {c : Coder} (hc : c.Total) (policy : MissingPolicy)
    (row : Array Binary32) (width : Nat) (fault : Fault) :
    denseSlots c policy row width ≠ .error (.fault fault) := by
  by_cases hw : row.size = width
  · rcases c.covers_or_tooSmall width with hcov | ⟨table, rfl, hsmall⟩
    · obtain ⟨slots, hslots⟩ := denseSlots_ok hc policy hw hcov
      rw [hslots]
      nofun
    · rw [denseSlots_tooSmall policy hw hsmall]
      exact fail_ne_fault
  · rw [denseSlots, if_pos hw]
    exact fail_ne_fault

theorem sparseSlots_ne_fault {c : Coder} (hc : c.Total) (policy : MissingPolicy)
    (indices : List UInt32) (values : List Binary32) (slots : Array Slot) (fault : Fault) :
    sparseSlots c policy indices values slots ≠ .error (.fault fault) := by
  cases hcheck : checkSparse indices values slots.size with
  | error failure =>
    cases failure with
    | fault fault' => exact absurd hcheck (checkSparse_ne_fault indices values slots.size fault')
    | error e =>
      rw [sparseSlots_refused c policy hcheck]
      exact fail_ne_fault
  | ok _ =>
    rcases c.covers_or_tooSmall slots.size with hcov | ⟨table, rfl, hsmall⟩
    · obtain ⟨out, hout, _⟩ := sparseSlots_ok hc policy hcheck hcov
      rw [hout]
      nofun
    · rw [sparseSlots_tooSmall policy hcheck hsmall]
      exact fail_ne_fault

/-- What the slots held before is lost; only their number counts. -/
theorem sparseSlots_congr (c : Coder) (policy : MissingPolicy) (indices : List UInt32)
    (values : List Binary32) {slots slots' : Array Slot} (h : slots.size = slots'.size) :
    sparseSlots c policy indices values slots = sparseSlots c policy indices values slots' := by
  simp only [sparseSlots, resetMissing_eq, h]

/-- Two slots of a feature that stand for one value: as a number and as its code, or both
missing. -/
inductive SameValue (table : ThresholdTable) (feature : Nat) : Slot → Slot → Prop
  | missing : SameValue table feature .missing .missing
  | value {x : Binary32} {bin : Int32} (hx : x.isNaN = false)
      (hbin : table.valueBin feature x = .ok bin) :
      SameValue table feature (.ofFloat x) (.ofBin bin)

/-- Slots of two rows that stand for the same values, feature by feature. -/
def SameRow (table : ThresholdTable) (raw binned : Array Slot) : Prop :=
  raw.size = binned.size ∧ ∀ (feature : Nat) r b, raw[feature]? = some r →
    binned[feature]? = some b → SameValue table feature r b

/-- With NaN as missing, both coders give slots for the same value. -/
theorem sameValue_of_slot {table : ThresholdTable} {feature : Nat} {x : Binary32} {r b : Slot}
    (hr : Coder.raw.slot .nanIsMissing feature x = .ok r)
    (hb : (Coder.binned table).slot .nanIsMissing feature x = .ok b) :
    SameValue table feature r b := by
  unfold Coder.slot at hr hb
  by_cases hx : MissingPolicy.nanIsMissing.hides x = true
  · rw [if_pos hx] at hr hb
    cases hr
    cases hb
    exact .missing
  · rw [if_neg hx] at hr hb
    obtain ⟨bin, hbin, hb⟩ := bind_eq_ok_iff.mp hb
    cases hr
    cases hb
    exact .value (by simpa [MissingPolicy.hides] using hx) hbin

theorem sameRow_denseSlots {table : ThresholdTable} {row : Array Binary32} {width : Nat}
    {raw binned : Array Slot} (hr : denseSlots .raw .nanIsMissing row width = .ok raw)
    (hb : denseSlots (.binned table) .nanIsMissing row width = .ok binned) :
    SameRow table raw binned := by
  refine ⟨(size_of_denseSlots hr).trans (size_of_denseSlots hb).symm, fun i r b hri hbi => ?_⟩
  obtain ⟨x, hx, hslot⟩ := slot_of_denseSlots hr hri
  obtain ⟨x', hx', hslot'⟩ := slot_of_denseSlots hb hbi
  cases Option.some.inj (hx.symm.trans hx')
  exact sameValue_of_slot hslot hslot'

theorem sameRow_store {table : ThresholdTable} {raw binned : Array Slot} {feature : Nat}
    {r b : Slot} (h : SameRow table raw binned) (hrb : SameValue table feature r b) :
    SameRow table (raw.setIfInBounds feature r) (binned.setIfInBounds feature b) := by
  obtain ⟨hsize, hsame⟩ := h
  refine ⟨by simpa using hsize, fun i r' b' hr hb => ?_⟩
  rw [Array.getElem?_setIfInBounds] at hr hb
  by_cases hi : feature = i
  · subst hi
    rw [if_pos rfl] at hr hb
    split at hr
    next hin =>
      rw [if_pos (hsize ▸ hin)] at hb
      cases hr
      cases hb
      exact hrb
    next => nomatch hr
  · rw [if_neg hi] at hr hb
    exact hsame i r' b' hr hb

theorem sameRow_scatter {table : ThresholdTable} {pairs : List (UInt32 × Binary32)}
    {raw binned raw' binned' : Array Slot} (h : SameRow table raw binned)
    (hr : Coder.raw.scatter .nanIsMissing raw pairs = .ok raw')
    (hb : (Coder.binned table).scatter .nanIsMissing binned pairs = .ok binned') :
    SameRow table raw' binned' := by
  induction pairs generalizing raw binned with
  | nil =>
    cases hr
    cases hb
    exact h
  | cons p pairs ih =>
    obtain ⟨r, hslot, hr⟩ := bind_eq_ok_iff.mp hr
    obtain ⟨_, hstore, hr⟩ := bind_eq_ok_iff.mp hr
    obtain ⟨b, hslot', hb⟩ := bind_eq_ok_iff.mp hb
    obtain ⟨_, hstore', hb⟩ := bind_eq_ok_iff.mp hb
    obtain ⟨_, rfl⟩ := store_eq_ok_iff.mp hstore
    obtain ⟨_, rfl⟩ := store_eq_ok_iff.mp hstore'
    exact ih (sameRow_store h (sameValue_of_slot hslot hslot')) hr hb

theorem sameRow_missing (table : ThresholdTable) (width : Nat) :
    SameRow table (Array.replicate width .missing) (Array.replicate width .missing) := by
  refine ⟨rfl, fun i r b hr hb => ?_⟩
  rw [Array.getElem?_replicate] at hr hb
  split at hr
  next hi =>
    rw [if_pos hi] at hb
    cases hr
    cases hb
    exact .missing
  next => nomatch hr

end TreeEnsemble
