import TreeEnsemble.Proofs.Binding.InPlace
import TreeEnsemble.Proofs.Threshold.Partition

/-!
Binding is atomic and has no memory. All checks come before the first write, in a fixed order, so a
row that is refused leaves every slot as it was, and a row that is accepted decides every slot:
each holds the binding of its feature's value, or of the last value listed for it, or is missing.
-/

namespace TreeEnsemble

/-- What the policy makes of a value of a feature: nothing of a hidden NaN, or the number, or its
code. -/
inductive BoundTo (c : Coder) (policy : MissingPolicy) (feature : Nat) (x : Binary32) : Slot → Prop
  | missing (hpolicy : policy = .nanIsMissing) (hx : x.isNaN = true) :
      BoundTo c policy feature x .missing
  | number (hc : c = .raw) (hx : policy = .preserve ∨ x.isNaN = false) :
      BoundTo c policy feature x (.ofFloat x)
  | code {table : ThresholdTable} {bin : Int32} (hc : c = .binned table)
      (hx : policy = .preserve ∨ x.isNaN = false) (hbin : table.valueBin feature x = .ok bin) :
      BoundTo c policy feature x (.ofBin bin)

theorem BoundTo.mode_ne_unwritten {c : Coder} {policy : MissingPolicy} {feature : Nat}
    {x : Binary32} {s : Slot} (h : BoundTo c policy feature x s) : s.mode ≠ .unwritten := by
  cases h <;> nofun

theorem MissingPolicy.hides_eq_true_iff {policy : MissingPolicy} {x : Binary32} :
    policy.hides x = true ↔ policy = .nanIsMissing ∧ x.isNaN = true := by
  cases policy <;> simp [hides]

theorem boundTo_of_slot {c : Coder} {policy : MissingPolicy} {feature : Nat} {x : Binary32}
    {s : Slot} (h : c.slot policy feature x = .ok s) : BoundTo c policy feature x s := by
  unfold Coder.slot at h
  split at h
  next hhides =>
    cases h
    obtain ⟨hpolicy, hx⟩ := MissingPolicy.hides_eq_true_iff.mp hhides
    exact .missing hpolicy hx
  next hshown =>
    have hx : policy = .preserve ∨ x.isNaN = false := by
      cases policy with
      | preserve => exact Or.inl rfl
      | nanIsMissing => exact Or.inr (by simpa [MissingPolicy.hides] using hshown)
    cases c with
    | raw =>
      cases h
      exact .number rfl hx
    | binned table =>
      obtain ⟨bin, hbin, h⟩ := bind_eq_ok_iff.mp h
      cases h
      exact .code rfl hx hbin

/-- A value is the last one listed for a feature. -/
def LastListed (pairs : List (UInt32 × Binary32)) (feature : Nat) (x : Binary32) : Prop :=
  ∃ before index after, pairs = before ++ (index, x) :: after ∧ index.toNat = feature ∧
    ∀ p ∈ after, p.1.toNat ≠ feature

theorem LastListed.cons {pairs : List (UInt32 × Binary32)} {feature : Nat} {x : Binary32}
    (h : LastListed pairs feature x) (p : UInt32 × Binary32) :
    LastListed (p :: pairs) feature x := by
  obtain ⟨before, index, after, rfl, hindex, hafter⟩ := h
  exact ⟨p :: before, index, after, rfl, hindex, hafter⟩

namespace Coder

/-- After a run of writes each slot holds the last value listed for it, or what it held before. -/
theorem slot_of_scatter {c : Coder} {policy : MissingPolicy} {slots out : Array Slot}
    {pairs : List (UInt32 × Binary32)} (h : c.scatter policy slots pairs = .ok out) :
    out.size = slots.size ∧ ∀ (feature : Nat) s, out[feature]? = some s →
      (∃ x, LastListed pairs feature x ∧ c.slot policy feature x = .ok s) ∨
        (∀ p ∈ pairs, p.1.toNat ≠ feature) ∧ slots[feature]? = some s := by
  induction pairs generalizing slots with
  | nil =>
    cases h
    exact ⟨rfl, fun feature s hs => Or.inr ⟨nofun, hs⟩⟩
  | cons p pairs ih =>
    obtain ⟨s', hs', h⟩ := bind_eq_ok_iff.mp h
    obtain ⟨next, hstore, h⟩ := bind_eq_ok_iff.mp h
    obtain ⟨hin, rfl⟩ := store_eq_ok_iff.mp hstore
    obtain ⟨hsize, hat⟩ := ih h
    refine ⟨by rw [hsize, Array.size_setIfInBounds], fun feature s hs => ?_⟩
    rcases hat feature s hs with ⟨x, hlast, hx⟩ | ⟨hnone, hold⟩
    · exact Or.inl ⟨x, hlast.cons p, hx⟩
    · rw [Array.getElem?_setIfInBounds] at hold
      by_cases hp : p.1.toNat = feature
      · -- this write is the last one to the slot
        rw [if_pos hp, if_pos (hp ▸ hin)] at hold
        cases hold
        exact Or.inl ⟨p.2, ⟨[], p.1, pairs, rfl, hp, hnone⟩, hp ▸ hs'⟩
      · rw [if_neg hp] at hold
        exact Or.inr ⟨List.forall_mem_cons.mpr ⟨hp, hnone⟩, hold⟩

end Coder

/-- Why a dense row is refused; the length is checked first. -/
inductive DenseRefusal (c : Coder) (got width : Nat) : BindError → Prop
  | featureCount (h : got ≠ width) : DenseRefusal c got width (.featureCount width got)
  | tableTooSmall {table : ThresholdTable} (hc : c = .binned table) (hlen : got = width)
      (h : table.featureCount < width) :
      DenseRefusal c got width (.tableTooSmall table.featureCount width)

/-- Why a sparse row is refused. The lengths are checked first, then the indices from left to right,
then the table. -/
inductive SparseRefusal (c : Coder) (indices : List UInt32) (values : List Binary32) (width : Nat) :
    BindError → Prop
  | lengths (h : indices.length ≠ values.length) :
      SparseRefusal c indices values width (.sparseLengths indices.length values.length)
  | outOfRange {before after : List UInt32} {index : UInt32}
      (hlen : indices.length = values.length) (hsplit : indices = before ++ index :: after)
      (hbefore : ∀ i ∈ before, i.toNat < width) (h : width ≤ index.toNat) :
      SparseRefusal c indices values width (.featureOutOfRange index.toNat width)
  | tableTooSmall {table : ThresholdTable} (hc : c = .binned table)
      (hlen : indices.length = values.length) (hin : ∀ i ∈ indices, i.toNat < width)
      (h : table.featureCount < width) :
      SparseRefusal c indices values width (.tableTooSmall table.featureCount width)

/-- The slot of a feature of a dense row. -/
def DenseContent (c : Coder) (policy : MissingPolicy) (row : Array Binary32) (feature : Nat)
    (s : Slot) : Prop :=
  ∃ x, row[feature]? = some x ∧ BoundTo c policy feature x s

/-- The slot of a feature of a sparse row. -/
def SparseContent (c : Coder) (policy : MissingPolicy) (indices : List UInt32)
    (values : List Binary32) (feature : Nat) (s : Slot) : Prop :=
  (∃ x, LastListed (indices.zip values) feature x ∧ BoundTo c policy feature x s) ∨
    (∀ i ∈ indices, i.toNat ≠ feature) ∧ s = .missing

/-- A way to write slots is refused for given reasons only and then writes nothing. Else it decides
the content of all slots, whatever they held before. -/
structure Atomic (bind : InPlace) (Refusal : Nat → BindError → Prop)
    (Content : Nat → Slot → Prop) : Prop where
  refused : ∀ old e, (∃ new, bind old = .ok (new, .error e)) ↔ Refusal old.size e
  unchanged : ∀ old new e, bind old = .ok (new, .error e) → new = old
  size : ∀ old new, bind old = .ok (new, .ok ()) → new.size = old.size
  content : ∀ old new, bind old = .ok (new, .ok ()) → ∀ (feature : Nat) s,
    new[feature]? = some s → Content feature s ∧ s.mode ≠ .unwritten
  forgets : ∀ old old' new, old.size = old'.size → bind old = .ok (new, .ok ()) →
    bind old' = .ok (new, .ok ())

/-- Work on slots is atomic if it either is refused or gives slots by a computation that cannot
be refused any more. -/
theorem atomic_update {work : Array Slot → Attempt BindError (Array Slot)}
    {Refusal : Nat → BindError → Prop} {Content : Nat → Slot → Prop}
    (hrefused : ∀ old e, Refusal old.size e → work old = fail e)
    (hcases : ∀ old, (∃ e, Refusal old.size e) ∨ ∃ run : Except Fault (Array Slot),
      work old = liftM run ∧ ∀ new, run = .ok new → new.size = old.size ∧
        ∀ (feature : Nat) s, new[feature]? = some s → Content feature s ∧ s.mode ≠ .unwritten)
    (hcongr : ∀ old old', old.size = old'.size → work old = work old') :
    Atomic (fun old => (work old).update old) Refusal Content := by
  have hok : ∀ old new, (work old).update old = .ok (new, .ok ()) → new.size = old.size ∧
      ∀ (feature : Nat) s, new[feature]? = some s → Content feature s ∧ s.mode ≠ .unwritten := by
    intro old new h
    rcases Attempt.update_eq_ok_iff.mp h with ⟨hwork, _⟩ | ⟨_, _, _, hr⟩
    · rcases hcases old with ⟨e, hr⟩ | ⟨run, hrun, hnew⟩
      · exact absurd ((hrefused old e hr).symm.trans hwork) fail_ne_ok
      · exact hnew new (lift_eq_ok_iff.mp (hrun.symm.trans hwork))
    · nomatch hr
  constructor
  case refused =>
    intro old e
    constructor
    · intro ⟨new, h⟩
      rcases Attempt.update_eq_ok_iff.mp h with ⟨_, hr⟩ | ⟨e', hwork, _, hr⟩
      · nomatch hr
      · cases hr
        rcases hcases old with ⟨e', hr⟩ | ⟨run, hrun, _⟩
        · cases (hrefused old e' hr).symm.trans hwork
          exact hr
        · exact absurd (hrun.symm.trans hwork) lift_ne_fail
    · intro hr
      exact ⟨old, by rw [hrefused old e hr, Attempt.update_fail]⟩
  case unchanged =>
    intro old new e h
    rcases Attempt.update_eq_ok_iff.mp h with ⟨_, hr⟩ | ⟨_, _, hnew, _⟩
    · nomatch hr
    · exact hnew
  case size => exact fun old new h => (hok old new h).1
  case content => exact fun old new h => (hok old new h).2
  case forgets =>
    intro old old' new hsize h
    rcases Attempt.update_eq_ok_iff.mp h with ⟨hwork, _⟩ | ⟨_, _, _, hr⟩
    · rw [hcongr old old' hsize] at hwork
      rw [hwork, Attempt.update_ok]
    · nomatch hr

theorem DenseRefusal.denseSlots_eq {c : Coder} {row : Array Binary32} {width : Nat} {e : BindError}
    (h : DenseRefusal c row.size width e) (policy : MissingPolicy) :
    denseSlots c policy row width = fail e := by
  cases h with
  | featureCount h => exact if_pos h
  | tableTooSmall hc hlen h =>
    subst hc
    exact denseSlots_tooSmall policy hlen h

theorem SparseRefusal.sparseSlots_eq {c : Coder} {indices : List UInt32} {values : List Binary32}
    {slots : Array Slot} {e : BindError} (h : SparseRefusal c indices values slots.size e)
    (policy : MissingPolicy) : sparseSlots c policy indices values slots = fail e := by
  cases h with
  | lengths h => exact sparseSlots_refused c policy (if_pos h)
  | @outOfRange before after index hlen hsplit hbefore h =>
    have hfirst : indices.find? (fun i => decide (slots.size ≤ i.toNat)) = some index := by
      refine List.find?_eq_some_iff_append.mpr ⟨by simpa using h, before, after, hsplit, ?_⟩
      intro i hi
      simpa using hbefore i hi
    refine sparseSlots_refused c policy ?_
    simp only [checkSparse, hlen, hfirst, ne_eq, not_true_eq_false, if_false]
  | tableTooSmall hc hlen hin h =>
    subst hc
    exact sparseSlots_tooSmall policy (checkSparse_ok hlen hin) h

theorem atomic_bindDense (c : Coder) (policy : MissingPolicy) (row : Array Binary32) :
    Atomic (bindDense c policy row) (DenseRefusal c row.size) (DenseContent c policy row) := by
  refine atomic_update (fun old e h => h.denseSlots_eq policy) (fun old => ?_) ?_
  · by_cases hlen : row.size = old.size
    · rcases c.covers_or_tooSmall old.size with hcov | ⟨table, hc, hsmall⟩
      · right
        refine ⟨(c.encode policy 0 row.toList).map List.toArray, ?_, fun new hnew => ?_⟩
        · simp only [denseSlots, hlen, ne_eq, not_true_eq_false, if_false,
            Coder.checkWidth_ok hcov, ok_bind]
          cases c.encode policy 0 row.toList <;> rfl
        · obtain ⟨slots, hslots, rfl⟩ := map_eq_ok_iff.mp hnew
          refine ⟨?_, fun feature s hs => ?_⟩
          · rw [List.size_toArray, Coder.length_encode hslots, Array.length_toList, hlen]
          · rw [List.getElem?_toArray] at hs
            obtain ⟨x, hx, hslot⟩ := Coder.slot_of_encode hslots hs
            rw [Array.getElem?_toList] at hx
            rw [Nat.zero_add] at hslot
            have hbound := boundTo_of_slot hslot
            exact ⟨⟨x, hx, hbound⟩, hbound.mode_ne_unwritten⟩
      · exact Or.inl ⟨_, .tableTooSmall hc hlen hsmall⟩
    · exact Or.inl ⟨_, .featureCount hlen⟩
  · intro old old' hsize
    rw [hsize]

theorem atomic_bindSparse (c : Coder) (policy : MissingPolicy) (indices : List UInt32)
    (values : List Binary32) :
    Atomic (bindSparse c policy indices values) (SparseRefusal c indices values)
      (SparseContent c policy indices values) := by
  refine atomic_update (fun old e h => h.sparseSlots_eq policy) (fun old => ?_)
    fun old old' hsize => sparseSlots_congr c policy indices values hsize
  by_cases hlen : indices.length = values.length
  · cases hfind : indices.find? (fun i => decide (old.size ≤ i.toNat)) with
    | some index =>
      obtain ⟨hwide, before, after, hsplit, hbefore⟩ := List.find?_eq_some_iff_append.mp hfind
      refine Or.inl ⟨_, .outOfRange hlen hsplit (fun i hi => ?_) (by simpa using hwide)⟩
      simpa using hbefore i hi
    | none =>
      have hin : ∀ i ∈ indices, i.toNat < old.size := by
        intro i hi
        simpa using List.find?_eq_none.mp hfind i hi
      rcases c.covers_or_tooSmall old.size with hcov | ⟨table, hc, hsmall⟩
      · right
        refine ⟨c.scatter policy (resetMissing old) (indices.zip values), ?_, fun new hnew => ?_⟩
        · simp only [sparseSlots, checkSparse_ok hlen hin, Coder.checkWidth_ok hcov, ok_bind]
        · obtain ⟨hsize, hat⟩ := Coder.slot_of_scatter hnew
          rw [resetMissing_eq] at hsize hat
          refine ⟨by simpa using hsize, fun feature s hs => ?_⟩
          rcases hat feature s hs with ⟨x, hlast, hslot⟩ | ⟨hnone, hold⟩
          · have hbound := boundTo_of_slot hslot
            exact ⟨Or.inl ⟨x, hlast, hbound⟩, hbound.mode_ne_unwritten⟩
          · have hs : s = .missing := by
              rw [Array.getElem?_replicate] at hold
              split at hold
              next => exact (Option.some.inj hold).symm
              next => cases hold
            have hunlisted : ∀ i ∈ indices, i.toNat ≠ feature := by
              intro i hi
              obtain ⟨x, hx⟩ := exists_pair_of_mem hlen hi
              exact hnone (i, x) hx
            refine ⟨Or.inr ⟨hunlisted, hs⟩, fun hmode => ?_⟩
            rw [hs] at hmode
            cases hmode
      · exact Or.inl ⟨_, .tableTooSmall hc hlen hin hsmall⟩
  · exact Or.inl ⟨_, .lengths hlen⟩

theorem Coder.total_of_partitioned {c : Coder}
    (h : ∀ table, c = .binned table → table.Partitioned) : c.Total := by
  cases c with
  | raw => exact total_raw
  | binned table => exact total_binned (ThresholdTable.wellFormed_iff_partitioned.mpr (h table rfl))

/-- Binding of every kind is what slot by slot writes leave; it is refused for the listed reasons
only, and is atomic. With a partitioned table it always has an answer. -/
theorem binding_atomic (c : Coder) (policy : MissingPolicy) :
    (∀ row, bindDense c policy row = InPlace.dense c policy row ∧
      Atomic (bindDense c policy row) (DenseRefusal c row.size) (DenseContent c policy row)) ∧
    (∀ indices values,
      bindSparse c policy indices values = InPlace.sparse c policy indices values ∧
      Atomic (bindSparse c policy indices values) (SparseRefusal c indices values)
        (SparseContent c policy indices values)) ∧
    ((∀ table, c = .binned table → table.Partitioned) → ∀ old,
      (∀ row, ∃ new r, bindDense c policy row old = .ok (new, r)) ∧
      ∀ indices values, ∃ new r, bindSparse c policy indices values old = .ok (new, r)) := by
  refine ⟨fun row => ⟨bindDense_eq_inPlace c policy row, atomic_bindDense c policy row⟩,
    fun indices values => ⟨bindSparse_eq_inPlace c policy indices values,
      atomic_bindSparse c policy indices values⟩, fun htable old => ?_⟩
  have hc := Coder.total_of_partitioned htable
  exact ⟨fun row => Attempt.update_answers old (denseSlots_ne_fault hc policy row old.size),
    fun indices values =>
      Attempt.update_answers old (sparseSlots_ne_fault hc policy indices values old)⟩

/-- Slots that were written in three ways, or not at all. -/
def staleSlots : Array Slot := #[.ofFloat ⟨0x3f800000⟩, .ofBin 7, .unwritten]

/-- A row that lists feature 1 twice leaves it missing if a NaN comes last, and feature 2 is not
listed. A row with an index out of range late in its list changes nothing. -/
theorem bindSparse_staleSlots :
    bindSparse (.binned .mixedTable) .nanIsMissing [1, 0, 1] [.zero, ⟨0x3f000000⟩, .quietNaN]
        staleSlots = .ok (#[.ofBin 2, .missing, .missing], .ok ()) ∧
      bindSparse (.binned .mixedTable) .nanIsMissing [1, 3, 7] [.zero, .zero, .zero] staleSlots =
        .ok (staleSlots, .error (.featureOutOfRange 3 3)) := by
  obtain ⟨_, hsparse, _⟩ := binding_atomic (.binned .mixedTable) .nanIsMissing
  constructor
  · have hfresh : bindSparse (.binned .mixedTable) .nanIsMissing [1, 0, 1]
        [.zero, ⟨0x3f000000⟩, .quietNaN] (Array.replicate 3 .unwritten) =
        .ok (#[.ofBin 2, .missing, .missing], .ok ()) := by decide +kernel
    exact (hsparse _ _).2.forgets (Array.replicate 3 .unwritten) staleSlots _ rfl hfresh
  · have hsplit : ([1, 3, 7] : List UInt32) = [1] ++ 3 :: [7] := rfl
    have hrefusal : SparseRefusal (.binned .mixedTable) [1, 3, 7] [.zero, .zero, .zero]
        staleSlots.size (.featureOutOfRange 3 3) :=
      .outOfRange rfl hsplit (by simp [staleSlots]) (by simp [staleSlots])
    obtain ⟨new, hnew⟩ := ((hsparse _ _).2.refused staleSlots _).mpr hrefusal
    rw [(hsparse _ _).2.unchanged staleSlots new _ hnew] at hnew
    exact hnew

end TreeEnsemble
