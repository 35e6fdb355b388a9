import TreeEnsemble.Proofs.Binding

/-!
Binding slot by slot. Each piece of work changes the slots as it goes, and a refusal leaves them as
they are by then. Since a row is checked before the first write, this is the same as computing all
slots first and putting them in place at once.
-/

namespace TreeEnsemble

/-- A way to write slots. The first part of its result is the slots afterwards. -/
abbrev InPlace := Array Slot → Except Fault (Array Slot × Except BindError Unit)

namespace InPlace

/-- One piece of work after another. A refusal ends it, with the slots as they are by then. -/
def seq (first next : InPlace) : InPlace := fun slots => do
  let (slots, r) ← first slots
  match r with
  | .ok () => next slots
  | .error e => pure (slots, .error e)

def check (test : Nat → Attempt BindError Unit) : InPlace := fun slots =>
  Attempt.update slots ((test slots.size).map fun _ => slots)

def reset : InPlace := fun slots => pure (resetMissing slots, .ok ())

def write (c : Coder) (policy : MissingPolicy) (x : Binary32) (feature : Nat) : InPlace :=
  fun slots => do
    let s ← c.slot policy feature x
    let slots ← store slots feature s
    pure (slots, .ok ())

def writes (c : Coder) (policy : MissingPolicy) : List (Binary32 × Nat) → InPlace
  | [] => fun slots => pure (slots, .ok ())
  | (x, feature) :: rest => (write c policy x feature).seq (writes c policy rest)

/-- Binds a dense row slot by slot. -/
def dense (c : Coder) (policy : MissingPolicy) (row : Array Binary32) : InPlace :=
  let checkLength : InPlace := check fun width =>
    if row.size ≠ width then fail (.featureCount width row.size) else pure ()
  checkLength.seq ((check c.checkWidth).seq (writes c policy row.toList.zipIdx))

/-- Binds a sparse row slot by slot. -/
def sparse (c : Coder) (policy : MissingPolicy) (indices : List UInt32) (values : List Binary32) :
    InPlace :=
  let checkLists : InPlace := check (checkSparse indices values)
  let listed := (indices.zip values).map fun p => (p.2, p.1.toNat)
  checkLists.seq ((check c.checkWidth).seq (reset.seq (writes c policy listed)))

theorem seq_check_ok {test : Nat → Attempt BindError Unit} {slots : Array Slot}
    (h : test slots.size = .ok ()) (next : InPlace) : (check test).seq next slots = next slots := by
  simp only [seq, check, h]
  rfl

theorem seq_check_fail {test : Nat → Attempt BindError Unit} {slots : Array Slot} {e : BindError}
    (h : test slots.size = fail e) (next : InPlace) :
    (check test).seq next slots = .ok (slots, .error e) := by
  simp only [seq, check, h]
  rfl

theorem seq_write (c : Coder) (policy : MissingPolicy) (x : Binary32) {feature : Nat}
    {slots : Array Slot} (h : feature < slots.size) (next : InPlace) :
    (write c policy x feature).seq next slots =
      (c.slot policy feature x >>= fun s => next (slots.setIfInBounds feature s)) := by
  unfold seq write
  cases c.slot policy feature x with
  | error fault => rfl
  | ok s => simp only [ok_bind, store_of_lt h, pure_eq_ok]

/-- Writing the values of a list from some slot on leaves what was before it, and then the slots of
the list. -/
theorem writes_zipIdx (c : Coder) (policy : MissingPolicy) {xs : List Binary32} {first : Nat}
    {slots : Array Slot} (h : slots.size = first + xs.length) :
    writes c policy (xs.zipIdx first) slots =
      (c.encode policy first xs).map fun list =>
        ((slots.toList.take first ++ list).toArray, .ok ()) := by
  induction xs generalizing first slots with
  | nil =>
    have hall : slots.toList.take first = slots.toList := by
      refine List.take_of_length_le ?_
      simp only [Array.length_toList, h, List.length_nil, Nat.add_zero, Nat.le_refl]
    simp [writes, Coder.encode, Except.map, hall]
  | cons x xs ih =>
    have hin : first < slots.size := by
      rw [List.length_cons] at h
      omega
    rw [List.zipIdx_cons, writes, seq_write c policy x hin, Coder.encode]
    cases c.slot policy first x with
    | error fault => rfl
    | ok s =>
      have hsize : (slots.setIfInBounds first s).size = first + 1 + xs.length := by
        rw [Array.size_setIfInBounds, h, List.length_cons]
        omega
      have htake : (slots.setIfInBounds first s).toList.take (first + 1) =
          slots.toList.take first ++ [s] := by
        rw [Array.toList_setIfInBounds, List.take_add_one, List.take_set_of_le (Nat.le_refl first),
          List.getElem?_set_self (by simpa using hin)]
        rfl
      rw [ok_bind, ok_bind, ih hsize]
      cases c.encode policy (first + 1) xs with
      | error fault => rfl
      | ok rest =>
        simp only [Except.map, htake, List.append_assoc, List.singleton_append]
        rfl

theorem writes_map (c : Coder) (policy : MissingPolicy) {pairs : List (UInt32 × Binary32)}
    {slots : Array Slot} (h : ∀ p ∈ pairs, p.1.toNat < slots.size) :
    writes c policy (pairs.map fun p => (p.2, p.1.toNat)) slots =
      (c.scatter policy slots pairs).map fun out => (out, .ok ()) := by
  induction pairs generalizing slots with
  | nil => rfl
  | cons p pairs ih =>
    obtain ⟨hp, hpairs⟩ := List.forall_mem_cons.mp h
    rw [List.map_cons, writes, seq_write c policy p.2 hp, Coder.scatter]
    cases c.slot policy p.1.toNat p.2 with
    | error fault => rfl
    | ok s =>
      have hpairs' : ∀ q ∈ pairs, q.1.toNat < (slots.setIfInBounds p.1.toNat s).size := by
        rw [Array.size_setIfInBounds]
        exact hpairs
      rw [ok_bind, ok_bind, ih hpairs', store_of_lt hp, ok_bind]

end InPlace

/-- Binding a dense row at once is binding it slot by slot. -/
theorem bindDense_eq_inPlace (c : Coder) (policy : MissingPolicy) (row : Array Binary32) :
    bindDense c policy row = InPlace.dense c policy row := by
  funext old
  unfold bindDense InPlace.dense
  by_cases hlen : row.size = old.size
  · rw [InPlace.seq_check_ok (if_neg (by simp [hlen]))]
    rcases c.covers_or_tooSmall old.size with hcov | ⟨table, rfl, hsmall⟩
    · have hfill : old.size = 0 + row.toList.length := by simp [hlen]
      rw [InPlace.seq_check_ok (Coder.checkWidth_ok hcov), InPlace.writes_zipIdx c policy hfill]
      simp only [denseSlots, hlen, ne_eq, not_true_eq_false, if_false, Coder.checkWidth_ok hcov,
        ok_bind]
      cases c.encode policy 0 row.toList <;> rfl
    · rw [InPlace.seq_check_fail (Coder.checkWidth_tooSmall hsmall),
        denseSlots_tooSmall policy hlen hsmall, Attempt.update_fail]
  · rw [InPlace.seq_check_fail (if_pos hlen), denseSlots, if_pos hlen, Attempt.update_fail]

/-- Binding a sparse row at once is binding it slot by slot. -/
theorem bindSparse_eq_inPlace (c : Coder) (policy : MissingPolicy) (indices : List UInt32)
    (values : List Binary32) :
    bindSparse c policy indices values = InPlace.sparse c policy indices values := by
  funext old
  unfold bindSparse InPlace.sparse
  cases hcheck : checkSparse indices values old.size with
  | error failure =>
    cases failure with
    | fault fault => exact absurd hcheck (checkSparse_ne_fault indices values old.size fault)
    | error e =>
      rw [InPlace.seq_check_fail hcheck, sparseSlots_refused c policy hcheck, Attempt.update_fail]
  | ok _ =>
    rw [InPlace.seq_check_ok hcheck]
    rcases c.covers_or_tooSmall old.size with hcov | ⟨table, rfl, hsmall⟩
    · have hin : ∀ p ∈ indices.zip values, p.1.toNat < (resetMissing old).size := by
        rw [resetMissing, Array.size_map]
        exact lt_of_checkSparse hcheck
      have hreset : ∀ next : InPlace, InPlace.reset.seq next old = next (resetMissing old) :=
        fun _ => rfl
      rw [InPlace.seq_check_ok (Coder.checkWidth_ok hcov), hreset,
        InPlace.writes_map c policy hin]
      simp only [sparseSlots, hcheck, Coder.checkWidth_ok hcov, ok_bind]
      cases c.scatter policy (resetMissing old) (indices.zip values) <;> rfl
    · rw [InPlace.seq_check_fail (Coder.checkWidth_tooSmall hsmall),
        sparseSlots_tooSmall policy hcheck hsmall, Attempt.update_fail]

end TreeEnsemble
