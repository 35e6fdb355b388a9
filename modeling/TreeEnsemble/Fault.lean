/-!
Faults: what stops a computation for good. A fault is no answer about the data, unlike an ordinary
error: it says that the caller broke the terms of an operation, or that a model was used although
it is not well formed. An operation that can fail in both ways is an `Attempt`.
-/

namespace TreeEnsemble

inductive Fault where
  /-- An array or a region was read outside its bounds. -/
  | outOfBounds
  /-- A walk over a malformed tree does not end. -/
  | endless
  /-- A demand on the arguments is not met. -/
  | unmet
  | noSuchWorker (worker : Nat)
  | noSuchRow (row : Nat)
  | noSuchGroup
  | outputLength
  | outputShape
  deriving DecidableEq

def Fault.message : Fault → Option String
  | .outOfBounds => none
  | .endless => none
  | .unmet => none
  | .noSuchWorker worker => some s!"worker {worker} out of range"
  | .noSuchRow row => some s!"row {row} out of range"
  | .noSuchGroup => some "group out of range"
  | .outputLength => some "output length must equal n_groups"
  | .outputShape => some "output shape must match (n_groups, n_samples)"

/-- Why an attempt has no value. -/
inductive Failure (ε : Type) where
  | fault (fault : Fault)
  | error (error : ε)
  deriving DecidableEq

/-- A computation that gives a value, fails with an error, or faults. -/
abbrev Attempt (ε α : Type) := Except (Failure ε) α

instance {ε : Type} : MonadLift (Except Fault) (Except (Failure ε)) where
  monadLift x := x.mapError Failure.fault

def fail {ε α : Type} (e : ε) : Attempt ε α := .error (.error e)

def fetch {α : Type} (a : Array α) (i : Nat) : Except Fault α :=
  match a[i]? with
  | some x => .ok x
  | none => .error .outOfBounds

def store {α : Type} (a : Array α) (i : Nat) (x : α) : Except Fault (Array α) :=
  if h : i < a.size then .ok (a.set i x h) else .error .outOfBounds

namespace Attempt

def mapErrors {ε η α : Type} (f : ε → η) : Attempt ε α → Attempt η α
  | .ok a => .ok a
  | .error (.fault x) => .error (.fault x)
  | .error (.error e) => .error (.error (f e))

/-- Tells an error from a fault: an error becomes a value. -/
def settle {ε α : Type} : Attempt ε α → Except Fault (Except ε α)
  | .ok a => .ok (.ok a)
  | .error (.fault x) => .error x
  | .error (.error e) => .ok (.error e)

/-- Replaces a state by the attempt's value, or keeps it and reports the error. -/
def update {ε σ : Type} (old : σ) : Attempt ε σ → Except Fault (σ × Except ε Unit)
  | .ok new => .ok (new, .ok ())
  | .error (.fault x) => .error x
  | .error (.error e) => .ok (old, .error e)

end Attempt

@[simp] theorem pure_eq_ok {ε α : Type} (a : α) : (pure a : Except ε α) = .ok a := rfl

@[simp] theorem ok_bind {ε α β : Type} (a : α) (f : α → Except ε β) :
    (Except.ok a >>= f) = f a := rfl

@[simp] theorem error_bind {ε α β : Type} (e : ε) (f : α → Except ε β) :
    (Except.error e >>= f) = .error e := rfl

@[simp] theorem fail_bind {ε α β : Type} (e : ε) (f : α → Attempt ε β) :
    (fail e >>= f) = fail e := rfl

@[simp] theorem lift_ok {ε α : Type} (a : α) :
    (liftM (Except.ok a : Except Fault α) : Attempt ε α) = .ok a := rfl

@[simp] theorem lift_error {ε α : Type} (fault : Fault) :
    (liftM (Except.error fault : Except Fault α) : Attempt ε α) = .error (.fault fault) := rfl

theorem bind_eq_ok_iff {ε α β : Type} {x : Except ε α} {f : α → Except ε β} {b : β} :
    (x >>= f) = .ok b ↔ ∃ a, x = .ok a ∧ f a = .ok b := by
  cases x with
  | error e => exact ⟨nofun, fun ⟨_, h, _⟩ => nomatch h⟩
  | ok a => exact ⟨fun h => ⟨a, rfl, h⟩, fun ⟨_, h, hf⟩ => by cases h; exact hf⟩

theorem map_eq_ok_iff {ε α β : Type} {x : Except ε α} {f : α → β} {b : β} :
    x.map f = .ok b ↔ ∃ a, x = .ok a ∧ f a = b := by
  cases x with
  | error e => exact ⟨nofun, fun ⟨_, h, _⟩ => nomatch h⟩
  | ok a => exact ⟨fun h => ⟨a, rfl, Except.ok.inj h⟩, fun ⟨_, h, hf⟩ => by cases h; cases hf; rfl⟩

theorem bind_eq_error_iff {ε α β : Type} {x : Except ε α} {f : α → Except ε β} {e : ε} :
    (x >>= f) = .error e ↔ x = .error e ∨ ∃ a, x = .ok a ∧ f a = .error e := by
  cases x with
  | error d => exact ⟨fun h => by cases h; exact Or.inl rfl,
      fun h => by rcases h with h | ⟨_, h, _⟩ <;> cases h; rfl⟩
  | ok a => exact ⟨fun h => Or.inr ⟨a, rfl, h⟩,
      fun h => by rcases h with h | ⟨_, h, hf⟩ <;> cases h; exact hf⟩

theorem lift_eq_ok_iff {ε α : Type} {x : Except Fault α} {a : α} :
    (liftM x : Attempt ε α) = .ok a ↔ x = .ok a := by
  cases x with
  | error e => exact ⟨nofun, nofun⟩
  | ok b => exact ⟨fun h => by cases h; rfl, fun h => by cases h; rfl⟩

theorem forM_eq_ok_iff {ε α : Type} {f : α → Except ε Unit} {xs : List α} :
    xs.forM f = .ok () ↔ ∀ x ∈ xs, f x = .ok () := by
  induction xs with
  | nil => exact ⟨fun _ => nofun, fun _ => rfl⟩
  | cons x xs ih =>
    have hcons : (x :: xs).forM f = f x >>= fun _ => xs.forM f := rfl
    rw [hcons, bind_eq_ok_iff, List.forall_mem_cons]
    exact ⟨fun ⟨_, hx, hxs⟩ => ⟨hx, ih.mp hxs⟩, fun ⟨hx, hxs⟩ => ⟨(), hx, ih.mpr hxs⟩⟩

theorem exists_error_of_forM {ε α : Type} {f : α → Except ε Unit} {xs : List α} {e : ε}
    (h : xs.forM f = .error e) : ∃ x ∈ xs, f x = .error e := by
  induction xs with
  | nil => nomatch h
  | cons x xs ih =>
    rcases bind_eq_error_iff.mp h with h | ⟨_, _, h⟩
    · exact ⟨x, List.mem_cons_self, h⟩
    · obtain ⟨y, hy, he⟩ := ih h
      exact ⟨y, List.mem_cons_of_mem x hy, he⟩

theorem fail_ne_ok {ε α : Type} {e : ε} {a : α} : (fail e : Attempt ε α) ≠ .ok a := nofun

theorem fail_ne_fault {ε α : Type} {e : ε} {fault : Fault} :
    (fail e : Attempt ε α) ≠ .error (.fault fault) := nofun

theorem lift_ne_fail {ε α : Type} {x : Except Fault α} {e : ε} :
    (liftM x : Attempt ε α) ≠ fail e := by
  cases x <;> exact nofun

theorem fetch_eq_ok_iff {α : Type} {a : Array α} {i : Nat} {x : α} :
    fetch a i = .ok x ↔ a[i]? = some x := by
  unfold fetch
  split <;> simp_all

theorem store_eq_ok_iff {α : Type} {a b : Array α} {i : Nat} {x : α} :
    store a i x = .ok b ↔ i < a.size ∧ b = a.setIfInBounds i x := by
  unfold store
  by_cases h : i < a.size
  · rw [dif_pos h, Array.setIfInBounds, dif_pos h]
    exact ⟨fun e => ⟨h, (Except.ok.inj e).symm⟩, fun e => by rw [e.2]⟩
  · rw [dif_neg h]
    exact ⟨nofun, fun e => absurd e.1 h⟩

theorem store_of_lt {α : Type} {a : Array α} {i : Nat} {x : α} (h : i < a.size) :
    store a i x = .ok (a.setIfInBounds i x) := store_eq_ok_iff.mpr ⟨h, rfl⟩

theorem fetch_of_lt {α : Type} {a : Array α} {i : Nat} (h : i < a.size) :
    fetch a i = .ok a[i] := by
  simp [fetch, h]

end TreeEnsemble
