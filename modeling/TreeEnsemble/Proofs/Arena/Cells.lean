import Mathlib.Data.List.Nodup
import Mathlib.Logic.Function.Basic
import TreeEnsemble.Proofs.Arena

/-!
An arena is an array of cells with three indices: a worker, one of its rows and a feature. The slots
of a worker, those of one row and the pieces of all workers are computed in three ways. A slot has
the same place in each of them, and different cells have different places, so a write through one of
them is seen through all and touches no other cell.
-/

namespace TreeEnsemble.Arena

structure Shape where
  workers : Nat
  rows : Nat
  features : Nat
  deriving DecidableEq

structure Cell where
  worker : Nat
  row : Nat
  feature : Nat
  deriving DecidableEq

/-- What is asked of an arena: the slots of a worker, those of one of its rows, or the worker's
piece among those of all workers. -/
inductive Access where
  | worker (w : Nat)
  | row (w r : Nat)
  | piece (w : Nat)
  deriving DecidableEq

/-- A slot, and the offset where it is put in the slots of an access. -/
structure Put where
  access : Access
  offset : Nat
  slot : Slot

def shape (a : Arena) : Shape := ⟨a.workers, a.rowsPerWorker, a.features⟩

def spanOf (a : Arena) : Access → Except Fault Span
  | .worker w => a.worker w
  | .row w r => a.row w r
  | .piece w => do
    let spans ← a.workerSpans
    fetch spans.toArray w

def get (a : Arena) (access : Access) (offset : Nat) : Except Fault Slot := do
  let s ← a.spanOf access
  fetch (a.read s) offset

def put (a : Arena) (p : Put) : Except Fault Arena := do
  let s ← a.spanOf p.access
  a.set s p.offset p.slot

def putAll (a : Arena) (puts : List Put) : Except Fault Arena := puts.foldlM put a

namespace Cell

def InRange (c : Cell) (d : Shape) : Prop :=
  c.worker < d.workers ∧ c.row < d.rows ∧ c.feature < d.features

/-- Features count fastest, then rows, then workers. -/
def position (c : Cell) (d : Shape) : Nat := (c.worker * d.rows + c.row) * d.features + c.feature

theorem mul_add_lt {x m i n : Nat} (hx : x < m) (hi : i < n) : x * n + i < m * n :=
  calc x * n + i < x * n + n := Nat.add_lt_add_left hi _
    _ = (x + 1) * n := (Nat.succ_mul x n).symm
    _ ≤ m * n := Nat.mul_le_mul_right n hx

theorem div_mod_mul_add {i n : Nat} (x : Nat) (hi : i < n) :
    (x * n + i) / n = x ∧ (x * n + i) % n = i :=
  (Nat.div_mod_unique (Nat.zero_lt_of_lt hi)).mpr ⟨by rw [Nat.add_comm, Nat.mul_comm], hi⟩

theorem mul_add_inj {x y i j n : Nat} (hi : i < n) (hj : j < n) (h : x * n + i = y * n + j) :
    x = y ∧ i = j := by
  obtain ⟨hx, hi⟩ := div_mod_mul_add x hi
  obtain ⟨hy, hj⟩ := div_mod_mul_add y hj
  exact ⟨by rw [← hx, h, hy], by rw [← hi, h, hj]⟩

theorem InRange.position_lt {c : Cell} {d : Shape} (h : c.InRange d) :
    c.position d < d.workers * d.rows * d.features := mul_add_lt (mul_add_lt h.1 h.2.1) h.2.2

theorem InRange.position_inj {b c : Cell} {d : Shape} (hb : b.InRange d) (hc : c.InRange d)
    (h : b.position d = c.position d) : b = c := by
  obtain ⟨hrows, hfeature⟩ := mul_add_inj hb.2.2 hc.2.2 h
  obtain ⟨hworker, hrow⟩ := mul_add_inj hb.2.1 hc.2.1 hrows
  cases b
  cases c
  simp_all

end Cell

namespace Access

/-- Whether the slots of an access exist and go beyond the offset. -/
def Reaches (d : Shape) : Access → (offset : Nat) → Prop
  | worker w, offset | piece w, offset => w < d.workers ∧ offset < d.rows * d.features
  | row w r, offset => r < d.rows ∧ w < d.workers ∧ offset < d.features

/-- The cell at an offset of the slots of an access. -/
def cell (d : Shape) : Access → (offset : Nat) → Cell
  | worker w, offset | piece w, offset => ⟨w, offset / d.features, offset % d.features⟩
  | row w r, offset => ⟨w, r, offset⟩

theorem Reaches.inRange {d : Shape} {access : Access} {offset : Nat}
    (h : access.Reaches d offset) : (access.cell d offset).InRange d := by
  have hblock : ∀ w, w < d.workers ∧ offset < d.rows * d.features →
      (⟨w, offset / d.features, offset % d.features⟩ : Cell).InRange d := fun w ⟨hw, ho⟩ =>
    ⟨hw, Nat.div_lt_of_lt_mul (Nat.mul_comm _ _ ▸ ho),
      Nat.mod_lt _ (Nat.pos_of_ne_zero fun hzero => by simp [hzero] at ho)⟩
  cases access with
  | worker w => exact hblock w h
  | row w r => exact ⟨h.2.1, h.1, h.2.2⟩
  | piece w => exact hblock w h

theorem cell_worker {d : Shape} {f : Nat} (w r : Nat) (hf : f < d.features) :
    (worker w).cell d (r * d.features + f) = ⟨w, r, f⟩ := by
  obtain ⟨hrow, hfeature⟩ := Cell.div_mod_mul_add r hf
  rw [cell, hrow, hfeature]

/-- The three ways to reach a cell. -/
theorem reaches_cell {d : Shape} {w r f : Nat} (hw : w < d.workers) (hr : r < d.rows)
    (hf : f < d.features) :
    ∀ place ∈ [(worker w, r * d.features + f), (row w r, f), (piece w, r * d.features + f)],
      place.1.Reaches d place.2 ∧ place.1.cell d place.2 = ⟨w, r, f⟩ := by
  have hlt := Cell.mul_add_lt hr hf
  simp only [List.forall_mem_cons]
  exact ⟨⟨⟨hw, hlt⟩, cell_worker w r hf⟩, ⟨⟨hr, hw, hf⟩, rfl⟩, ⟨⟨hw, hlt⟩, cell_worker w r hf⟩,
    nofun⟩

end Access

section Spans

variable (a : Arena)

theorem size_slots : a.slots.size = a.workers * a.workerSize := by
  rw [a.size_eq, workerSize, Nat.mul_assoc]

theorem worker_eq (w : Nat) :
    a.worker w =
      if w < a.workers then .ok ⟨w * a.workerSize, (w + 1) * a.workerSize⟩
      else .error (.noSuchWorker w) := by
  unfold worker
  refine if_ctx_congr Iff.rfl (fun hw => ?_) fun _ => rfl
  have hle : (w + 1) * a.workerSize ≤ a.workers * a.workerSize := Nat.mul_le_mul_right _ hw
  rw [Span.slice_ok (Nat.mul_le_mul_right _ (Nat.le_succ w))
    (by simpa only [whole, Span.size, size_slots, Nat.sub_zero] using hle)]
  simp only [whole, Nat.zero_add]

theorem row_eq (w r : Nat) :
    a.row w r =
      if r < a.rowsPerWorker then
        if w < a.workers then
          .ok ⟨w * a.workerSize + r * a.features, w * a.workerSize + (r + 1) * a.features⟩
        else .error (.noSuchWorker w)
      else .error (.noSuchRow r) := by
  unfold row
  refine if_ctx_congr Iff.rfl (fun hr => ?_) fun _ => rfl
  rw [worker_eq]
  by_cases hw : w < a.workers
  · have hle : (r + 1) * a.features ≤ a.workerSize := Nat.mul_le_mul_right _ hr
    rw [if_pos hw, if_pos hw, ok_bind, Span.slice_ok (Nat.mul_le_mul_right _ (Nat.le_succ r))]
    simp only [Span.size, Nat.succ_mul] at hle ⊢
    omega
  · rw [if_neg hw, if_neg hw]
    rfl

theorem size_block (w n : Nat) : (⟨w * n, (w + 1) * n⟩ : Span).size = n := by
  rw [Span.size, Nat.succ_mul, Nat.add_sub_cancel_left]

theorem worker_cases (w : Nat) :
    if w < a.workers then ∃ s, a.worker w = .ok s ∧ s.size = a.workerSize
    else a.worker w = .error (.noSuchWorker w) := by
  rw [worker_eq]
  by_cases hw : w < a.workers
  · rw [if_pos hw, if_pos hw]
    exact ⟨_, rfl, size_block w _⟩
  · rw [if_neg hw, if_neg hw]

theorem row_cases (w r : Nat) :
    if r < a.rowsPerWorker then
      if w < a.workers then ∃ s, a.row w r = .ok s ∧ s.size = a.features
      else a.row w r = .error (.noSuchWorker w)
    else a.row w r = .error (.noSuchRow r) := by
  rw [row_eq]
  by_cases hr : r < a.rowsPerWorker
  · rw [if_pos hr, if_pos hr]
    by_cases hw : w < a.workers
    · rw [if_pos hw, if_pos hw]
      exact ⟨_, rfl, by simp only [Span.size, Nat.succ_mul]; omega⟩
    · rw [if_neg hw, if_neg hw]
  · rw [if_neg hr, if_neg hr]

theorem piece_eq (w : Nat) :
    a.spanOf (.piece w) =
      if w < a.workers then .ok ⟨w * a.workerSize, (w + 1) * a.workerSize⟩
      else .error .outOfBounds := by
  simp only [spanOf, workerSpans_eq, ok_bind, fetch, List.getElem?_toArray, List.getElem?_map]
  by_cases hw : w < a.workers
  · rw [if_pos hw, List.getElem?_range hw]
    rfl
  · rw [if_neg hw, List.getElem?_eq_none (by simpa using hw)]
    rfl

variable {a}

/-- The three ways to compute the place of a slot agree. -/
theorem spanOf_reaches {access : Access} {offset : Nat} (h : access.Reaches a.shape offset) :
    ∃ s, a.spanOf access = .ok s ∧ offset < s.size ∧ s.stop ≤ a.slots.size ∧
      s.start + offset = (access.cell a.shape offset).position a.shape := by
  have hblock : ∀ w, w < a.workers → offset < a.workerSize →
      offset < (w + 1) * a.workerSize - w * a.workerSize ∧
        (w + 1) * a.workerSize ≤ a.slots.size ∧
        w * a.workerSize + offset =
          (⟨w, offset / a.features, offset % a.features⟩ : Cell).position a.shape := by
    intro w hw ho
    refine ⟨by rw [Nat.succ_mul]; omega, a.size_slots ▸ Nat.mul_le_mul_right _ hw, ?_⟩
    have hdiv := Nat.div_add_mod' offset a.features
    simp only [Cell.position, shape, workerSize, Nat.add_mul, Nat.mul_assoc]
    omega
  cases access with
  | worker w => exact ⟨_, (a.worker_eq w).trans (if_pos h.1), hblock w h.1 h.2⟩
  | row w r =>
    obtain ⟨(hr : r < a.rowsPerWorker), (hw : w < a.workers), (ho : offset < a.features)⟩ := h
    have hspan := a.row_eq w r
    rw [if_pos hr, if_pos hw] at hspan
    have hr : (r + 1) * a.features ≤ a.workerSize := Nat.mul_le_mul_right _ hr
    have hw' : (w + 1) * a.workerSize ≤ a.slots.size := a.size_slots ▸ Nat.mul_le_mul_right _ hw
    refine ⟨_, hspan, ?_, ?_, ?_⟩
    · simp only [Span.size, Nat.succ_mul]
      omega
    · rw [Nat.succ_mul w] at hw'
      exact Nat.le_trans (Nat.add_le_add_left hr _) hw'
    · simp only [Access.cell, Cell.position, shape, workerSize, Nat.add_mul, Nat.mul_assoc]
  | piece w => exact ⟨_, (a.piece_eq w).trans (if_pos h.1), hblock w h.1 h.2⟩

theorem reaches_of_spanOf {access : Access} {s : Span} {offset : Nat}
    (hs : a.spanOf access = .ok s) (ho : offset < s.size) : access.Reaches a.shape offset := by
  have hblock : ∀ w, offset < (w + 1) * a.workerSize - w * a.workerSize → offset < a.workerSize :=
    fun w h => by rw [Nat.succ_mul] at h; omega
  cases access with
  | worker w =>
    rw [spanOf, worker_eq] at hs
    split at hs
    next hw =>
      cases hs
      exact ⟨hw, hblock w ho⟩
    next => cases hs
  | row w r =>
    rw [spanOf, row_eq] at hs
    split at hs
    next hr =>
      split at hs
      next hw =>
        cases hs
        simp only [Span.size, Nat.succ_mul] at ho
        exact ⟨hr, hw, show offset < a.features by omega⟩
      next => cases hs
    next => cases hs
  | piece w =>
    rw [piece_eq] at hs
    split at hs
    next hw =>
      cases hs
      exact ⟨hw, hblock w ho⟩
    next => cases hs

theorem exists_set {s : Span} {offset : Nat} (slot : Slot)
    (h : offset < s.size ∧ s.start + offset < a.slots.size) :
    ∃ b, a.set s offset slot = .ok b ∧ b.shape = a.shape ∧
      b.slots = a.slots.setIfInBounds (s.start + offset) slot := ⟨_, if_pos h, rfl, rfl⟩

end Spans

/-- Whether the cells of an arena have the slots that a function gives them. -/
def Holds (a : Arena) (slots : Cell → Slot) : Prop :=
  ∀ c : Cell, c.InRange a.shape → a.slots[c.position a.shape]? = some (slots c)

/-- The cells after slots were put in some of them, one after the other. -/
def putCells (d : Shape) (slots : Cell → Slot) (puts : List Put) : Cell → Slot :=
  puts.foldl (fun slots p => Function.update slots (p.access.cell d p.offset) p.slot) slots

theorem holds_new (d : Shape) : (new d.workers d.rows d.features).Holds fun _ => .unwritten := by
  intro c hc
  exact (Array.getElem?_replicate ..).trans (if_pos hc.position_lt)

namespace Holds

variable {a : Arena} {slots : Cell → Slot}

theorem get (h : a.Holds slots) {access : Access} {offset : Nat}
    (hreach : access.Reaches a.shape offset) :
    a.get access offset = .ok (slots (access.cell a.shape offset)) := by
  obtain ⟨s, hs, ho, hstop, hplace⟩ := spanOf_reaches hreach
  have hslot := h _ hreach.inRange
  rw [← hplace] at hslot
  rw [Arena.get, hs, ok_bind]
  refine fetch_eq_ok_iff.mpr ?_
  rw [Arena.read, Span.read, Array.getElem?_extract, if_pos, hslot]
  simp only [Span.size] at ho
  omega

/-- A slot is put in one cell, and the other cells keep theirs. -/
theorem put (h : a.Holds slots) (p : Put) (hreach : p.access.Reaches a.shape p.offset) :
    ∃ b, a.put p = .ok b ∧ b.shape = a.shape ∧
      b.Holds (Function.update slots (p.access.cell a.shape p.offset) p.slot) := by
  obtain ⟨s, hs, ho, hstop, hplace⟩ := spanOf_reaches hreach
  have hin : p.offset < s.size ∧ s.start + p.offset < a.slots.size := by
    refine ⟨ho, ?_⟩
    simp only [Span.size] at ho
    omega
  obtain ⟨b, hset, hshape, hslots⟩ := exists_set p.slot hin
  refine ⟨b, by rw [Arena.put, hs, ok_bind, hset], hshape, fun c hc => ?_⟩
  rw [hshape] at hc
  rw [hshape, hslots, Array.getElem?_setIfInBounds]
  by_cases heq : c = p.access.cell a.shape p.offset
  · rw [heq, if_pos hplace, if_pos (hplace ▸ hin.2), Function.update_self]
  · have hne : s.start + p.offset ≠ c.position a.shape := fun hsame =>
      heq (hc.position_inj hreach.inRange (hsame.symm.trans hplace))
    rw [if_neg hne, Function.update_of_ne heq]
    exact h c hc

end Holds

theorem put_error {a : Arena} {p : Put} (hreach : ¬p.access.Reaches a.shape p.offset) (b : Arena) :
    a.put p ≠ .ok b := by
  intro hput
  obtain ⟨s, hs, hset⟩ := bind_eq_ok_iff.mp hput
  rw [set] at hset
  split at hset
  next hin => exact hreach (reaches_of_spanOf hs hin.1)
  next => cases hset

/-- A run of writes succeeds if each of them is in range, and then the cells hold what the writes
left there. -/
theorem Holds.putAll {a : Arena} {slots : Cell → Slot} (h : a.Holds slots) (puts : List Put) :
    ((∃ b, a.putAll puts = .ok b) ↔ ∀ p ∈ puts, p.access.Reaches a.shape p.offset) ∧
      ∀ b, a.putAll puts = .ok b → b.shape = a.shape ∧ b.Holds (putCells a.shape slots puts) := by
  induction puts generalizing a slots with
  | nil =>
    refine ⟨⟨fun _ => nofun, fun _ => ⟨a, rfl⟩⟩, fun b hb => ?_⟩
    cases hb
    exact ⟨rfl, h⟩
  | cons p puts ih =>
    by_cases hreach : p.access.Reaches a.shape p.offset
    · obtain ⟨b, hput, hshape, hb⟩ := h.put p hreach
      have hrun : a.putAll (p :: puts) = b.putAll puts := by
        rw [Arena.putAll, List.foldlM_cons, hput]
        rfl
      obtain ⟨hok, hcells⟩ := ih hb
      rw [hshape] at hok hcells
      rw [hrun, List.forall_mem_cons]
      exact ⟨hok.trans (iff_and_self.mpr fun _ => hreach), hcells⟩
    · have hrun : ∀ b, a.putAll (p :: puts) ≠ .ok b := by
        intro b hb
        rw [Arena.putAll, List.foldlM_cons] at hb
        obtain ⟨_, hput, _⟩ := bind_eq_ok_iff.mp hb
        exact put_error hreach _ hput
      exact ⟨⟨fun ⟨b, hb⟩ => absurd hb (hrun b),
        fun hall => absurd (hall p List.mem_cons_self) hreach⟩, fun b hb => absurd hb (hrun b)⟩

theorem positions_pieces (n k : Nat) :
    ((List.range k).map fun w => (⟨w * n, (w + 1) * n⟩ : Span)).flatMap Span.positions =
      List.range (k * n) := by
  induction k with
  | zero => simp
  | succ k ih =>
    rw [List.range_succ, List.map_append, List.flatMap_append, ih, Nat.succ_mul,
      List.range_eq_range', List.range_eq_range', ← List.range'_append_1]
    simp [Span.positions, Span.size, Nat.succ_mul]

theorem disjoint_of_nodup {spans : List Span} (h : (spans.flatMap Span.positions).Nodup) :
    spans.Pairwise fun s t => s.positions.Disjoint t.positions := (List.nodup_flatMap.mp h).2

/-- An arena is an array of cells. It starts without values, writes succeed if they are in range,
each changes one cell, and every way to reach a cell gives what was written last to it. The pieces
of the workers are disjoint and cover the arena, whatever its shape, and only a worker or a row that
does not exist has no slots. -/
theorem slots_are_cells (d : Shape) (puts : List Put) :
    ((∃ a, (new d.workers d.rows d.features).putAll puts = .ok a) ↔
        ∀ p ∈ puts, p.access.Reaches d p.offset) ∧
      ∀ a, (new d.workers d.rows d.features).putAll puts = .ok a →
        (∀ w < d.workers, ∀ r < d.rows, ∀ f < d.features,
          ∀ place ∈ [(Access.worker w, r * d.features + f), (.row w r, f),
              (.piece w, r * d.features + f)],
            place.1.Reaches d place.2 ∧ place.1.cell d place.2 = ⟨w, r, f⟩ ∧
              a.get place.1 place.2 = .ok (putCells d (fun _ => .unwritten) puts ⟨w, r, f⟩)) ∧
        (∃ pieces, a.workerSpans = .ok pieces ∧ pieces.length = d.workers ∧
          (∀ s ∈ pieces, s.size = d.rows * d.features) ∧
          (pieces.Pairwise fun s t => s.positions.Disjoint t.positions) ∧
          pieces.flatMap Span.positions = List.range a.slots.size) ∧
        (∀ w, if w < d.workers then ∃ s, a.worker w = .ok s ∧ s.size = d.rows * d.features
          else a.worker w = .error (.noSuchWorker w)) ∧
        ∀ w r, if r < d.rows then
            if w < d.workers then ∃ s, a.row w r = .ok s ∧ s.size = d.features
            else a.row w r = .error (.noSuchWorker w)
          else a.row w r = .error (.noSuchRow r) := by
  obtain ⟨hok, hcells⟩ := (holds_new d).putAll puts
  refine ⟨hok, fun a ha => ?_⟩
  obtain ⟨hshape, hholds⟩ := hcells a ha
  have hshape : a.shape = d := hshape
  subst hshape
  have hcover := positions_pieces a.workerSize a.workers
  rw [← a.size_slots] at hcover
  refine ⟨fun w hw r hr f hf place hplace => ?_, ⟨_, a.workerSpans_eq, ?_, ?_, ?_, hcover⟩,
    a.worker_cases, a.row_cases⟩
  · obtain ⟨hreach, hcell⟩ := Access.reaches_cell hw hr hf place hplace
    exact ⟨hreach, hcell, hcell ▸ hholds.get hreach⟩
  · rw [List.length_map, List.length_range]
    rfl
  · intro s hs
    obtain ⟨w, _, rfl⟩ := List.mem_map.mp hs
    exact size_block _ _
  · exact disjoint_of_nodup (hcover ▸ List.nodup_range)

end TreeEnsemble.Arena
