import TreeEnsemble.Predictor.Batch
import TreeEnsemble.Proofs.Arena
import TreeEnsemble.Proofs.Matrix
import TreeEnsemble.Proofs.Predictor.Row

/-!
Blocks of a batch. Binding the rows of a block puts each row's slots into a place of its own, so
adding the trees one after the other to all rows of the block gives every row the sums that it gets
alone. What the slots held before does not matter. A row that is refused ends the blocks of its
worker, and one that faults ends everything.
-/

namespace TreeEnsemble.Predictor

/-- The place of a row in a buffer. -/
def rowPlace (width : Nat) (buffer : Span) (k : Nat) : Span :=
  ⟨buffer.start + k * width, buffer.start + (k + 1) * width⟩

theorem slice_row {width k : Nat} {buffer : Span} (h : (k + 1) * width ≤ buffer.size) :
    buffer.slice (k * width) ((k + 1) * width) = .ok (rowPlace width buffer k) :=
  Span.slice_ok (Nat.mul_le_mul_right width (Nat.le_succ k)) h

theorem size_rowPlace (width : Nat) (buffer : Span) (k : Nat) :
    (rowPlace width buffer k).size = width := by
  simp only [rowPlace, Span.size, Nat.succ_mul]
  omega

/-- A span lies inside an arena. -/
def Inside (buffer : Span) (arena : Arena) : Prop :=
  buffer.start ≤ buffer.stop ∧ buffer.stop ≤ arena.slots.size

theorem Inside.of_size {buffer : Span} {arena after : Arena} (h : Inside buffer arena)
    (hsize : after.slots.size = arena.slots.size) : Inside buffer after := ⟨h.1, hsize ▸ h.2⟩

theorem slice_used {buffer : Span} {arena : Arena} {n : Nat} (hin : Inside buffer arena)
    (hfit : n ≤ buffer.size) :
    ∃ used, buffer.slice 0 n = .ok used ∧ used.size = n ∧ Inside used arena := by
  refine ⟨⟨buffer.start + 0, buffer.start + n⟩, Span.slice_ok (Nat.zero_le n) hfit, ?_, ?_⟩
  · simp only [Span.size]
    omega
  · obtain ⟨hstart, hstop⟩ := hin
    simp only [Inside, Span.size] at hfit ⊢
    omega

/-- The rows of a batch with these numbers are bound as these slots. -/
def Binds (p : Predictor) (features : Matrix) (bound : Nat → Array Slot) (rows : List Nat) : Prop :=
  ∀ i ∈ rows, ∃ row, features.row i = .ok row ∧
    denseSlots p.coder p.policy row p.width = .ok (bound i)

theorem rowPlace_stop_le {width k n : Nat} {buffer : Span} {arena : Arena}
    (hin : Inside buffer arena) (hk : k < n) (hfit : n * width ≤ buffer.size) :
    (k + 1) * width ≤ buffer.size ∧ (rowPlace width buffer k).stop ≤ arena.slots.size := by
  have hle : (k + 1) * width ≤ n * width := Nat.mul_le_mul_right width hk
  obtain ⟨hstart, hstop⟩ := hin
  simp only [rowPlace, Span.size] at hfit ⊢
  omega

theorem bindDense_place (p : Predictor) (row : Array Binary32) {arena : Arena} {buffer : Span}
    {k : Nat} (hstop : (rowPlace p.width buffer k).stop ≤ arena.slots.size) :
    bindDense p.coder p.policy row (arena.read (rowPlace p.width buffer k)) =
      (denseSlots p.coder p.policy row p.width).update
        (arena.read (rowPlace p.width buffer k)) := by
  rw [bindDense, Arena.size_read hstop, size_rowPlace]

/-- Rows are bound one after the other; each keeps its slots when later ones are bound. -/
theorem bindRows_ok {p : Predictor} {features : Matrix} {bound : Nat → Array Slot} {buffer : Span}
    {k : Nat} {arena : Arena} {rows : List Nat} (hb : p.Binds features bound rows)
    (hin : Inside buffer arena) (hfit : (k + rows.length) * p.width ≤ buffer.size) :
    ∃ after, p.bindRows features buffer k arena rows = .ok (after, .ok ()) ∧
      after.slots.size = arena.slots.size ∧
      (∀ i < buffer.start + k * p.width, after.slots[i]? = arena.slots[i]?) ∧
      ∀ (q : Nat) i, rows[q]? = some i →
        after.read (rowPlace p.width buffer (k + q)) = bound i := by
  induction rows generalizing k arena with
  | nil => exact ⟨arena, rfl, rfl, fun _ _ => rfl, by simp⟩
  | cons i rows ih =>
    obtain ⟨⟨row, hrow, hd⟩, hrest⟩ := List.forall_mem_cons.mp hb
    rw [List.length_cons] at hfit
    obtain ⟨hplace, hstop⟩ := rowPlace_stop_le (k := k) hin (by omega) hfit
    have hnext : (k + 1 + rows.length) * p.width ≤ buffer.size := by
      rw [Nat.add_assoc, Nat.add_comm 1]
      exact hfit
    have hsize := size_rowPlace p.width buffer k
    have hnew := size_of_denseSlots hd
    have hbind := p.bindDense_place row hstop
    rw [hd, Attempt.update_ok] at hbind
    have hwrite := arena.size_write (rowPlace p.width buffer k) (bound i)
    obtain ⟨after, hafter, hasize, hkeep, hread⟩ := ih hrest (hin.of_size hwrite) hnext
    rw [Arena.size_write] at hasize
    refine ⟨after, ?_, hasize, fun j hj => ?_, fun q j hq => ?_⟩
    · simp only [bindRows, slice_row hplace, hrow, hbind, ok_bind, hafter]
    · rw [Nat.succ_mul] at hkeep
      rw [hkeep j (by omega), Arena.getElem?_write_before _ _ _ hj]
    · cases q with
      | zero =>
        -- later rows are written behind the first one
        cases hq
        rw [Nat.add_zero, Arena.read_congr (b := arena.write (rowPlace p.width buffer k) (bound i))
          (by rw [hasize, Arena.size_write]) hkeep]
        exact Arena.read_write (by rw [hsize, hnew]) hstop
      | succ q =>
        have hnext := hread q j hq
        rwa [Nat.add_right_comm, Nat.add_assoc] at hnext

/-- The row of a batch with this number can be bound. -/
def BindsAt (p : Predictor) (features : Matrix) (i : Nat) : Prop :=
  ∃ row slots, features.row i = .ok row ∧ denseSlots p.coder p.policy row p.width = .ok slots

theorem exists_binds {p : Predictor} {features : Matrix} {rows : List Nat}
    (h : ∀ i ∈ rows, p.BindsAt features i) : ∃ bound, p.Binds features bound rows := by
  have hslots : ∀ i, ∃ slots, i ∈ rows → ∃ row, features.row i = .ok row ∧
      denseSlots p.coder p.policy row p.width = .ok slots := by
    intro i
    by_cases hi : i ∈ rows
    · obtain ⟨row, slots, hrow, hd⟩ := h i hi
      exact ⟨slots, fun _ => ⟨row, hrow, hd⟩⟩
    · exact ⟨#[], fun hmem => absurd hmem hi⟩
  choose bound hbound using hslots
  exact ⟨bound, hbound⟩

theorem addTreeToRows_eq {p : Predictor} {t : Tree} {group : Nat} {arena : Arena} {buffer : Span}
    {bound : Nat → Array Slot} {k : Nat} {scores : Matrix} {rows : List Nat}
    (hw : t.WellFormed) (hr : t.Readable p.scale) (hg : group < scores.height)
    (hfit : (k + rows.length) * p.width ≤ buffer.size)
    (hread : ∀ (q : Nat) i, rows[q]? = some i →
      arena.read (rowPlace p.width buffer (k + q)) = bound i)
    (hcols : ∀ i ∈ rows, i < scores.width) (hnodup : rows.Nodup) :
    p.addTreeToRows t group arena buffer k scores rows =
      .ok (scores.updateColumns rows fun g j x =>
        if g = group then x + p.leafValueFor (bound j) t else x) := by
  induction rows generalizing k scores with
  | nil => exact congrArg Except.ok (Matrix.updateColumns_of_forall (by simp)).symm
  | cons i rows ih =>
    obtain ⟨hi, hrest⟩ := List.forall_mem_cons.mp hcols
    rw [List.length_cons] at hfit
    have hplace : (k + 1) * p.width ≤ buffer.size :=
      Nat.le_trans (Nat.mul_le_mul_right p.width (by omega)) hfit
    have hnext : (k + 1 + rows.length) * p.width ≤ buffer.size := by
      rw [Nat.add_assoc, Nat.add_comm 1]
      exact hfit
    have hslots : arena.read (rowPlace p.width buffer k) = bound i := hread 0 i rfl
    have hadd : scores.addAt group i (p.leafValueFor (bound i) t) =
        .ok (scores.updateColumns [i] fun g j x =>
          if g = group then x + p.leafValueFor (bound j) t else x) := by
      rw [Matrix.addAt_eq hg hi, Matrix.updateColumns]
      refine congrArg (fun f => Except.ok (scores.update f)) ?_
      funext g j x
      by_cases hj : j = i
      · simp [hj]
      · simp [hj]
    have hread' : ∀ (q : Nat) j, rows[q]? = some j →
        arena.read (rowPlace p.width buffer (k + 1 + q)) = bound j := by
      intro q j hq
      rw [Nat.add_right_comm, Nat.add_assoc]
      exact hread (q + 1) j hq
    rw [addTreeToRows, slice_row hplace, ok_bind, hslots, leafScore_eq hw hr, ok_bind, hadd,
      ok_bind, ih ?_ hnext hread' ?_ (List.nodup_cons.mp hnodup).2,
      Matrix.updateColumns_append (by simpa using hnodup)]
    · rfl
    · exact hg
    · exact hrest

/-- Tree by tree, every row of a block gets the sums that it gets alone. -/
theorem addTreesToRows_eq {p : Predictor} {arena : Arena} {buffer : Span}
    {bound : Nat → Array Slot} {scores : Matrix} {rows : List Nat} {trees : List (Tree × UInt32)}
    (htrees : ∀ tg ∈ trees, tg.1.WellFormed ∧ tg.1.Readable p.scale ∧ tg.2.toNat < scores.height)
    (hfit : rows.length * p.width ≤ buffer.size)
    (hread : ∀ (q : Nat) i, rows[q]? = some i → arena.read (rowPlace p.width buffer q) = bound i)
    (hcols : ∀ i ∈ rows, i < scores.width) (hnodup : rows.Nodup) :
    p.addTreesToRows arena buffer rows scores trees =
      .ok (scores.updateColumns rows fun g j x => p.groupScore (bound j) g x trees) := by
  induction trees generalizing scores with
  | nil =>
    exact congrArg Except.ok (Matrix.updateColumns_of_forall (by simp [groupScore])).symm
  | cons tg trees ih =>
    obtain ⟨⟨hw, hr, hg⟩, hrest⟩ := List.forall_mem_cons.mp htrees
    have hone := addTreeToRows_eq (k := 0) hw hr hg (by rw [Nat.zero_add]; exact hfit)
      (fun q i hq => by rw [Nat.zero_add]; exact hread q i hq) hcols hnodup
    rw [addTreesToRows, hone, ok_bind, ih ?_ ?_, Matrix.updateColumns_updateColumns]
    · rfl
    · exact hrest
    · exact hcols

/-- A score of a bound row before and after all trees of the forest. -/
def finalScore (p : Predictor) (bound : Nat → Array Slot) (group row : Nat) (start : Binary32) :
    Binary32 :=
  p.groupScore (bound row) group start p.forest.treesWithGroups

theorem scoreBlock_ok {p : Predictor} (h : p.Sound) {features : Matrix} {bound : Nat → Array Slot}
    {buffer block : Span} {w : Workspace} (hb : p.Binds features bound block.positions)
    (hin : Inside buffer w.arena) (hfit : block.size * p.width ≤ buffer.size)
    (hh : w.scores.height = p.groupCount) (hcols : ∀ i ∈ block.positions, i < w.scores.width) :
    ∃ arena, p.scoreBlock features buffer block w =
        .ok (⟨arena, w.scores.updateColumns block.positions (p.finalScore bound)⟩, .ok ()) ∧
      arena.slots.size = w.arena.slots.size := by
  obtain ⟨used, hused, husize, hinside⟩ := slice_used hin hfit
  have hlen : block.positions.length = block.size := List.length_range'
  have hroom : (0 + block.positions.length) * p.width ≤ used.size := by
    rw [Nat.zero_add, hlen, husize]
  obtain ⟨arena, hbind, hsize, _, hread⟩ := bindRows_ok hb hinside hroom
  rw [Nat.zero_add] at hroom
  simp only [Nat.zero_add] at hread
  have hadd := addTreesToRows_eq (fun tg hmem => hh ▸ h.trees tg hmem) hroom hread hcols
    List.nodup_range'
  refine ⟨arena, ?_, hsize⟩
  simp only [scoreBlock, hused, hbind, hadd, ok_bind, pure_eq_ok]
  rfl

/-- Blocks that share no row are scored one after the other in the same buffer. -/
theorem scoreBlocks_ok {p : Predictor} (h : p.Sound) {features : Matrix} {bound : Nat → Array Slot}
    {buffer : Span} {blocks : List Span} {w : Workspace}
    (hb : p.Binds features bound (blocks.flatMap Span.positions)) (hin : Inside buffer w.arena)
    (hfit : ∀ block ∈ blocks, block.size * p.width ≤ buffer.size)
    (hh : w.scores.height = p.groupCount)
    (hcols : ∀ i ∈ blocks.flatMap Span.positions, i < w.scores.width)
    (hnodup : (blocks.flatMap Span.positions).Nodup) :
    ∃ arena, p.scoreBlocks features buffer w blocks =
        .ok (⟨arena, w.scores.updateColumns (blocks.flatMap Span.positions) (p.finalScore bound)⟩,
          .ok ()) ∧
      arena.slots.size = w.arena.slots.size := by
  induction blocks generalizing w with
  | nil =>
    refine ⟨w.arena, ?_, rfl⟩
    rw [List.flatMap_nil, Matrix.updateColumns_of_forall (by simp)]
    rfl
  | cons block blocks ih =>
    rw [List.flatMap_cons] at hb hcols hnodup
    obtain ⟨hfitBlock, hfitRest⟩ := List.forall_mem_cons.mp hfit
    obtain ⟨arena, hscore, hsize⟩ := scoreBlock_ok h
      (fun i hi => hb i (List.mem_append_left _ hi)) hin hfitBlock hh
      (fun i hi => hcols i (List.mem_append_left _ hi))
    have hrest := @ih
      ⟨arena, w.scores.updateColumns block.positions (p.finalScore bound)⟩
      (fun i hi => hb i (List.mem_append_right _ hi)) (hin.of_size hsize) hfitRest hh
      (fun i hi => hcols i (List.mem_append_right _ hi)) (List.nodup_append.mp hnodup).2.1
    obtain ⟨after, hafter, hasize⟩ := hrest
    refine ⟨after, ?_, hasize.trans hsize⟩
    rw [List.flatMap_cons, ← Matrix.updateColumns_append hnodup]
    simp only [scoreBlocks, hscore, ok_bind, hafter]

end TreeEnsemble.Predictor
