import TreeEnsemble.Arena
import TreeEnsemble.Proofs.Span

/-!
Reads and writes of an arena. What is written to a span is read back from it, and nothing before the
span changes.
-/

namespace TreeEnsemble

theorem getElem?_overwrite {α : Type} (a : Array α) (i j : Nat) (xs : List α) :
    (overwrite a i xs)[j]? =
      if i ≤ j ∧ j < i + xs.length ∧ j < a.size then xs[j - i]? else a[j]? := by
  induction xs generalizing a i with
  | nil =>
    have hnot : ¬(i ≤ j ∧ j < i + ([] : List α).length ∧ j < a.size) := by
      simp only [List.length_nil]
      omega
    rw [overwrite, if_neg hnot]
  | cons x xs ih =>
    rw [overwrite, ih, Array.size_setIfInBounds, List.length_cons]
    by_cases hj : i = j
    · subst hj
      rw [if_neg (by omega), Array.getElem?_setIfInBounds, if_pos rfl]
      by_cases hs : i < a.size
      · rw [if_pos hs, if_pos (by omega), Nat.sub_self]
        rfl
      · rw [if_neg hs, if_neg (by omega), Array.getElem?_eq_none (by omega)]
    · by_cases hin : i + 1 ≤ j ∧ j < i + 1 + xs.length ∧ j < a.size
      · rw [if_pos hin, if_pos (by omega), show j - i = (j - (i + 1)) + 1 by omega]
        rfl
      · rw [if_neg hin, if_neg (by omega), Array.getElem?_setIfInBounds, if_neg hj]

namespace Arena

theorem size_write (a : Arena) (s : Span) (new : Array Slot) :
    (a.write s new).slots.size = a.slots.size := size_overwrite _ _ _

theorem read_write {a : Arena} {s : Span} {new : Array Slot} (hnew : new.size = s.size)
    (hs : s.stop ≤ a.slots.size) : (a.write s new).read s = new := by
  refine Array.ext_getElem? fun i => ?_
  simp only [read, Span.read, write, Array.getElem?_extract, getElem?_overwrite, size_overwrite,
    List.length_take, Array.length_toList]
  unfold Span.size at hnew ⊢
  by_cases hi : i < new.size
  · rw [if_pos (by omega), if_pos (by omega), Nat.add_sub_cancel_left,
      List.getElem?_take, if_pos (by omega), Array.getElem?_toList]
  · rw [if_neg (by omega), Array.getElem?_eq_none (by omega)]

theorem getElem?_write_before (a : Arena) (s : Span) (new : Array Slot) {i : Nat}
    (hi : i < s.start) : (a.write s new).slots[i]? = a.slots[i]? := by
  rw [write, getElem?_overwrite, if_neg (by omega)]

theorem read_congr {a b : Arena} {s : Span} (hsize : a.slots.size = b.slots.size)
    (h : ∀ i < s.stop, a.slots[i]? = b.slots[i]?) : a.read s = b.read s := by
  refine Array.ext_getElem? fun i => ?_
  simp only [read, Span.read, Array.getElem?_extract, hsize]
  split
  next hi => exact h _ (by omega)
  next => rfl

theorem size_read {a : Arena} {s : Span} (h : s.stop ≤ a.slots.size) :
    (a.read s).size = s.size := by
  simp only [read, Span.read, Array.size_extract, Span.size]
  omega

/-- Pieces cut off one after the other lie side by side. -/
theorem pieces_eq {n k : Nat} {s : Span} (h : k * n ≤ s.size) :
    pieces n k s =
      .ok ((List.range k).map fun w => ⟨s.start + w * n, s.start + (w + 1) * n⟩) := by
  induction k generalizing s with
  | zero => rfl
  | succ k ih =>
    rw [Nat.succ_mul] at h
    have hsplit : s.split n = .ok (⟨s.start, s.start + n⟩, ⟨s.start + n, s.stop⟩) :=
      if_pos (by omega)
    have hrest := ih (s := ⟨s.start + n, s.stop⟩) (by simp only [Span.size] at h ⊢; omega)
    simp only [pieces, hsplit, ok_bind, hrest, pure_eq_ok, List.range_succ_eq_map, List.map_cons,
      List.map_map]
    refine congrArg Except.ok (List.cons_eq_cons.mpr ⟨by simp, List.map_congr_left fun w _ => ?_⟩)
    simp only [Function.comp_apply, Nat.succ_mul, Span.mk.injEq]
    omega

theorem workerSpans_eq (a : Arena) :
    a.workerSpans =
      .ok ((List.range a.workers).map fun w => ⟨w * a.workerSize, (w + 1) * a.workerSize⟩) := by
  have hall : a.workers * a.workerSize ≤ a.whole.size := by
    simp only [workerSize, whole, Span.size, a.size_eq, Nat.mul_assoc]
    omega
  rw [workerSpans, pieces_eq hall]
  simp [whole]

end Arena

end TreeEnsemble
