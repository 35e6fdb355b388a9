import TreeEnsemble.Matrix

/-!
Changes of a matrix as functions of place and number. Additions at single places, one after the
other, come to one change of all numbers.
-/

namespace TreeEnsemble.Matrix

/-- The matrix with a function of place and number applied everywhere. -/
def update (m : Matrix) (f : Nat → Nat → Binary32 → Binary32) : Matrix :=
  { m with rows := m.rows.mapIdx fun i row => row.mapIdx fun j x => f i j x }

/-- Equal sizes and equal numbers at all places make equal matrices. -/
theorem ext_get? {a b : Matrix} (hh : a.height = b.height) (hw : a.width = b.width)
    (h : ∀ i j, a.get? i j = b.get? i j) : a = b := by
  obtain ⟨height, width, rows⟩ := a
  obtain ⟨_, _, rows'⟩ := b
  cases hh
  cases hw
  have hrows : rows = rows' := by
    refine Vector.ext fun i hi => Vector.ext fun j hj => ?_
    have hij := h i j
    simpa [get?, hi, hj] using hij
  rw [hrows]

theorem get?_update (m : Matrix) (f : Nat → Nat → Binary32 → Binary32) (i j : Nat) :
    (m.update f).get? i j = (m.get? i j).map (f i j) := by
  obtain ⟨height, width, rows⟩ := m
  change ((rows.mapIdx fun i row => row.mapIdx fun j x => f i j x)[i]?.bind fun row => row[j]?) =
    (rows[i]?.bind fun row => row[j]?).map (f i j)
  cases h : rows[i]? with
  | none => simp [h]
  | some row => simp [h]

theorem get?_eq_none_of_height {m : Matrix} {i j : Nat} (hi : m.height ≤ i) :
    m.get? i j = none := by
  simp [get?, Nat.not_lt.mpr hi]

theorem get?_eq_none_of_width {m : Matrix} {i j : Nat} (hj : m.width ≤ j) :
    m.get? i j = none := by
  by_cases hi : i < m.height
  · simp [get?, hi, Nat.not_lt.mpr hj]
  · exact get?_eq_none_of_height (Nat.not_lt.mp hi)

theorem update_update (m : Matrix) (f g : Nat → Nat → Binary32 → Binary32) :
    (m.update f).update g = m.update fun i j x => g i j (f i j x) := by
  refine ext_get? rfl rfl fun i j => ?_
  simp only [get?_update, Option.map_map]
  rfl

/-- Changes the columns with the listed numbers. -/
def updateColumns (m : Matrix) (columns : List Nat) (f : Nat → Nat → Binary32 → Binary32) :
    Matrix :=
  m.update fun i j x => if j ∈ columns then f i j x else x

theorem updateColumns_of_forall {m : Matrix} {columns : List Nat}
    {f : Nat → Nat → Binary32 → Binary32} (h : ∀ i, ∀ j ∈ columns, ∀ x, f i j x = x) :
    m.updateColumns columns f = m := by
  have hid : (fun i j x => if j ∈ columns then f i j x else x) = fun _ _ x => x := by
    funext i j x
    split
    next hj => exact h i j hj x
    next => rfl
  rw [updateColumns, hid]
  refine ext_get? rfl rfl fun i j => ?_
  rw [get?_update]
  exact Option.map_id'

theorem updateColumns_updateColumns (m : Matrix) (columns : List Nat)
    (f g : Nat → Nat → Binary32 → Binary32) :
    (m.updateColumns columns f).updateColumns columns g =
      m.updateColumns columns fun i j x => g i j (f i j x) := by
  rw [updateColumns, updateColumns, update_update, updateColumns]
  congr 1
  funext i j x
  split <;> rfl

/-- Columns changed one after the other, none of them twice. -/
theorem updateColumns_append {m : Matrix} {first second : List Nat}
    {f : Nat → Nat → Binary32 → Binary32} (h : (first ++ second).Nodup) :
    (m.updateColumns first f).updateColumns second f = m.updateColumns (first ++ second) f := by
  rw [updateColumns, updateColumns, update_update, updateColumns]
  congr 1
  funext i j x
  simp only [List.mem_append]
  by_cases hf : j ∈ first
  · have hs : j ∉ second := fun hs => (List.nodup_append.mp h).2.2 j hf j hs rfl
    simp [hf, hs]
  · simp [hf]

theorem addAt_eq {m : Matrix} {i j : Nat} (hi : i < m.height) (hj : j < m.width) (x : Binary32) :
    m.addAt i j x = .ok (m.update fun i' j' y => if i' = i ∧ j' = j then y + x else y) := by
  rw [addAt, dif_pos ⟨hi, hj⟩]
  refine congrArg Except.ok (ext_get? rfl rfl fun i' j' => ?_)
  rw [get?_update]
  by_cases hi' : i' = i
  · subst hi'
    by_cases hj' : j' = j
    · subst hj'
      simp [get?, hi, hj]
    · have hne : ¬j = j' := fun h => hj' h.symm
      simp [get?, hi, hj', hne]
  · have hne : ¬i = i' := fun h => hi' h.symm
    simp [get?, hi', hne]

theorem get?_fillRows (m : Matrix) (xs : Array Binary32) {i j : Nat} {x : Binary32}
    (hx : xs[i]? = some x) (hi : i < m.height) (hj : j < m.width) :
    (m.fillRows xs).get? i j = some x := by
  obtain ⟨height, width, rows⟩ := m
  have hi : i < height := hi
  have hj : j < width := hj
  have hfill : ∀ fill : Nat → Vector Binary32 width → Vector Binary32 width,
      (∀ row, fill i row = Vector.replicate width x) →
      ((rows.mapIdx fill)[i]?.bind fun row => row[j]?) = some x := by
    intro fill hrow
    simp [hi, hj, hrow]
  exact hfill _ fun row => by simp only [hx]

theorem get?_ofFn {height width : Nat} (f : Nat → Nat → Binary32) {i j : Nat} (hi : i < height)
    (hj : j < width) : (ofFn height width f).get? i j = some (f i j) := by
  change ((Vector.ofFn fun i : Fin height => Vector.ofFn fun j : Fin width => f i j)[i]?.bind
    fun row => row[j]?) = some (f i j)
  simp [hi, hj]

theorem row_ok {m : Matrix} {i : Nat} (hi : i < m.height) :
    ∃ row, m.row i = .ok row ∧ row.size = m.width :=
  ⟨m.rows[i].toArray, dif_pos hi, m.rows[i].size_toArray⟩

end TreeEnsemble.Matrix
