import TreeEnsemble.Predictor.Row
import TreeEnsemble.Proofs.Binding
import TreeEnsemble.Proofs.Forest.Quantization
import TreeEnsemble.Proofs.Tree.Walk

/-!
Predictions of single rows by a predictor that passed its checks: a row that can be bound gets, for
each group, the base score and the leaf values of the group's trees added in order; a row that
cannot be bound gets the error of binding.
-/

namespace TreeEnsemble.Predictor

/-- What the checks before a predictor is made establish. -/
structure Sound (p : Predictor) : Prop where
  blocks : 0 < p.settings.blockSize
  baseScore : p.forest.baseScore.size = p.groupCount
  trees : ∀ tg ∈ p.forest.treesWithGroups,
    tg.1.WellFormed ∧ tg.1.Readable p.scale ∧ tg.2.toNat < p.groupCount

theorem coderFor_ok {f : Forest} {scale : Scale} {c : Coder} (h : coderFor f scale = .ok c) :
    scale = .raw ∧ c = .raw ∨
      scale = .binned ∧ ∃ table, f.table = some table ∧ f.isQuantized = true ∧
        c = .binned table := by
  cases scale with
  | raw => exact Or.inl ⟨rfl, (Except.ok.inj h).symm⟩
  | binned =>
    unfold coderFor at h
    cases ht : f.table with
    | none =>
      rw [ht] at h
      exact absurd h fail_ne_ok
    | some table =>
      rw [ht] at h
      dsimp only at h
      split at h
      next hq => exact Or.inr ⟨rfl, table, rfl, hq, (Except.ok.inj h).symm⟩
      next => exact absurd h fail_ne_ok

theorem create_eq {scale : Scale} {f : Forest} {s : Settings} (hs : s.blockSize ≠ 0) :
    create scale f s =
      f.validate.mapErrors .forest >>= fun _ => coderFor f scale >>= fun c => .ok ⟨f, c, s⟩ := by
  simp [create, Settings.check, hs]

theorem create_ok_iff {scale : Scale} {f : Forest} {s : Settings} {p : Predictor} :
    create scale f s = .ok p ↔
      0 < s.blockSize ∧ f.WellFormed ∧ ∃ c, coderFor f scale = .ok c ∧ p = ⟨f, c, s⟩ := by
  by_cases hb : s.blockSize = 0
  · have hfail : create scale f s = fail (.settings .emptyBlocks) := by
      simp [create, Settings.check, hb]
    rw [hfail]
    exact ⟨fun h => absurd h fail_ne_ok, fun h => absurd h.1 (by omega)⟩
  · rw [create_eq hb]
    constructor
    · intro h
      obtain ⟨_, hv, h⟩ := bind_eq_ok_iff.mp h
      obtain ⟨c, hc, h⟩ := bind_eq_ok_iff.mp h
      exact ⟨by omega, Forest.validate_ok_iff.mp (Attempt.mapErrors_eq_ok_iff.mp hv), c, hc,
        (Except.ok.inj h).symm⟩
    · rintro ⟨_, hw, c, hc, rfl⟩
      have hv : f.validate.mapErrors PredictorError.forest = .ok () :=
        Attempt.mapErrors_eq_ok_iff.mpr (Forest.validate_ok_iff.mpr hw)
      rw [hv, ok_bind, hc, ok_bind]

theorem create_raw {f : Forest} {s : Settings} (hf : f.WellFormed) (hs : 0 < s.blockSize) :
    create .raw f s = .ok ⟨f, .raw, s⟩ :=
  create_ok_iff.mpr ⟨hs, hf, .raw, rfl, rfl⟩

theorem create_binned {f : Forest} {s : Settings} {table : ThresholdTable} (hf : f.WellFormed)
    (hs : 0 < s.blockSize) (htable : f.table = some table) (hq : f.isQuantized = true) :
    create .binned f s = .ok ⟨f, .binned table, s⟩ := by
  have hcoder : coderFor f .binned = .ok (.binned table) := by
    simp only [coderFor, htable, hq, ↓reduceIte, pure_eq_ok]
  exact create_ok_iff.mpr ⟨hs, hf, .binned table, hcoder, rfl⟩

theorem create_notQuantized {f : Forest} {s : Settings} (hf : f.WellFormed) (hs : 0 < s.blockSize)
    (hq : f.isQuantized = false) : create .binned f s = fail .notQuantized := by
  have hvalid : f.validate.mapErrors PredictorError.forest = .ok () :=
    Attempt.mapErrors_eq_ok_iff.mpr (Forest.validate_ok_iff.mpr hf)
  have hcoder : coderFor f .binned = fail .notQuantized := by
    cases htable : f.table <;> simp [coderFor, htable, hq]
  rw [create_eq (Nat.ne_of_gt hs), hvalid, ok_bind, hcoder, fail_bind]

theorem exists_create {f : Forest} {s : Settings} {scale : Scale} (hf : f.WellFormed)
    (hs : 0 < s.blockSize) (hscale : scale = .binned → f.isQuantized = true) :
    ∃ c, create scale f s = .ok ⟨f, c, s⟩ := by
  cases scale with
  | raw => exact ⟨.raw, create_raw hf hs⟩
  | binned =>
    have hq := hscale rfl
    obtain ⟨table, htable⟩ := Option.isSome_iff_exists.mp (Bool.and_eq_true_iff.mp hq).1
    exact ⟨.binned table, create_binned hf hs htable hq⟩

theorem sound_of_create {scale : Scale} {f : Forest} {s : Settings} {p : Predictor}
    (h : create scale f s = .ok p) : p.Sound := by
  obtain ⟨hb, hw, c, hc, rfl⟩ := create_ok_iff.mp h
  have hreadable : ∀ t ∈ f.trees, t.Readable c.scale := by
    rcases coderFor_ok hc with ⟨_, rfl⟩ | ⟨_, table, htable, hq, rfl⟩
    · exact fun _ _ => trivial
    · intro t hmem
      rw [Forest.isQuantized, Bool.and_eq_true, Array.all_eq_true'] at hq
      exact hq.2 t hmem
  refine ⟨hb, hw.baseScore, fun tg hmem => ?_⟩
  obtain ⟨hin, hgroup⟩ := List.of_mem_zip hmem
  have hin := Array.mem_toList_iff.mp hin
  exact ⟨hw.trees _ hin, hreadable _ hin,
    UInt32.lt_iff_toNat_lt.mp (hw.inRange _ (Array.mem_toList_iff.mp hgroup))⟩

theorem total_of_create {scale : Scale} {f : Forest} {s : Settings} {p : Predictor}
    (h : create scale f s = .ok p) (ht : ∀ table, f.table = some table → table.WellFormed) :
    p.coder.Total := by
  obtain ⟨_, _, c, hc, rfl⟩ := create_ok_iff.mp h
  rcases coderFor_ok hc with ⟨_, rfl⟩ | ⟨_, table, htable, _, rfl⟩
  · exact Coder.total_raw
  · exact Coder.total_binned (ht table htable)

/-- The value of the leaf that bound slots reach in a tree. -/
def leafValueFor (p : Predictor) (slots : Array Slot) (t : Tree) : Binary32 :=
  match p.leafScore t slots with
  | .ok x => x
  | .error _ => .zero

/-- The score of a group after trees: the leaf values of the group's trees are added in order. -/
def groupScore (p : Predictor) (slots : Array Slot) (group : Nat) (start : Binary32)
    (trees : List (Tree × UInt32)) : Binary32 :=
  trees.foldl (fun score tg =>
    if group = tg.2.toNat then score + p.leafValueFor slots tg.1 else score) start

/-- The scores of all groups for bound slots. -/
def scores (p : Predictor) (slots : Array Slot) : Array Binary32 :=
  p.forest.baseScore.mapIdx fun group base =>
    p.groupScore slots group base p.forest.treesWithGroups

/-- Trees that end at the same leaves give the same scores. -/
theorem scores_congr {p q : Predictor} (hforest : q.forest = p.forest) {slots slots' : Array Slot}
    (h : ∀ t ∈ p.forest.trees, t.leafFor p.scale slots = t.leafFor q.scale slots') :
    p.scores slots = q.scores slots' := by
  have hvalue : ∀ t ∈ p.forest.trees, p.leafValueFor slots t = q.leafValueFor slots' t := by
    intro t ht
    simp only [leafValueFor, leafScore, h t ht]
  have hgroup : ∀ group base, p.groupScore slots group base p.forest.treesWithGroups =
      q.groupScore slots' group base p.forest.treesWithGroups := by
    intro group base
    refine List.foldl_ext _ _ _ fun score tg hmem => ?_
    rw [hvalue tg.1 (Array.mem_toList_iff.mp (List.of_mem_zip hmem).1)]
  simp only [scores, hforest, hgroup]

theorem leafScore_eq {p : Predictor} {t : Tree} (hw : t.WellFormed) (hr : t.Readable p.scale)
    (slots : Array Slot) : p.leafScore t slots = .ok (p.leafValueFor slots t) := by
  obtain ⟨leaf, hleaf, hl⟩ := Tree.leafFor_ok hw hr slots
  obtain ⟨x, hx⟩ := Tree.leafValue_ok hw hl
  have hscore : p.leafScore t slots = .ok x := by simp only [leafScore, hleaf, ok_bind, hx]
  rw [hscore, leafValueFor, hscore]

theorem addTrees_eq {p : Predictor} (slots : Array Slot) {scores : Array Binary32}
    {trees : List (Tree × UInt32)}
    (h : ∀ tg ∈ trees, tg.1.WellFormed ∧ tg.1.Readable p.scale ∧ tg.2.toNat < scores.size) :
    p.addTrees slots scores trees =
      .ok (scores.mapIdx fun group x => p.groupScore slots group x trees) := by
  induction trees generalizing scores with
  | nil => exact congrArg Except.ok (Array.ext (by simp) fun i _ _ => by simp [groupScore])
  | cons tg trees ih =>
    obtain ⟨⟨hw, hr, hg⟩, htrees⟩ := List.forall_mem_cons.mp h
    have hadd : addScore scores tg.2.toNat (p.leafValueFor slots tg.1) =
        .ok (scores.setIfInBounds tg.2.toNat
          (scores[tg.2.toNat] + p.leafValueFor slots tg.1)) := by
      simp only [addScore, fetch_of_lt hg, ok_bind, store_of_lt hg]
    rw [addTrees, leafScore_eq hw hr, ok_bind, hadd, ok_bind,
      ih (by rw [Array.size_setIfInBounds]; exact htrees)]
    refine congrArg Except.ok (Array.ext_getElem? fun group => ?_)
    rw [Array.getElem?_mapIdx, Array.getElem?_mapIdx, Array.getElem?_setIfInBounds]
    by_cases hgroup : tg.2.toNat = group
    · subst hgroup
      rw [if_pos rfl, if_pos hg, Array.getElem?_eq_getElem hg]
      simp only [Option.map_some, groupScore, List.foldl_cons, ↓reduceIte]
    · rw [if_neg hgroup]
      have hne : ¬group = tg.2.toNat := fun he => hgroup he.symm
      simp only [groupScore, List.foldl_cons, if_neg hne]

theorem scoreSlots_eq {p : Predictor} (h : p.Sound) (slots : Array Slot) {output : Array Binary32}
    (ho : output.size = p.groupCount) : p.scoreSlots slots output = .ok (p.scores slots) := by
  rw [scoreSlots, if_pos ho]
  exact addTrees_eq slots fun tg hmem => h.baseScore ▸ h.trees tg hmem

theorem size_scores {p : Predictor} (h : p.Sound) (slots : Array Slot) :
    (p.scores slots).size = p.groupCount := by
  rw [scores, Array.size_mapIdx, h.baseScore]

theorem size_newOutput (p : Predictor) : p.newOutput.size = p.groupCount := Array.size_replicate

theorem size_newSlots (p : Predictor) : p.newSlots.size = p.width := Array.size_replicate

theorem bindRow_eq {p : Predictor} {row : Array Binary32} {slots : Array Slot}
    (hr : row.size = p.width) (hs : slots.size = p.width) :
    p.bindRow row slots =
      (((denseSlots p.coder p.policy row p.width).update slots) >>=
        fun r => .ok (r.1, r.2.mapError .bind)) := by
  have hnot : ¬row.size ≠ p.width := not_not.mpr hr
  rw [bindRow, if_neg hnot, bindDense, hs]
  rfl

theorem bindRow_ok {p : Predictor} {row : Array Binary32} {old slots : Array Slot}
    (hold : old.size = p.width) (hd : denseSlots p.coder p.policy row p.width = .ok slots) :
    p.bindRow row old = .ok (slots, .ok ()) := by
  obtain ⟨_, _, _, hr⟩ := encode_of_denseSlots hd
  rw [bindRow_eq hr hold, hd]
  rfl

theorem predictRow_of_bound {p : Predictor} (h : p.Sound) {row : Array Binary32}
    {slots : Array Slot} (hbind : p.bindRow row p.newSlots = .ok (slots, .ok ())) :
    p.predictRow row = .ok (.ok (p.scores slots)) := by
  have hscore := scoreSlots_eq h slots p.size_newOutput
  simp only [predictRow, predictRowInto, hbind, ok_bind, hscore, pure_eq_ok]

theorem predictRow_ok {p : Predictor} (h : p.Sound) {row : Array Binary32} {slots : Array Slot}
    (hd : denseSlots p.coder p.policy row p.width = .ok slots) :
    p.predictRow row = .ok (.ok (p.scores slots)) :=
  predictRow_of_bound h (bindRow_ok p.size_newSlots hd)

theorem predictRow_error {p : Predictor} {row : Array Binary32} {e : BindError}
    (hr : row.size = p.width) (hd : denseSlots p.coder p.policy row p.width = fail e) :
    p.predictRow row = .ok (.error (.bind e)) := by
  have hbind : p.bindRow row p.newSlots = .ok (p.newSlots, .error (.bind e)) := by
    rw [bindRow_eq hr p.size_newSlots, hd]
    rfl
  simp only [predictRow, predictRowInto, hbind, ok_bind, pure_eq_ok]

theorem predictRow_fault {p : Predictor} {row : Array Binary32} {fault : Fault}
    (hr : row.size = p.width)
    (hd : denseSlots p.coder p.policy row p.width = .error (.fault fault)) :
    p.predictRow row = .error fault := by
  have hbind : p.bindRow row p.newSlots = .error fault := by
    rw [bindRow_eq hr p.size_newSlots, hd]
    rfl
  simp only [predictRow, predictRowInto, hbind, error_bind]

theorem predictRow_width {p : Predictor} {row : Array Binary32} (hr : row.size ≠ p.width) :
    p.predictRow row = .ok (.error (.featureCount p.width row.size)) := by
  simp only [predictRow, predictRowInto, bindRow, if_pos hr, pure_eq_ok, ok_bind]

theorem bindSparseRow_eq {p : Predictor} (indices : List UInt32) (values : List Binary32)
    {slots : Array Slot} (hs : slots.size = p.width) :
    p.bindSparseRow indices values slots =
      (((sparseSlots p.coder p.policy indices values slots).update slots) >>=
        fun r => .ok (r.1, r.2.mapError .bind)) := by
  have hnot : ¬slots.size ≠ p.width := not_not.mpr hs
  rw [bindSparseRow, if_neg hnot, bindSparse]
  rfl

theorem bindSparseRow_ok {p : Predictor} {indices : List UInt32} {values : List Binary32}
    {old slots : Array Slot} (hold : old.size = p.width)
    (hd : sparseSlots p.coder p.policy indices values old = .ok slots) :
    p.bindSparseRow indices values old = .ok (slots, .ok ()) := by
  rw [bindSparseRow_eq indices values hold, hd]
  rfl

theorem predictSparseRow_of_bound {p : Predictor} (h : p.Sound) {indices : List UInt32}
    {values : List Binary32} {slots : Array Slot}
    (hbind : p.bindSparseRow indices values p.newSlots = .ok (slots, .ok ())) :
    p.predictSparseRow indices values = .ok (.ok (p.scores slots)) := by
  have hscore := scoreSlots_eq h slots p.size_newOutput
  simp only [predictSparseRow, hbind, ok_bind, hscore, pure_eq_ok]

theorem predictSparseRow_ok {p : Predictor} (h : p.Sound) {indices : List UInt32}
    {values : List Binary32} {slots : Array Slot}
    (hd : sparseSlots p.coder p.policy indices values p.newSlots = .ok slots) :
    p.predictSparseRow indices values = .ok (.ok (p.scores slots)) :=
  predictSparseRow_of_bound h (bindSparseRow_ok p.size_newSlots hd)

theorem predictSparseRow_error {p : Predictor} {indices : List UInt32} {values : List Binary32}
    {e : BindError} (hd : sparseSlots p.coder p.policy indices values p.newSlots = fail e) :
    p.predictSparseRow indices values = .ok (.error (.bind e)) := by
  have hbind : p.bindSparseRow indices values p.newSlots =
      .ok (p.newSlots, .error (.bind e)) := by
    rw [bindSparseRow_eq indices values p.size_newSlots, hd]
    rfl
  simp only [predictSparseRow, hbind, ok_bind, pure_eq_ok]

end TreeEnsemble.Predictor
