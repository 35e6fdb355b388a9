import TreeEnsemble.Proofs.Predictor.Block

/-!
Whole batches. The shards of a batch hold each row once, so in whatever order they run, with
however many workers and in blocks of whatever size, every row gets the scores that it gets alone.
-/

namespace TreeEnsemble.Predictor

def shardRows (shards : Array (Span × Span)) (k : Nat) : List Nat :=
  match shards[k]? with
  | some s => s.1.positions
  | none => []

theorem shardRows_eq {shards : Array (Span × Span)} {k : Nat} (hk : k < shards.size) :
    shardRows shards k = shards[k].1.positions := by
  simp [shardRows, hk]

/-- Shards and buffers that can be scored in an arena: the buffers have room for a block. -/
def Equipped (p : Predictor) (shards : Array (Span × Span)) (arena : Arena) : Prop :=
  ∀ s ∈ shards, Inside s.2 arena ∧ p.settings.blockSize * p.width ≤ s.2.size

theorem Equipped.of_size {p : Predictor} {shards : Array (Span × Span)} {arena after : Arena}
    (h : p.Equipped shards arena) (hsize : after.slots.size = arena.slots.size) :
    p.Equipped shards after := by
  intro s hs
  obtain ⟨hin, hroom⟩ := h s hs
  exact ⟨⟨hin.1, hsize ▸ hin.2⟩, hroom⟩

/-- The blocks of a shard are its rows, and each finds room in the buffer of its worker. -/
theorem Equipped.blocks {p : Predictor} {shards : Array (Span × Span)} {arena : Arena}
    (h : p.Equipped shards arena) (hpos : 0 < p.settings.blockSize) {k : Nat}
    (hk : k < shards.size) :
    (shards[k].1.chunks p.settings.blockSize).flatMap Span.positions = shardRows shards k ∧
      Inside shards[k].2 arena ∧
      ∀ block ∈ shards[k].1.chunks p.settings.blockSize,
        block.size * p.width ≤ shards[k].2.size := by
  obtain ⟨hin, hroom⟩ := h shards[k] (Array.getElem_mem hk)
  refine ⟨by rw [Span.positions_chunks _ hpos, shardRows_eq hk], hin, fun block hblock => ?_⟩
  have hle := (Span.chunk_bounds hpos hblock).2.2.2
  exact Nat.le_trans (Nat.mul_le_mul_right _ hle) hroom

/-- Shards that share no row may be scored in any order. -/
theorem scoreShards_ok {p : Predictor} (h : p.Sound) {features : Matrix} {bound : Nat → Array Slot}
    {shards : Array (Span × Span)} {w : Workspace} {ks : List Nat}
    (heq : p.Equipped shards w.arena) (hks : ∀ k ∈ ks, k < shards.size)
    (hb : p.Binds features bound (ks.flatMap (shardRows shards)))
    (hh : w.scores.height = p.groupCount)
    (hcols : ∀ i ∈ ks.flatMap (shardRows shards), i < w.scores.width)
    (hnodup : (ks.flatMap (shardRows shards)).Nodup) :
    ∃ arena, p.scoreShards features shards w ks =
      .ok (⟨arena, w.scores.updateColumns (ks.flatMap (shardRows shards)) (p.finalScore bound)⟩,
        ks.map fun k => (k, .ok ())) := by
  induction ks generalizing w with
  | nil =>
    refine ⟨w.arena, ?_⟩
    rw [List.flatMap_nil, Matrix.updateColumns_of_forall (by simp)]
    rfl
  | cons k ks ih =>
    obtain ⟨hk, hrest⟩ := List.forall_mem_cons.mp hks
    obtain ⟨hblocks, hin, hfit⟩ := heq.blocks h.blocks hk
    rw [List.flatMap_cons, ← hblocks] at hb hcols hnodup
    obtain ⟨arena, hscore, hsize⟩ := scoreBlocks_ok h
      (fun i hi => hb i (List.mem_append_left _ hi)) hin hfit hh
      (fun i hi => hcols i (List.mem_append_left _ hi)) (List.nodup_append.mp hnodup).1
    obtain ⟨after, hafter⟩ := @ih
      ⟨arena, w.scores.updateColumns
        ((shards[k].1.chunks p.settings.blockSize).flatMap Span.positions) (p.finalScore bound)⟩
      (heq.of_size hsize) hrest
      (fun i hi => hb i (List.mem_append_right _ hi)) hh
      (fun i hi => hcols i (List.mem_append_right _ hi)) (List.nodup_append.mp hnodup).2.1
    refine ⟨after, ?_⟩
    rw [List.flatMap_cons, ← hblocks, ← Matrix.updateColumns_append hnodup]
    simp only [scoreShards, fetch_of_lt hk, hscore, ok_bind, hafter, pure_eq_ok, List.map_cons]

theorem lookup_map_pair {α : Type} {ks : List Nat} {k : Nat} (r : α) (hk : k ∈ ks) :
    (ks.map fun k => (k, r)).lookup k = some r := by
  induction ks with
  | nil => nomatch hk
  | cons m ks ih =>
    rw [List.map_cons, List.lookup_cons]
    by_cases hm : k = m
    · simp [hm]
    · have hne : (k == m) = false := by simpa using hm
      rw [hne]
      exact ih ((List.mem_cons.mp hk).resolve_left hm)

theorem firstError_map {n : Nat} {ks : List Nat} (r : Except PredictorError Unit) (hn : 0 < n)
    (hks : ks.Perm (List.range n)) : firstError n (ks.map fun k => (k, r)) = r := by
  have hall : ∀ k ∈ List.range n, (ks.map fun k => (k, r)).lookup k = some r :=
    fun k hk => lookup_map_pair r (hks.mem_iff.mpr hk)
  have hresults : (List.range n).filterMap (fun k => (ks.map fun k => (k, r)).lookup k) =
      (List.range n).map fun _ => r := by
    rw [List.filterMap_congr hall]
    simp
  rw [firstError, hresults]
  cases r with
  | ok u =>
    refine forM_eq_ok_iff.mpr fun x hx => ?_
    obtain ⟨_, _, rfl⟩ := List.mem_map.mp hx
    rfl
  | error e =>
    cases n with
    | zero => omega
    | succ n => rw [List.range_succ_eq_map]; rfl

/-- The shards of a batch, each with the buffer of its worker. -/
def equippedShards (p : Predictor) (rows available : Nat) : Array (Span × Span) :=
  let plan := ShardPlan.of rows p.settings.blockSize available
  let room := p.settings.blockSize * p.width
  ((plan.shards rows).zip
    ((List.range plan.workers).map fun w => ⟨w * room, (w + 1) * room⟩)).toArray

/-- The slots of all workers. -/
def newArena (p : Predictor) (rows available : Nat) : Arena :=
  .new (ShardPlan.of rows p.settings.blockSize available).workers p.settings.blockSize p.width

theorem flatMap_shardRows (pairs : List (Span × Span)) :
    (List.range pairs.length).flatMap (shardRows pairs.toArray) =
      (pairs.map Prod.fst).flatMap Span.positions := by
  induction pairs with
  | nil => rfl
  | cons s pairs ih =>
    have hsucc : ∀ k, shardRows (s :: pairs).toArray (k + 1) = shardRows pairs.toArray k := by
      intro k
      simp [shardRows]
    rw [List.length_cons, List.range_succ_eq_map, List.flatMap_cons, List.flatMap_map,
      List.map_cons, List.flatMap_cons, ← ih]
    simp only [hsucc]
    rfl

theorem equipped_new {p : Predictor} (rows available : Nat) :
    p.Equipped (p.equippedShards rows available) (p.newArena rows available) := by
  intro s hs
  obtain ⟨_, hspan⟩ := List.of_mem_zip (List.mem_toArray.mp hs)
  obtain ⟨w, hw, he⟩ := List.mem_map.mp hspan
  have hw : w + 1 ≤ (ShardPlan.of rows p.settings.blockSize available).workers :=
    List.mem_range.mp hw
  have hall := Nat.mul_le_mul_right (p.settings.blockSize * p.width) hw
  have hsize : (p.newArena rows available).slots.size =
      (ShardPlan.of rows p.settings.blockSize available).workers *
        (p.settings.blockSize * p.width) := by
    rw [(p.newArena rows available).size_eq]
    exact Nat.mul_assoc _ _ _
  rw [← he]
  simp only [Inside, Span.size, hsize, Nat.succ_mul] at hall ⊢
  omega

/-- The shards hold the rows of the batch in order, each once, and none is empty. -/
theorem rows_equippedShards {p : Predictor} {rows available : Nat}
    (hb : 0 < p.settings.blockSize) (hr : 0 < rows) (ha : 0 < available) :
    (List.range (p.equippedShards rows available).size).flatMap
        (shardRows (p.equippedShards rows available)) = List.range rows ∧
      (∀ s ∈ p.equippedShards rows available, 0 < s.1.size) ∧
      0 < (p.equippedShards rows available).size := by
  obtain ⟨hshard, hworkers⟩ := ShardPlan.of_bounds hr hb ha
  have hrows : (List.range (p.equippedShards rows available).size).flatMap
      (shardRows (p.equippedShards rows available)) = List.range rows := by
    rw [equippedShards, List.size_toArray, flatMap_shardRows,
      List.map_fst_zip (by simpa using hworkers), ShardPlan.shards,
      Span.positions_chunks _ hshard, List.range_eq_range']
    rfl
  refine ⟨hrows, fun s hs => ?_, ?_⟩
  · obtain ⟨hs, _⟩ := List.of_mem_zip (List.mem_toArray.mp hs)
    exact (Span.chunk_bounds hshard hs).2.2.1
  · by_contra hzero
    rw [Nat.eq_zero_of_not_pos hzero, List.range_zero, List.flatMap_nil] at hrows
    have hlen := congrArg List.length hrows
    simp only [List.length_nil, List.length_range] at hlen
    omega

/-- However the shards are scheduled, they hold the rows of the batch, each once. -/
theorem rows_scheduled {p : Predictor} {rows available : Nat} (hb : 0 < p.settings.blockSize)
    (hr : 0 < rows) (ha : 0 < available) {ks : List Nat}
    (hks : ks.Perm (List.range (p.equippedShards rows available).size)) :
    (ks.flatMap (shardRows (p.equippedShards rows available))).Perm (List.range rows) := by
  have hperm := hks.flatMap_right (shardRows (p.equippedShards rows available))
  rwa [(rows_equippedShards hb hr ha).1] at hperm

theorem predictInto_eq {p : Predictor} {features : Matrix} {available : Nat}
    {schedule : Schedule} {output : Matrix} (hw : features.width = p.width)
    (hh : output.height = p.groupCount) (hn : output.width = features.height)
    (hr : 0 < features.height) :
    p.predictInto features available schedule output =
      p.scoreShards features (p.equippedShards features.height available)
          ⟨p.newArena features.height available, output.fillRows p.forest.baseScore⟩
          (schedule (p.equippedShards features.height available).size) >>= fun r =>
        .ok (r.1.scores, firstError (p.equippedShards features.height available).size r.2) := by
  have hshape : ¬(output.height ≠ p.groupCount ∨ output.width ≠ features.height) := by
    omega
  have hspans := Arena.workerSpans_eq (p.newArena features.height available)
  unfold newArena at hspans
  simp only [predictInto, if_neg (not_not.mpr hw), if_neg hshape, if_neg (Nat.ne_of_gt hr),
    hspans, ok_bind]
  rfl

/-- The scores of rows, bound as these slots, with a column for each row. -/
def scoreMatrix (p : Predictor) (bound : Nat → Array Slot) (rows : Nat) : Matrix :=
  .ofFn p.groupCount rows fun group row => (p.scores (bound row))[group]?.getD .zero

theorem get?_scoreMatrix {p : Predictor} (h : p.Sound) (bound : Nat → Array Slot) {rows row : Nat}
    (hrow : row < rows) (group : Nat) :
    (p.scoreMatrix bound rows).get? group row = (p.scores (bound row))[group]? := by
  have hsize : (p.scores (bound row)).size = p.groupCount := by
    rw [scores, Array.size_mapIdx, h.baseScore]
  by_cases hg : group < p.groupCount
  · rw [scoreMatrix, Matrix.get?_ofFn _ hg hrow]
    simp [hsize, hg]
  · rw [Matrix.get?_eq_none_of_height (Nat.not_lt.mp hg), Array.getElem?_eq_none (by omega)]

theorem updateColumns_fillRows {p : Predictor} (h : p.Sound) {bound : Nat → Array Slot}
    {output : Matrix} {rows : Nat} {columns : List Nat} (hh : output.height = p.groupCount)
    (hn : output.width = rows) (hall : ∀ j < rows, j ∈ columns) :
    (output.fillRows p.forest.baseScore).updateColumns columns (p.finalScore bound) =
      p.scoreMatrix bound rows := by
  refine Matrix.ext_get? hh hn fun i j => ?_
  by_cases hj : j < rows
  · by_cases hi : i < p.groupCount
    · obtain ⟨base, hbase⟩ : ∃ base, p.forest.baseScore[i]? = some base :=
        ⟨_, Array.getElem?_eq_getElem (h.baseScore ▸ hi)⟩
      rw [get?_scoreMatrix h bound hj, Matrix.updateColumns, Matrix.get?_update,
        Matrix.get?_fillRows output p.forest.baseScore hbase (by omega) (by omega), scores,
        Array.getElem?_mapIdx, hbase, Option.map_some, Option.map_some, if_pos (hall j hj)]
      rfl
    · rw [Matrix.get?_eq_none_of_height (hh ▸ Nat.not_lt.mp hi),
        Matrix.get?_eq_none_of_height (Nat.not_lt.mp hi)]
  · rw [Matrix.get?_eq_none_of_width (hn ▸ Nat.not_lt.mp hj),
      Matrix.get?_eq_none_of_width (Nat.not_lt.mp hj)]

theorem predictInto_ok {p : Predictor} (h : p.Sound) {features : Matrix}
    {bound : Nat → Array Slot} {available : Nat} {schedule : Schedule} {output : Matrix}
    (hw : features.width = p.width) (hh : output.height = p.groupCount)
    (hn : output.width = features.height) (ha : 0 < available)
    (hs : ∀ n, (schedule n).Perm (List.range n))
    (hb : p.Binds features bound (List.range features.height)) :
    p.predictInto features available schedule output =
      .ok (p.scoreMatrix bound features.height, .ok ()) := by
  rcases Nat.eq_zero_or_pos features.height with hr | hr
  · have hshape : ¬(output.height ≠ p.groupCount ∨ output.width ≠ features.height) := by
      omega
    -- without rows nothing runs, and there is one matrix of this shape only
    have hempty : output = p.scoreMatrix bound features.height := by
      refine Matrix.ext_get? hh hn fun i j => ?_
      have hj : (p.scoreMatrix bound features.height).width ≤ j := hr ▸ Nat.zero_le j
      rw [Matrix.get?_eq_none_of_width (by omega), Matrix.get?_eq_none_of_width hj]
    simp only [predictInto, if_neg (not_not.mpr hw), if_neg hshape, if_pos hr, pure_eq_ok, ← hempty]
  · have hperm := rows_scheduled (p := p) h.blocks hr ha (hs _)
    have hmem : ∀ i, _ ↔ i ∈ List.range features.height := fun i => hperm.mem_iff
    obtain ⟨_, _, hsome⟩ := rows_equippedShards (p := p) h.blocks hr ha
    obtain ⟨arena, hscore⟩ := @scoreShards_ok p h features bound
      (p.equippedShards features.height available)
      ⟨p.newArena features.height available, output.fillRows p.forest.baseScore⟩
      (schedule (p.equippedShards features.height available).size)
      (equipped_new _ _) (fun k hk => List.mem_range.mp ((hs _).mem_iff.mp hk))
      (fun i hi => hb i ((hmem i).mp hi)) hh
      (fun i hi => Nat.lt_of_lt_of_eq (List.mem_range.mp ((hmem i).mp hi)) hn.symm)
      (hperm.nodup_iff.mpr List.nodup_range)
    rw [predictInto_eq hw hh hn hr, hscore, ok_bind, firstError_map _ hsome (hs _)]
    refine congrArg (fun m => Except.ok (m, Except.ok ())) ?_
    exact updateColumns_fillRows h hh hn fun j hj => (hmem j).mpr (List.mem_range.mpr hj)

theorem workers_pos (parallelism : Parallelism) (pool : Nat) : 0 < parallelism.workers pool := by
  cases parallelism with
  | sequential => exact Nat.one_pos
  | parallel => exact Nat.lt_of_lt_of_le Nat.one_pos (Nat.le_max_right pool 1)

/-- A predictor on codes, with blocks of one row. -/
def stairPredictor : Predictor :=
  ⟨.codedStaircases, .binned Forest.staircaseTable, ⟨.preserve, 1, 0⟩⟩

theorem create_stairPredictor :
    create .binned .codedStaircases ⟨.preserve, 1, 0⟩ = .ok stairPredictor := by
  decide +kernel

end TreeEnsemble.Predictor
