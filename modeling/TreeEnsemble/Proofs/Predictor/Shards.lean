import Mathlib.Algebra.Order.Floor.Div
import TreeEnsemble.Proofs.Arena.Cells

/-!
The geometry of a batch. A shard is a whole number of blocks long, so the blocks of the shards are
the blocks of the batch, and there are no more shards than workers. Every row has one place, given by
a shard, a block of that shard, and an offset in the block.
-/

namespace TreeEnsemble

structure Place where
  shard : Nat
  block : Nat
  offset : Nat
  deriving DecidableEq

namespace ShardPlan

/-- The row that is scored at a place, if there is such a place. -/
def rowAt? (plan : ShardPlan) (rows blockSize : Nat) (place : Place) : Option Nat := do
  let shard ← (plan.shards rows)[place.shard]?
  let block ← (shard.chunks blockSize)[place.block]?
  block.positions[place.offset]?

/-- A plan shares out a batch of rows to workers with slots for a block of rows each. -/
structure SharesOut (plan : ShardPlan) (rows blockSize available features : Nat) : Prop where
  blocks_eq : plan.blocks = rows ⌈/⌉ blockSize
  workers_eq : plan.workers = min available plan.blocks
  shardRows_eq : plan.shardRows = plan.blocks ⌈/⌉ plan.workers * blockSize
  workers_pos : 0 < plan.workers
  shardRows_pos : 0 < plan.shardRows
  shards_le : (plan.shards rows).length ≤ plan.workers
  /-- The blocks of the shards are those of the batch. -/
  blocks_of_shards :
    (plan.shards rows).flatMap (·.chunks blockSize) = Span.chunks ⟨0, rows⟩ blockSize
  count_blocks : (Span.chunks ⟨0, rows⟩ blockSize).length = plan.blocks
  size_block : ∀ block ∈ Span.chunks ⟨0, rows⟩ blockSize, 0 < block.size ∧ block.size ≤ blockSize
  /-- Every shard gets the buffer of a worker, and there its blocks find room. -/
  buffers : ∃ buffers, (Arena.new plan.workers blockSize features).workerSpans = .ok buffers ∧
    ((plan.shards rows).zip buffers).map Prod.fst = plan.shards rows ∧
    ∀ pair ∈ (plan.shards rows).zip buffers, ∀ block ∈ pair.1.chunks blockSize,
      block.size * features ≤ pair.2.size
  row_placed : ∀ row < rows, ∃! place, plan.rowAt? rows blockSize place = some row
  place_row : ∀ place row, plan.rowAt? rows blockSize place = some row →
    row < rows ∧
      place.shard * plan.shardRows + place.block * blockSize + place.offset = row

theorem getElem?_positions {s : Span} {i x : Nat} :
    s.positions[i]? = some x ↔ i < s.size ∧ s.start + i = x := by
  by_cases hi : i < s.size
  · simp [Span.positions, hi]
  · simp [Span.positions, hi]

section

variable {plan : ShardPlan} {rows blockSize : Nat}

/-- Blocks do not reach into the next shard, and shards end with the batch. -/
theorem rowAt?_eq_some_iff (hs : 0 < plan.shardRows) (hb : 0 < blockSize) {place : Place}
    {row : Nat} :
    plan.rowAt? rows blockSize place = some row ↔
      place.offset < blockSize ∧ place.block * blockSize + place.offset < plan.shardRows ∧
        row < rows ∧
        place.shard * plan.shardRows + place.block * blockSize + place.offset = row := by
  simp only [rowAt?, shards, Option.bind_eq_bind, Option.bind_eq_some_iff,
    Span.getElem?_chunks _ hs, Span.getElem?_chunks _ hb, getElem?_positions,
    Option.ite_none_right_eq_some, Option.some.injEq, ↓existsAndEq, and_true]
  simp only [Span.size, Nat.succ_mul]
  omega

theorem exists_place (hs : 0 < plan.shardRows) (hb : 0 < blockSize) {row : Nat}
    (hrow : row < rows) : ∃ place, plan.rowAt? rows blockSize place = some row := by
  have hshard := Nat.div_add_mod' row plan.shardRows
  have hblock := Nat.div_add_mod' (row % plan.shardRows) blockSize
  have hwithin := Nat.mod_lt row hs
  have hoffset := Nat.mod_lt (row % plan.shardRows) hb
  refine ⟨⟨row / plan.shardRows, row % plan.shardRows / blockSize,
    row % plan.shardRows % blockSize⟩, (rowAt?_eq_some_iff hs hb).mpr ⟨hoffset, ?_, hrow, ?_⟩⟩
  · rw [hblock]
    exact hwithin
  · rw [Nat.add_assoc, hblock, hshard]

theorem place_unique (hs : 0 < plan.shardRows) (hb : 0 < blockSize) {row : Nat} {p q : Place}
    (hp : plan.rowAt? rows blockSize p = some row) (hq : plan.rowAt? rows blockSize q = some row) :
    p = q := by
  obtain ⟨hpo, hpb, _, hp⟩ := (rowAt?_eq_some_iff hs hb).mp hp
  obtain ⟨hqo, hqb, _, hq⟩ := (rowAt?_eq_some_iff hs hb).mp hq
  rw [Nat.add_assoc] at hp hq
  obtain ⟨hshard, hrest⟩ := Arena.Cell.mul_add_inj hpb hqb (hp.trans hq.symm)
  obtain ⟨hblock, hoffset⟩ := Arena.Cell.mul_add_inj hpo hqo hrest
  cases p
  cases q
  rw [Place.mk.injEq]
  exact ⟨hshard, hblock, hoffset⟩

end

theorem zip_buffers {plan : ShardPlan} {rows blockSize : Nat}
    (h : (plan.shards rows).length ≤ plan.workers) (hb : 0 < blockSize) (features : Nat) :
    ∃ buffers, (Arena.new plan.workers blockSize features).workerSpans = .ok buffers ∧
      ((plan.shards rows).zip buffers).map Prod.fst = plan.shards rows ∧
      ∀ pair ∈ (plan.shards rows).zip buffers, ∀ block ∈ pair.1.chunks blockSize,
        block.size * features ≤ pair.2.size := by
  refine ⟨_, Arena.workerSpans_eq _, List.map_fst_zip (by simpa [Arena.new] using h), ?_⟩
  intro pair hpair block hblock
  obtain ⟨w, _, hw⟩ := List.mem_map.mp (List.of_mem_zip hpair).2
  rw [← hw, Arena.size_block]
  exact Nat.mul_le_mul_right features (Span.chunk_bounds hb hblock).2.2.2

/-- A plan for a batch loses no row and mixes none up, whatever the sizes of the batch, of a block
and of the pool of workers. -/
theorem shares_out_rows {rows blockSize available : Nat} (hr : 0 < rows) (hb : 0 < blockSize)
    (ha : 0 < available) (features : Nat) :
    (ShardPlan.of rows blockSize available).SharesOut rows blockSize available features := by
  obtain ⟨hworkers, hper⟩ := of_pos hr hb ha
  obtain ⟨hshard, hle⟩ := of_bounds hr hb ha
  exact {
    blocks_eq := rfl
    workers_eq := rfl
    shardRows_eq := rfl
    workers_pos := hworkers
    shardRows_pos := hshard
    shards_le := hle
    blocks_of_shards := Span.chunks_chunks ⟨0, rows⟩ hb hper
    count_blocks := Span.length_chunks ⟨0, rows⟩ blockSize
    size_block := fun block hblock => (Span.chunk_bounds hb hblock).2.2
    buffers := zip_buffers hle hb features
    row_placed := fun row hrow => by
      obtain ⟨place, hplace⟩ := exists_place hshard hb hrow
      exact ⟨place, hplace, fun other hother => place_unique hshard hb hother hplace⟩
    place_row := fun place row hplace =>
      ((rowAt?_eq_some_iff hshard hb).mp hplace).2.2 }

/-- Seven rows in blocks of two are four blocks, so two of three workers take two blocks each and
the third has none. The last row is alone in its block. -/
theorem shares_out_seven_rows :
    (0 < 7 ∧ 0 < 2 ∧ 0 < 3) ∧ (ShardPlan.of 7 2 3).SharesOut 7 2 3 5 ∧
      (ShardPlan.of 7 2 3).shards 7 = [⟨0, 4⟩, ⟨4, 7⟩] ∧
      ∀ place, (ShardPlan.of 7 2 3).rowAt? 7 2 place = some 6 ↔ place = ⟨1, 1, 0⟩ := by
  have hplan : (ShardPlan.of 7 2 3).SharesOut 7 2 3 5 :=
    shares_out_rows (by decide) (by decide) (by decide) 5
  have hlast : (ShardPlan.of 7 2 3).rowAt? 7 2 ⟨1, 1, 0⟩ = some 6 := by decide
  refine ⟨by decide, hplan, by decide, fun place => ⟨fun hplace => ?_, fun h => h ▸ hlast⟩⟩
  exact (hplan.row_placed 6 (by decide)).unique hplace hlast

end ShardPlan

end TreeEnsemble
