import TreeEnsemble.Span

/-!
How a batch of rows is shared out. The rows are cut into shards, one per worker, and each shard into
blocks. A shard is a whole number of blocks long, so its blocks are blocks of the batch.
-/

namespace TreeEnsemble

structure ShardPlan where
  /-- The number of blocks of the whole batch. -/
  blocks : Nat
  workers : Nat
  /-- The number of rows of each shard but the last. -/
  shardRows : Nat
  deriving DecidableEq

/-- Shares `rows` rows out in blocks of `blockSize`, to as many workers as are there and have a
block to do. -/
def ShardPlan.of (rows blockSize available : Nat) : ShardPlan :=
  let blocks := Span.ceilDiv rows blockSize
  let workers := min available blocks
  ⟨blocks, workers, Span.ceilDiv blocks workers * blockSize⟩

def ShardPlan.shards (plan : ShardPlan) (rows : Nat) : List Span :=
  Span.chunks ⟨0, rows⟩ plan.shardRows

end TreeEnsemble
