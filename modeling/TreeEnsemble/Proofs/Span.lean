import TreeEnsemble.Predictor.Shards

/-!
Cutting spans into chunks loses no position and repeats none, and the shards of a batch are no more
than its workers.
-/

namespace TreeEnsemble

namespace Span

theorem lt_ceilDiv_iff {a b k : Nat} (hb : 0 < b) : k < ceilDiv a b ↔ k * b < a := by
  have hdiv : k < ceilDiv a b ↔ (k + 1) * b ≤ a + b - 1 := Nat.le_div_iff_mul_le hb
  rw [hdiv, Nat.succ_mul]
  omega

theorem ceilDiv_le_iff {a b k : Nat} (hb : 0 < b) : ceilDiv a b ≤ k ↔ a ≤ k * b := by
  have := lt_ceilDiv_iff (a := a) (k := k) hb
  omega

theorem slice_ok {s : Span} {first last : Nat} (hle : first ≤ last) (hl : last ≤ s.size) :
    s.slice first last = .ok ⟨s.start + first, s.start + last⟩ := if_pos ⟨hle, hl⟩

theorem chunk_bounds {s c : Span} {n : Nat} (hn : 0 < n) (hc : c ∈ s.chunks n) :
    s.start ≤ c.start ∧ c.stop ≤ s.stop ∧ 0 < c.size ∧ c.size ≤ n := by
  obtain ⟨k, hk, rfl⟩ := List.mem_map.mp hc
  have hk := (lt_ceilDiv_iff hn).mp (List.mem_range.mp hk)
  simp only [size, Nat.succ_mul] at hk ⊢
  omega

theorem length_chunks (s : Span) (n : Nat) : (s.chunks n).length = ceilDiv s.size n := by
  simp [chunks]

theorem getElem?_chunks (s : Span) {n : Nat} (hn : 0 < n) (k : Nat) :
    (s.chunks n)[k]? =
      if k * n < s.size then some ⟨s.start + k * n, min (s.start + (k + 1) * n) s.stop⟩
      else none := by
  simp only [chunks, List.getElem?_map]
  by_cases hk : k * n < s.size
  · rw [if_pos hk, List.getElem?_range ((lt_ceilDiv_iff hn).mpr hk)]
    rfl
  · have hlen : ceilDiv s.size n ≤ k := (ceilDiv_le_iff hn).mpr (Nat.le_of_not_lt hk)
    rw [if_neg hk, List.getElem?_eq_none (by simpa using hlen)]
    rfl

theorem chunks_nil {s : Span} {n : Nat} (hn : 0 < n) (h : s.size = 0) : s.chunks n = [] := by
  have hcount : ceilDiv s.size n = 0 :=
    Nat.eq_zero_of_le_zero ((ceilDiv_le_iff hn).mpr (by omega))
  rw [chunks, hcount]
  rfl

theorem chunks_cons {s : Span} {n : Nat} (hn : 0 < n) (h : 0 < s.size) :
    s.chunks n =
      ⟨s.start, min (s.start + n) s.stop⟩ :: (⟨s.start + n, s.stop⟩ : Span).chunks n := by
  refine List.ext_getElem? fun i => ?_
  cases i with
  | zero => simp [getElem?_chunks s hn, h]
  | succ i =>
    have hlast : (i + 1) * n < s.size ↔ i * n < (⟨s.start + n, s.stop⟩ : Span).size := by
      simp only [size, Nat.succ_mul]
      omega
    rw [List.getElem?_cons_succ, getElem?_chunks s hn, getElem?_chunks _ hn]
    refine ite_congr (propext hlast) (fun _ => ?_) fun _ => rfl
    simp only [Nat.succ_mul, Option.some.injEq, Span.mk.injEq]
    omega

/-- Induction on what is left of a span when chunks are cut off its front. -/
theorem chunk_induction {n : Nat} (hn : 0 < n) {motive : Span → Prop}
    (nil : ∀ s : Span, s.size = 0 → motive s)
    (cons : ∀ s : Span, 0 < s.size → motive ⟨s.start + n, s.stop⟩ → motive s) (s : Span) :
    motive s := by
  induction hsize : s.size using Nat.strongRecOn generalizing s with
  | ind size ih =>
    rcases Nat.eq_zero_or_pos s.size with hzero | hpos
    · exact nil s hzero
    · have hrest : (⟨s.start + n, s.stop⟩ : Span).size < size := by
        simp only [Span.size] at hsize hpos ⊢
        omega
      exact cons s hpos (ih _ hrest _ rfl)

/-- The chunks of a span hold its positions in order. -/
theorem positions_chunks (s : Span) {n : Nat} (hn : 0 < n) :
    (s.chunks n).flatMap positions = s.positions := by
  induction s using chunk_induction hn with
  | nil s hzero =>
    rw [chunks_nil hn hzero, positions, hzero]
    rfl
  | cons s hpos ih =>
    rw [chunks_cons hn hpos, List.flatMap_cons, ih]
    simp only [positions, size] at hpos ⊢
    rcases Nat.le_total (s.start + n) s.stop with hle | hle
    · have hsum : s.stop - s.start = n + (s.stop - (s.start + n)) := by omega
      rw [Nat.min_eq_left hle, Nat.add_sub_cancel_left, hsum, ← List.range'_append_1]
    · -- the first chunk is the whole span
      rw [Nat.min_eq_right hle, Nat.sub_eq_zero_of_le hle]
      exact List.append_nil _

/-- A span may be cut in two after some whole chunks. -/
theorem chunks_append (s : Span) {n : Nat} (hn : 0 < n) (k : Nat) :
    s.chunks n = (⟨s.start, min (s.start + k * n) s.stop⟩ : Span).chunks n ++
      (⟨s.start + k * n, s.stop⟩ : Span).chunks n := by
  induction k generalizing s with
  | zero =>
    rw [chunks_nil (s := ⟨s.start, min (s.start + 0 * n) s.stop⟩) hn (by simp only [size]; omega)]
    simp
  | succ k ih =>
    rcases Nat.eq_zero_or_pos s.size with hzero | hpos
    · have hfirst : (⟨s.start, min (s.start + (k + 1) * n) s.stop⟩ : Span).size = 0 := by
        simp only [size] at hzero ⊢
        omega
      have hlast : (⟨s.start + (k + 1) * n, s.stop⟩ : Span).size = 0 := by
        simp only [size] at hzero ⊢
        omega
      rw [chunks_nil hn hzero, chunks_nil hn hfirst, chunks_nil hn hlast]
      rfl
    · have hfirst : 0 < (⟨s.start, min (s.start + (k + 1) * n) s.stop⟩ : Span).size := by
        simp only [size, Nat.succ_mul] at hpos ⊢
        omega
      have hmin : min (s.start + n) (min (s.start + n + k * n) s.stop) =
          min (s.start + n) s.stop := by
        omega
      have hsum : s.start + (k + 1) * n = s.start + n + k * n := by
        rw [Nat.succ_mul]
        omega
      rw [chunks_cons hn hpos, chunks_cons hn hfirst, hsum, hmin, List.cons_append, ih]

/-- Where chunks are whole numbers of smaller chunks, their chunks are those of the span. -/
theorem chunks_chunks (s : Span) {n m : Nat} (hn : 0 < n) (hm : 0 < m) :
    (s.chunks (m * n)).flatMap (·.chunks n) = s.chunks n := by
  have hmn : 0 < m * n := Nat.mul_pos hm hn
  induction s using chunk_induction hmn with
  | nil s hzero => rw [chunks_nil hmn hzero, chunks_nil hn hzero, List.flatMap_nil]
  | cons s hpos ih => rw [chunks_cons hmn hpos, List.flatMap_cons, ih, ← chunks_append s hn m]

end Span

namespace ShardPlan

variable {rows blockSize available : Nat}

theorem of_pos (hr : 0 < rows) (hb : 0 < blockSize) (ha : 0 < available) :
    0 < (of rows blockSize available).workers ∧
      0 < Span.ceilDiv (of rows blockSize available).blocks
        (of rows blockSize available).workers := by
  have hblocks : 0 < Span.ceilDiv rows blockSize := (Span.lt_ceilDiv_iff hb).mpr (by omega)
  have hworkers : 0 < min available (Span.ceilDiv rows blockSize) := by omega
  refine ⟨hworkers, (Span.lt_ceilDiv_iff hworkers).mpr ?_⟩
  rw [Nat.zero_mul]
  exact hblocks

/-- A batch of rows gets workers, shards of at least one row, and a worker for each shard. -/
theorem of_bounds (hr : 0 < rows) (hb : 0 < blockSize) (ha : 0 < available) :
    0 < (of rows blockSize available).shardRows ∧
      ((of rows blockSize available).shards rows).length ≤
        (of rows blockSize available).workers := by
  obtain ⟨hworkers, hper⟩ := of_pos hr hb ha
  have hshard : 0 < (of rows blockSize available).shardRows := Nat.mul_pos hper hb
  refine ⟨hshard, ?_⟩
  have hrows : rows ≤ Span.ceilDiv rows blockSize * blockSize :=
    (Span.ceilDiv_le_iff hb).mp (Nat.le_refl _)
  have hall := (Span.ceilDiv_le_iff hworkers).mp (Nat.le_refl
    (Span.ceilDiv (of rows blockSize available).blocks (of rows blockSize available).workers))
  rw [shards, Span.length_chunks, Span.ceilDiv_le_iff hshard]
  calc rows ≤ Span.ceilDiv rows blockSize * blockSize := hrows
    _ ≤ Span.ceilDiv (of rows blockSize available).blocks (of rows blockSize available).workers *
        (of rows blockSize available).workers * blockSize := Nat.mul_le_mul_right _ hall
    _ = (of rows blockSize available).workers * (of rows blockSize available).shardRows := by
      rw [Nat.mul_comm (Span.ceilDiv _ _), Nat.mul_assoc]
      rfl

end ShardPlan

end TreeEnsemble
