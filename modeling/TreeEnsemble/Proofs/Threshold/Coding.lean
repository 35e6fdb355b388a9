import TreeEnsemble.Proofs.Threshold.Lists

/-!
Codes keep the order. The binary search counts the thresholds below a value; with the count of
those at most as large it gives the code, and a value compares with a listed threshold as their
codes do.
-/

namespace TreeEnsemble

/-- The search finds the position up to which the elements satisfy the property. -/
theorem partitionPoint_eq {α : Type} {a : Array α} {p : α → Bool} {lo hi k : Nat} (hlo : lo ≤ k)
    (hhi : k ≤ hi) (below : ∀ i, lo ≤ i → i < k → a[i]?.any p = true)
    (above : ∀ i, k ≤ i → i < hi → a[i]?.any p = false) : partitionPoint a p lo hi = k := by
  fun_induction partitionPoint a p lo hi with
  | case1 lo hi hlt middle hp ih =>
    have hk : middle < k := by
      by_contra hge
      rw [above middle (by omega) (by omega)] at hp
      nomatch hp
    exact ih (by omega) hhi (fun i hi => below i (by omega)) above
  | case2 lo hi hlt middle hp ih =>
    have hk : k ≤ middle := by
      by_contra hgt
      exact hp (below middle (by omega) (by omega))
    exact ih hlo hk below fun i hki hi => above i hki (by omega)
  | case3 lo hi hge => omega

/-- In an increasing list the numbers below a value come first. -/
theorem lt_iff_lt_countP {xs : List Binary32} (h : Increasing xs) {x y : Binary32} {i : Nat}
    (hi : xs[i]? = some y) : y.lt x = true ↔ i < xs.countP (·.lt x) := by
  obtain ⟨hnan, hord⟩ := h
  induction xs generalizing i with
  | nil => simp at hi
  | cons z zs ih =>
    obtain ⟨hz, hzs⟩ := List.pairwise_cons.mp hord
    cases hzx : z.lt x with
    | true =>
      have hcount : (z :: zs).countP (·.lt x) = zs.countP (·.lt x) + 1 :=
        List.countP_cons_of_pos hzx
      rw [hcount]
      cases i with
      | zero =>
        cases hi
        simp [hzx]
      | succ i =>
        rw [ih hi (fun w hw => hnan w (List.mem_cons_of_mem z hw)) hzs]
        omega
    | false =>
      have hnone : ∀ w ∈ z :: zs, ¬w.lt x = true := by
        intro w hw hwx
        rcases List.mem_cons.mp hw with rfl | hw
        · exact nomatch hzx.symm.trans hwx
        · exact nomatch hzx.symm.trans (Binary32.lt_trans (hz w hw) hwx)
      rw [List.countP_eq_zero.mpr hnone]
      exact ⟨fun hy => absurd hy (hnone y (List.mem_of_getElem? hi)),
        fun h0 => absurd h0 (by omega)⟩

/-- The code of a value: each threshold below it counts twice, an equal one once more. -/
def code (xs : List Binary32) (x : Binary32) : Int :=
  (xs.countP (·.lt x) : Int) + xs.countP (·.le x) - 1

theorem countP_le (xs : List Binary32) (x : Binary32) :
    xs.countP (·.le x) = xs.countP (·.lt x) + xs.countP (·.eqv x) := by
  induction xs with
  | nil => rfl
  | cons y ys ih =>
    have hone : y.lt x = true → y.eqv x = false := by
      intro hlt
      by_contra heq
      have := Binary32.lt_iff.mp hlt
      have := Binary32.eqv_iff.mp (by simpa using heq)
      omega
    have hle : y.le x = (y.lt x || y.eqv x) := rfl
    rw [List.countP_cons, List.countP_cons, List.countP_cons, ih, hle]
    cases hlt : y.lt x with
    | true =>
      rw [hone hlt]
      simp
      omega
    | false =>
      simp
      omega

theorem countP_eqv {xs : List Binary32} (h : Increasing xs) (x : Binary32) :
    xs.countP (·.eqv x) = if xs.any (·.eqv x) then 1 else 0 := by
  obtain ⟨hnan, hord⟩ := h
  induction xs with
  | nil => rfl
  | cons y ys ih =>
    obtain ⟨hy, hys⟩ := List.pairwise_cons.mp hord
    cases hyx : y.eqv x with
    | true =>
      have hnone : ∀ z ∈ ys, ¬z.eqv x = true := by
        intro z hz hzx
        have hlt := Binary32.lt_iff.mp (hy z hz)
        have := Binary32.eqv_iff.mp hyx
        have := Binary32.eqv_iff.mp hzx
        omega
      rw [List.countP_cons, List.countP_eq_zero.mpr hnone]
      simp [hyx]
    | false =>
      rw [List.countP_cons, ih (fun z hz => hnan z (List.mem_cons_of_mem y hz)) hys,
        List.any_cons, hyx]
      simp

theorem code_eq {xs : List Binary32} (h : Increasing xs) (x : Binary32) :
    code xs x = if xs.any (·.eqv x) then 2 * (xs.countP (·.lt x) : Int)
      else 2 * (xs.countP (·.lt x) : Int) - 1 := by
  rw [code, countP_le, countP_eqv h]
  split <;> omega

theorem code_bounds (xs : List Binary32) (x : Binary32) :
    -1 ≤ code xs x ∧ code xs x ≤ 2 * xs.length - 1 := by
  have hlt := List.countP_le_length (p := fun y => y.lt x) (l := xs)
  have hle := List.countP_le_length (p := fun y => y.le x) (l := xs)
  unfold code
  omega

/-- More thresholds lie below the larger of two numbers, and more are at most as large. -/
theorem countP_mono (xs : List Binary32) {a b : Binary32} (hb : b.isNaN = false)
    (hab : a.rank ≤ b.rank) :
    xs.countP (·.lt a) ≤ xs.countP (·.lt b) ∧ xs.countP (·.le a) ≤ xs.countP (·.le b) := by
  refine ⟨List.countP_mono_left fun z _ hz => ?_, List.countP_mono_left fun z _ hz => ?_⟩
  · obtain ⟨hz, _, hr⟩ := Binary32.lt_iff.mp hz
    exact Binary32.lt_iff.mpr ⟨hz, hb, by omega⟩
  · obtain ⟨hz, _, hr⟩ := Binary32.le_iff.mp hz
    exact Binary32.le_iff.mpr ⟨hz, hb, by omega⟩

theorem countP_lt_of_listed {xs : List Binary32} {x : Binary32} (hx : xs.any (·.eqv x) = true) :
    xs.countP (·.lt x) < xs.countP (·.le x) := by
  have hpos : 0 < xs.countP (·.eqv x) := List.countP_pos_iff.mpr (List.any_eq_true.mp hx)
  rw [countP_le]
  omega

theorem code_nan (xs : List Binary32) {v : Binary32} (hv : v.isNaN = true) : code xs v = -1 := by
  have hlt : xs.countP (·.lt v) = 0 := by
    apply List.countP_eq_zero.mpr
    intro y _ hy
    exact absurd (hv.symm.trans (Binary32.lt_iff.mp hy).2.1) nofun
  have hle : xs.countP (·.le v) = 0 := by
    apply List.countP_eq_zero.mpr
    intro y _ hy
    exact absurd (hv.symm.trans (Binary32.le_iff.mp hy).2.1) nofun
  unfold code
  omega

theorem compare_code {xs : List Binary32} {v x : Binary32} (hv : v.isNaN = false)
    (hx : xs.any (·.eqv x) = true) : compare (code xs v) (code xs x) = compare v.rank x.rank := by
  have hlisted := countP_lt_of_listed hx
  obtain ⟨y, hy, hyx⟩ := List.any_eq_true.mp hx
  have hxnan := (Binary32.eqv_iff.mp hyx).2.1
  -- all that is at most the smaller of two numbers is below the larger one
  have hcross : ∀ {a b : Binary32}, b.isNaN = false → a.rank < b.rank →
      xs.countP (·.le a) ≤ xs.countP (·.lt b) := by
    intro a b hb hab
    refine List.countP_mono_left fun z _ hz => ?_
    obtain ⟨hz, _, hr⟩ := Binary32.le_iff.mp hz
    exact Binary32.lt_iff.mpr ⟨hz, hb, by omega⟩
  unfold code
  rcases Int.lt_trichotomy v.rank x.rank with hr | hr | hr
  · have h1 := countP_mono xs hxnan (Int.le_of_lt hr)
    have h2 := hcross hxnan hr
    rw [Int.compare_eq_lt.mpr hr, Int.compare_eq_lt]
    omega
  · have h1 := countP_mono xs hxnan (Int.le_of_eq hr)
    have h2 := countP_mono xs hv (Int.le_of_eq hr.symm)
    rw [Int.compare_eq_eq.mpr hr, Int.compare_eq_eq]
    omega
  · have h1 := countP_mono xs hv (Int.le_of_lt hr)
    have h2 := hcross hv hr
    rw [Int.compare_eq_gt.mpr hr, Int.compare_eq_gt]
    omega

theorem any_eqv {xs : List Binary32} (h : Increasing xs) (x : Binary32) :
    xs.any (·.eqv x) = xs[xs.countP (·.lt x)]?.any (·.eqv x) := by
  rw [Bool.eq_iff_iff]
  constructor
  · intro hany
    obtain ⟨y, hy, hyx⟩ := List.any_eq_true.mp hany
    obtain ⟨i, hi⟩ := List.mem_iff_getElem?.mp hy
    have hyx' := Binary32.eqv_iff.mp hyx
    have hfirst : ¬i < xs.countP (·.lt x) := by
      rw [← lt_iff_lt_countP h hi, Binary32.lt_iff]
      omega
    have hlast : ¬xs.countP (·.lt x) < i := by
      intro hlt
      obtain ⟨hlen, he⟩ := List.getElem?_eq_some_iff.mp hi
      have hbefore := List.pairwise_iff_getElem.mp h.2 _ i (by omega) hlen hlt
      rw [he] at hbefore
      have hbefore' := Binary32.lt_iff.mp hbefore
      have hbelow : xs[xs.countP (·.lt x)].lt x = true :=
        Binary32.lt_iff.mpr ⟨hbefore'.1, hyx'.2.1, by omega⟩
      rw [lt_iff_lt_countP h (List.getElem?_eq_getElem _)] at hbelow
      omega
    have hplace : xs.countP (·.lt x) = i := by omega
    rw [hplace, hi]
    exact hyx
  · intro hnext
    obtain ⟨y, hy, hyx⟩ := (Option.any_eq_true _ _).mp hnext
    exact List.any_eq_true.mpr ⟨y, List.mem_of_getElem? hy, hyx⟩

/-- Codes of fewer than 2^30 thresholds fit 32 bits. -/
theorem toInt_code {xs : List Binary32} (h : xs.length < 2 ^ 30) (x : Binary32) :
    (Int32.ofInt (code xs x)).toInt = code xs x := by
  have := code_bounds xs x
  exact Int32.toInt_ofInt_of_le (by omega) (by omega)

namespace ThresholdTable

theorem locate_eq {t : ThresholdTable} (h : t.WellFormed) {feature : Nat} {xs : List Binary32}
    (hxs : t.thresholdsOf feature = .ok xs) (x : Binary32) :
    t.locate feature x = .ok (xs.countP (·.lt x), xs.any (·.eqv x)) := by
  obtain ⟨r, hr, hle, hstop⟩ := h.region_ok feature
  obtain ⟨hlen, hread⟩ := thresholdsOf_eq hr hstop hxs
  have hinc := h.increasing feature xs hxs
  have hcount := List.countP_le_length (p := fun y => y.lt x) (l := xs)
  have hat : ∀ i, r.start ≤ i → i < r.stop → t.thresholds[i]? = xs[i - r.start]? := by
    intro i hlo hhi
    rw [← hread (i - r.start) (by omega)]
    congr 1
    omega
  have hp : partitionPoint t.thresholds (fun y => y.lt x) r.start r.stop =
      r.start + xs.countP (·.lt x) := by
    refine partitionPoint_eq (by omega) (by omega) (fun i hlo hi => ?_) (fun i hi hhi => ?_)
    · have hb : i - r.start < xs.length := by omega
      rw [hat i hlo (by omega), List.getElem?_eq_getElem hb, Option.any_some,
        lt_iff_lt_countP hinc (List.getElem?_eq_getElem hb)]
      omega
    · have hb : i - r.start < xs.length := by omega
      rw [hat i (by omega) hhi, List.getElem?_eq_getElem hb, Option.any_some, Bool.eq_false_iff,
        ne_eq, lt_iff_lt_countP hinc (List.getElem?_eq_getElem hb)]
      omega
  have hfound : (decide (r.start + xs.countP (·.lt x) < r.stop) &&
      t.thresholds[r.start + xs.countP (·.lt x)]?.any (·.eqv x)) = xs.any (·.eqv x) := by
    rw [any_eqv hinc]
    by_cases hin : r.start + xs.countP (·.lt x) < r.stop
    · rw [hat _ (by omega) hin, decide_eq_true hin, Bool.true_and, Nat.add_sub_cancel_left]
    · rw [decide_eq_false hin, Bool.false_and, List.getElem?_eq_none (by omega), Option.any_none]
  simp only [locate, hr, ok_bind, hp, hfound, Nat.add_sub_cancel_left, pure_eq_ok]

theorem valueBin_eq {t : ThresholdTable} (h : t.WellFormed) {feature : Nat} {xs : List Binary32}
    (hxs : t.thresholdsOf feature = .ok xs) (x : Binary32) :
    t.valueBin feature x = .ok (Int32.ofInt (code xs x)) := by
  simp only [valueBin, locate_eq h hxs, ok_bind, pure_eq_ok, code_eq (h.increasing feature xs hxs)]

theorem thresholdBin_eq {t : ThresholdTable} (h : t.WellFormed) {feature : Nat}
    {xs : List Binary32} (hxs : t.thresholdsOf feature = .ok xs) (x : Binary32) :
    t.thresholdBin feature x =
      .ok (if xs.any (·.eqv x) then some (Int32.ofInt (code xs x)) else none) := by
  simp only [thresholdBin, locate_eq h hxs, ok_bind, pure_eq_ok,
    code_eq (h.increasing feature xs hxs)]
  split <;> rfl

theorem WellFormed.valueBin_ok {t : ThresholdTable} (h : t.WellFormed) (feature : Nat)
    (x : Binary32) : ∃ bin, t.valueBin feature x = .ok bin := by
  obtain ⟨xs, hxs, _⟩ := h.thresholdsOf_ok feature
  exact ⟨_, valueBin_eq h hxs x⟩

theorem toInt_bins {t : ThresholdTable} (h : t.WellFormed) (hsmall : t.Small) {feature : Nat}
    {v x : Binary32} {valueBin thresholdBin : Int32}
    (hvalue : t.valueBin feature v = .ok valueBin)
    (hthreshold : t.thresholdBin feature x = .ok (some thresholdBin)) :
    ∃ xs : List Binary32, xs.any (·.eqv x) = true ∧ valueBin.toInt = code xs v ∧
      thresholdBin.toInt = code xs x := by
  obtain ⟨xs, hxs, hcount⟩ := hsmall feature
  rw [valueBin_eq h hxs] at hvalue
  rw [thresholdBin_eq h hxs] at hthreshold
  split at hthreshold
  next hany =>
    cases hvalue
    cases hthreshold
    exact ⟨xs, hany, toInt_code hcount v, toInt_code hcount x⟩
  next => cases hthreshold

/-- A value compares with a threshold as their codes do. -/
theorem compare_bins {t : ThresholdTable} (h : t.WellFormed) (hsmall : t.Small) {feature : Nat}
    {v x : Binary32} {valueBin thresholdBin : Int32} (hv : v.isNaN = false)
    (hvalue : t.valueBin feature v = .ok valueBin)
    (hthreshold : t.thresholdBin feature x = .ok (some thresholdBin)) :
    some (compare valueBin.toInt thresholdBin.toInt) = v.compare? x := by
  obtain ⟨xs, hany, hvalue, hthreshold⟩ := toInt_bins h hsmall hvalue hthreshold
  obtain ⟨y, hy, hyx⟩ := List.any_eq_true.mp hany
  have hx := (Binary32.eqv_iff.mp hyx).2.1
  rw [hvalue, hthreshold, compare_code hv hany]
  simp [Binary32.compare?, hv, hx]

/-- The code of NaN is below the codes of all thresholds. -/
theorem compare_bins_nan {t : ThresholdTable} (h : t.WellFormed) (hsmall : t.Small) {feature : Nat}
    {v x : Binary32} {valueBin thresholdBin : Int32} (hv : v.isNaN = true)
    (hvalue : t.valueBin feature v = .ok valueBin)
    (hthreshold : t.thresholdBin feature x = .ok (some thresholdBin)) :
    compare valueBin.toInt thresholdBin.toInt = .lt := by
  obtain ⟨xs, hany, hvalue, hthreshold⟩ := toInt_bins h hsmall hvalue hthreshold
  have hlisted := countP_lt_of_listed hany
  rw [hvalue, hthreshold, code_nan xs hv, Int.compare_eq_lt]
  unfold code
  omega

/-- The codes of a value and a threshold compare alike in all tables that list the threshold. -/
theorem compare_bins_agree {t u : ThresholdTable} (ht : t.WellFormed) (hsmall : t.Small)
    (hu : u.WellFormed) (hsmall' : u.Small) {feature : Nat} {v x : Binary32}
    {valueBin valueBin' thresholdBin thresholdBin' : Int32}
    (hvalue : t.valueBin feature v = .ok valueBin)
    (hthreshold : t.thresholdBin feature x = .ok (some thresholdBin))
    (hvalue' : u.valueBin feature v = .ok valueBin')
    (hthreshold' : u.thresholdBin feature x = .ok (some thresholdBin')) :
    compare valueBin'.toInt thresholdBin'.toInt = compare valueBin.toInt thresholdBin.toInt := by
  cases hv : v.isNaN with
  | true =>
    rw [compare_bins_nan ht hsmall hv hvalue hthreshold,
      compare_bins_nan hu hsmall' hv hvalue' hthreshold']
  | false =>
    have hfirst := compare_bins ht hsmall hv hvalue hthreshold
    have hsecond := compare_bins hu hsmall' hv hvalue' hthreshold'
    exact Option.some.inj (hsecond.trans hfirst.symm)

end ThresholdTable

end TreeEnsemble
