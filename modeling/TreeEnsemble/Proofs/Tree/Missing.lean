import Mathlib.Data.List.Chain
import TreeEnsemble.Predictor.Basic
import TreeEnsemble.Proofs.Tree.Agreement
import TreeEnsemble.Proofs.Tree.Descent

/-!
Missing, absent and zero. A walk looks at slots only through the values that are present, so missing
slots at the end are as good as none. Where a split reads a missing value as zero, a slot that holds
a zero makes no difference, and where no split does, a row without values takes the default child at
every split.
-/

namespace TreeEnsemble

theorem present?_of_isMissing {slots : Array Slot} {feature : Nat}
    (h : ∀ s ∈ slots[feature]?, s.isMissing = true) : present? slots feature = none := by
  unfold present?
  cases hs : slots[feature]? with
  | none => rfl
  | some s => simp [h s hs]

theorem present?_append_missing (slots : Array Slot) {more : Array Slot}
    (h : ∀ s ∈ more, s.isMissing = true) (feature : Nat) :
    present? (slots ++ more) feature = present? slots feature := by
  rcases Nat.lt_or_ge feature slots.size with hin | hout
  · unfold present?
    rw [Array.getElem?_append_left hin]
  · have hnone : slots[feature]? = none := Array.getElem?_eq_none hout
    have hold : present? slots feature = none := by rw [present?, hnone, Option.filter_none]
    rw [hold]
    apply present?_of_isMissing
    intro s hs
    rw [Array.getElem?_append_right hout] at hs
    exact h s (Array.mem_of_getElem? hs)

/-- The slots that hold a zero of a feature: as a number of either sign, or as its code. -/
inductive Coder.HoldsZero : Coder → Nat → Slot → Prop
  | plus {feature : Nat} : HoldsZero .raw feature (.ofFloat .zero)
  | minus {feature : Nat} : HoldsZero .raw feature (.ofFloat ⟨0x80000000⟩)
  | code {table : ThresholdTable} {feature : Nat} {bin : Int32}
      (hbin : table.valueBin feature .zero = .ok bin) :
      HoldsZero (.binned table) feature (.ofBin bin)

theorem Coder.HoldsZero.isMissing {c : Coder} {feature : Nat} {zero : Slot}
    (h : c.HoldsZero feature zero) : zero.isMissing = false := by
  cases h <;> rfl

theorem present?_of_holdsZero {c : Coder} {slots : Array Slot} {feature : Nat} {zero : Slot}
    (hin : feature < slots.size) (h : c.HoldsZero feature zero) :
    present? (slots.setIfInBounds feature zero) feature = some zero := by
  rw [present?, Array.getElem?_setIfInBounds_self, if_pos hin]
  simp [h.isMissing]

theorem present?_setIfInBounds_ne {slots : Array Slot} {feature other : Nat} (zero : Slot)
    (h : feature ≠ other) :
    present? (slots.setIfInBounds feature zero) other = present? slots other := by
  unfold present?
  rw [Array.getElem?_setIfInBounds_ne h]

/-- The two zeros compare alike with every threshold. -/
theorem compare?_minusZero (x : Binary32) :
    Binary32.compare? ⟨0x80000000⟩ x = Binary32.compare? .zero x := rfl

namespace Tree

/-- The tree has the codes that walks with the coder compare. -/
def QuantizedFor (t : Tree) : Coder → Prop
  | .raw => True
  | .binned table => ∃ u : Tree, u.assignBins table = .ok t

/-- Every split on the feature compares a missing value as zero. -/
def ReadsZeroOn (t : Tree) (feature : Nat) : Prop :=
  ∀ node : Nat, t.leaf[node]? = some false → t.feature node = .ok feature →
    t.readsZero node = .ok true

/-- No split compares a missing value as zero. -/
def NeverReadsZero (t : Tree) : Prop :=
  ∀ node : Nat, t.leaf[node]? = some false → t.readsZero node = .ok false

theorem WellFormed.codedBy {t : Tree} {table : ThresholdTable} (h : t.WellFormed)
    (hq : t.QuantizedFor (.binned table)) : t.CodedBy table := by
  obtain ⟨u, hu⟩ := hq
  obtain ⟨_, _, rfl, _, _, hcodes⟩ := assignBins_ok hu
  exact hcodes (size_leaf h.columns)

theorem WellFormed.readable {t : Tree} {c : Coder} (h : t.WellFormed) (hq : t.QuantizedFor c) :
    t.Readable c.scale := by
  cases c with
  | raw => trivial
  | binned table => exact (h.codedBy hq).bins

theorem childFor_congr {t : Tree} {scale : Scale} {slots slots' : Array Slot} {node feature : Nat}
    (hf : t.feature node = .ok feature) (h : present? slots feature = present? slots' feature) :
    t.childFor scale slots node = t.childFor scale slots' node := by
  simp only [childFor, hf, ok_bind, h]

theorem leafFor_append_missing {t : Tree} (h : t.WellFormed) (scale : Scale) (slots : Array Slot)
    {more : Array Slot} (hmore : ∀ s ∈ more, s.isMissing = true) :
    t.leafFor scale (slots ++ more) = t.leafFor scale slots := by
  apply leafFor_congr rfl rfl
  intro node hl
  obtain ⟨feature, hf⟩ := t.feature_ok (h.lt_of_leaf hl)
  exact childFor_congr hf (present?_append_missing slots hmore feature)

/-- A slot that holds a zero chooses the child that a missing value chooses as zero. -/
theorem branch_of_holdsZero {t : Tree} {c : Coder} (h : t.WellFormed) (hq : t.QuantizedFor c)
    {node feature : Nat} {zero : Slot} (hl : t.leaf[node]? = some false)
    (hf : t.feature node = .ok feature) (hzero : c.HoldsZero feature zero) :
    ∃ slot, c.scale.zeroSlot t node = .ok slot ∧
      t.branch c.scale node slot = t.branch c.scale node zero := by
  cases hzero with
  | plus => exact ⟨.ofFloat .zero, rfl, rfl⟩
  | minus =>
    refine ⟨.ofFloat .zero, rfl, ?_⟩
    have horder : Scale.raw.order t node (.ofFloat ⟨0x80000000⟩) =
        Scale.raw.order t node (.ofFloat .zero) := by
      simp only [Scale.order, Slot.asFloat, Slot.ofFloat, compare?_minusZero]
    show t.branch .raw node (.ofFloat .zero) = t.branch .raw node (.ofFloat ⟨0x80000000⟩)
    simp only [branch, horder]
  | code hbin =>
    obtain ⟨feature', threshold, bin', zero, codes⟩ := (h.codedBy hq).splits node hl
    cases Except.ok.inj (hf.symm.trans codes.feature_eq)
    cases Except.ok.inj (hbin.symm.trans codes.ofZero)
    exact ⟨_, codes.zeroSlot_binned, rfl⟩

theorem leafFor_set_zero {t : Tree} {c : Coder} (h : t.WellFormed) (hq : t.QuantizedFor c)
    {slots : Array Slot} {feature : Nat} {s zero : Slot} (hs : slots[feature]? = some s)
    (hmissing : s.isMissing = true) (hzero : c.HoldsZero feature zero)
    (hreads : t.ReadsZeroOn feature) :
    t.leafFor c.scale (slots.setIfInBounds feature zero) = t.leafFor c.scale slots := by
  apply leafFor_congr rfl rfl
  intro node hl
  obtain ⟨feature', hf⟩ := t.feature_ok (h.lt_of_leaf hl)
  by_cases heq : feature = feature'
  · subst heq
    have hin : feature < slots.size := (Array.getElem?_eq_some_iff.mp hs).1
    have habsent : present? slots feature = none := by
      apply present?_of_isMissing
      intro s' hs'
      cases Option.some.inj (hs.symm.trans hs')
      exact hmissing
    obtain ⟨slot, hslot, hbranch⟩ := branch_of_holdsZero h hq hl hf hzero
    rw [childFor_present hf (present?_of_holdsZero hin hzero),
      childFor_asZero hf habsent (hreads node hl hf) hslot, hbranch]
  · exact childFor_congr hf (present?_setIfInBounds_ne zero heq)

theorem Descent.head? {t : Tree} {scale : Scale} {slots : Array Slot} {start : Nat} {route : Route}
    (h : t.Descent scale slots start route) : route.nodes.head? = some start := by
  cases h <;> rfl

/-- A walk goes from each split to the child taken there. -/
theorem Descent.isChain {t : Tree} {scale : Scale} {slots : Array Slot} {start : Nat}
    {route : Route} (h : t.Descent scale slots start route) :
    route.nodes.IsChain fun node next =>
      t.leaf[node]? = some false ∧ t.childFor scale slots node = .ok next := by
  induction h with
  | stop _ => exact .singleton _
  | @next node child rest hsplit hchild hrest ih =>
    refine List.isChain_cons.mpr ⟨fun next hnext => ?_, ih⟩
    cases Option.some.inj (hrest.head?.symm.trans hnext)
    exact ⟨fetch_eq_ok_iff.mp hsplit, hchild⟩

/-- A walk without values goes from default child to default child. -/
theorem Descent.isChain_default {t : Tree} {scale : Scale} {slots : Array Slot} {start : Nat}
    {route : Route} (hmissing : ∀ s ∈ slots, s.isMissing = true) (hnever : t.NeverReadsZero)
    (h : t.Descent scale slots start route) :
    route.nodes.IsChain fun node next => t.defaultChild node = .ok next := by
  refine h.isChain.imp fun node next ⟨hl, hchild⟩ => ?_
  obtain ⟨feature, hf, _⟩ := bind_eq_ok_iff.mp hchild
  have habsent : present? slots feature = none :=
    present?_of_isMissing fun s hs => hmissing s (Array.mem_of_getElem? hs)
  rw [← hchild, childFor_default hf habsent (hnever node hl)]

/-- The walk through a valid tree ends at one leaf, whether missing slots at the end are there or
not, and whether a slot is missing or holds a zero if all splits on its feature read a missing value
as zero. If no split does and all slots are missing, the walk follows the default children. -/
theorem leafFor_of_missing {t : Tree} {c : Coder} (hvalid : t.validate = .ok ())
    (hq : t.QuantizedFor c) (slots : Array Slot) :
    ∃ leaf, t.leafFor c.scale slots = .ok leaf ∧
      (∀ more : Array Slot, (∀ s ∈ more, s.isMissing = true) →
        t.leafFor c.scale (slots ++ more) = .ok leaf) ∧
      (∀ kept cut : Array Slot, slots = kept ++ cut → (∀ s ∈ cut, s.isMissing = true) →
        t.leafFor c.scale kept = .ok leaf) ∧
      (∀ feature s zero, slots[feature]? = some s → s.isMissing = true →
        c.HoldsZero feature zero → t.ReadsZeroOn feature →
          t.leafFor c.scale (slots.setIfInBounds feature zero) = .ok leaf) ∧
      ((∀ s ∈ slots, s.isMissing = true) → t.NeverReadsZero →
        ∃ route, t.routeFrom c.scale slots 0 = .ok route ∧ route.leaf = leaf ∧
          route.nodes.head? = some 0 ∧
          route.nodes.IsChain fun node next => t.defaultChild node = .ok next) := by
  have h := wellFormed_of_validate hvalid
  obtain ⟨route, hroute, hwalk⟩ := routeFrom_ok h (h.readable hq) slots h.nonempty
  have hleaf : t.leafFor c.scale slots = .ok route.leaf := leafFrom_of_routeFrom hroute
  refine ⟨route.leaf, hleaf, fun more hmore => ?_, fun kept cut hslots hcut => ?_,
    fun feature s zero hs hmissing hzero hreads => ?_, fun hmissing hnever => ?_⟩
  · rw [leafFor_append_missing h c.scale slots hmore, hleaf]
  · rw [← leafFor_append_missing h c.scale kept hcut, ← hslots, hleaf]
  · rw [leafFor_set_zero h hq hs hmissing hzero hreads, hleaf]
  · exact ⟨route, hroute, rfl, hwalk.head?, hwalk.isChain_default hmissing hnever⟩

/-- In the coded staircase a second slot may be absent, missing or the code of zero. -/
theorem leafFor_of_missing_codedStaircase :
    ∃ leaf, codedStaircase.leafFor .binned #[.ofBin 1, .missing] = .ok leaf ∧
      codedStaircase.leafFor .binned #[.ofBin 1] = .ok leaf ∧
      codedStaircase.leafFor .binned #[.ofBin 1, .ofBin 1] = .ok leaf := by
  have hvalid : codedStaircase.validate = .ok () := by decide +kernel
  have hq : codedStaircase.QuantizedFor (.binned Forest.staircaseTable) :=
    ⟨staircase, by decide +kernel⟩
  have hzero : (Coder.binned Forest.staircaseTable).HoldsZero 1 (.ofBin 1) :=
    .code (by decide +kernel)
  have hreads : codedStaircase.ReadsZeroOn 1 := by
    intro node hl hf
    match node with
    | 0 => exact absurd hf (by decide)
    | 2 => rfl
    | 1 | 3 | 4 => exact absurd hl (by decide)
    | n + 5 => simp [codedStaircase, staircase] at hl
  obtain ⟨leaf, hleaf, _, hcut, hset, _⟩ :=
    leafFor_of_missing hvalid hq #[.ofBin 1, .missing]
  refine ⟨leaf, hleaf, hcut #[.ofBin 1] #[.missing] rfl (by decide), ?_⟩
  exact hset 1 .missing (.ofBin 1) rfl rfl hzero hreads

end Tree

end TreeEnsemble
