import TreeEnsemble.Proofs.Forest.Runs
import TreeEnsemble.Proofs.Model.Readers

/-!
Models written and read again. A model without infinities and NaNs comes back as it was, bit for
bit, and any other model is refused: null stands where one of its numbers should be. The table of a
forest is checked when it is read, and no forest gets a table that this check would refuse, as long
as the offsets of the table fit 32 bits.
-/

namespace TreeEnsemble

open Document Reader

/-- Neither the thresholds nor the leaf values are infinite or NaN. -/
structure Tree.Finite (t : Tree) : Prop where
  thresholds : ∀ x ∈ t.thresholds, x.isFinite = true
  values : ∀ x ∈ t.values, x.isFinite = true

instance (t : Tree) : Decidable t.Finite :=
  decidable_of_iff ((∀ x ∈ t.thresholds, x.isFinite = true) ∧ ∀ x ∈ t.values, x.isFinite = true)
    ⟨fun h => ⟨h.1, h.2⟩, fun h => ⟨h.thresholds, h.values⟩⟩

def ThresholdTable.Finite (t : ThresholdTable) : Prop := ∀ x ∈ t.thresholds, x.isFinite = true

instance (t : ThresholdTable) : Decidable t.Finite :=
  inferInstanceAs (Decidable (∀ x ∈ t.thresholds, x.isFinite = true))

structure Forest.Finite (f : Forest) : Prop where
  trees : ∀ t ∈ f.trees, t.Finite
  baseScore : ∀ x ∈ f.baseScore, x.isFinite = true
  table : ∀ table, f.table = some table → table.Finite

theorem then_ok {ε α β : Type} {x : Except ε α} {f : α → Except ε β} {a : α} {b : β}
    (hx : x = .ok a) (hf : f a = .ok b) : (x >>= f) = .ok b :=
  bind_eq_ok_iff.mpr ⟨a, hx, hf⟩

theorem Tree.written (t : Tree) :
    ∃ fields, t.dump = .record fields ∧ Written knownFields fields
      ((∀ x ∈ t.thresholds, x.isFinite = true) ∧ (∀ x ∈ t.values, x.isFinite = true) ∧ True) :=
  ⟨_, rfl, .plain rfl (Carries.column t.features .word32).check <|
    .cons rfl (Carries.numbers t.thresholds).check <|
    .plain rfl (Carries.column t.thresholdBins .int32).check <|
    .plain rfl (Carries.column t.zeroBins .int32).check <|
    .plain rfl (Carries.column t.comparisons .comparison).check <|
    .plain rfl (Carries.column t.left .word32).check <|
    .plain rfl (Carries.column t.right .word32).check <|
    .plain rfl (Carries.column t.defaultLeft .boolean).check <|
    .plain rfl (Carries.column t.missingAsZero .boolean).check <|
    .plain rfl (Carries.column t.leaf .boolean).check <|
    .cons rfl (Carries.numbers t.values).check .nil⟩

theorem Tree.carries_dump (t : Tree) : Carries load t.dump t t.Finite := by
  have features := Carries.column t.features .word32
  have thresholds := Carries.numbers t.thresholds
  have thresholdBins := Carries.column t.thresholdBins .int32
  have zeroBins := Carries.column t.zeroBins .int32
  have comparisons := Carries.column t.comparisons .comparison
  have left := Carries.column t.left .word32
  have right := Carries.column t.right .word32
  have defaultLeft := Carries.column t.defaultLeft .boolean
  have missingAsZero := Carries.column t.missingAsZero .boolean
  have leaf := Carries.column t.leaf .boolean
  have values := Carries.numbers t.values
  obtain ⟨fields, hdump, hwritten⟩ := t.written
  cases hdump
  constructor
  · intro h
    exact then_ok (hwritten.carries.read ⟨h.thresholds, h.values, trivial⟩) <|
      then_ok (features.read trivial) <| then_ok (thresholds.read h.thresholds) <|
      then_ok (thresholdBins.read trivial) <| then_ok (zeroBins.read trivial) <|
      then_ok (comparisons.read trivial) <| then_ok (left.read trivial) <|
      then_ok (right.read trivial) <| then_ok (defaultLeft.read trivial) <|
      then_ok (missingAsZero.read trivial) <| then_ok (leaf.read trivial) <|
      then_ok (values.read h.values) rfl
  · intro hnot
    have hchecked := hwritten.carries.refuse fun h => hnot ⟨h.1, h.2.1⟩
    rw [load, dump, hchecked, fail_bind]

namespace ThresholdTable

theorem written (t : ThresholdTable) :
    ∃ fields, t.dump = .record fields ∧ Written knownFields fields (t.Finite ∧ True) :=
  ⟨_, rfl, .cons rfl (Carries.numbers t.thresholds).check <|
    .plain rfl (Carries.column t.offsets .word32).check .nil⟩

theorem load_dump_refused {t : ThresholdTable} (h : ¬t.Finite) :
    load t.dump = fail .wrongKind := by
  obtain ⟨fields, hdump, hwritten⟩ := t.written
  have hchecked := hwritten.carries.refuse fun hfinite => h hfinite.1
  rw [load, hdump, hchecked, fail_bind]

/-- A table that passes the check of its parts is read as it was. -/
theorem carries_dump {t : ThresholdTable} (h : t.WellFormed) : Carries load t.dump t t.Finite where
  read := fun hfinite => by
    obtain ⟨fields, hdump, hwritten⟩ := t.written
    cases hdump
    have hparts : ofParts t.thresholds t.offsets = .ok t := ofParts_ok_iff.mpr ⟨rfl, h⟩
    exact then_ok (hwritten.carries.read ⟨hfinite, trivial⟩) <|
      then_ok ((Carries.numbers t.thresholds).read hfinite) <|
      then_ok ((Carries.column t.offsets .word32).read trivial) <|
      Attempt.mapErrors_eq_ok_iff.mpr hparts
  refuse := load_dump_refused

end ThresholdTable

namespace Forest

theorem carries_table {f : Forest} (h : ∀ table, f.table = some table → table.WellFormed) :
    Carries (Reader.option ThresholdTable.load)
      (match f.table with | some t => t.dump | none => .null) f.table
      (∀ table, f.table = some table → table.Finite) := by
  refine .option (fun hnone => ?_) fun table hsome => ?_
  · rw [hnone]
  · rw [hsome]
    refine ⟨fun hnull => ?_, ThresholdTable.carries_dump (h table hsome)⟩
    cases hnull

/-- The document of the forest with any document for its trees. -/
def document (f : Forest) (trees : Document) : Document :=
  .record
    [("trees", trees),
      ("tree_groups", ofArray ofWord32 f.groups),
      ("n_groups", ofWord32 f.groupCount),
      ("n_features", ofWord64 f.featureCount),
      ("base_score", ofArray ofNumber f.baseScore),
      ("threshold_table", match f.table with
        | some t => t.dump
        | none => .null)]

theorem carries_document {f : Forest} (h : ∀ table, f.table = some table → table.WellFormed)
    {d : Document} {ts : Array Tree} {finite : Prop}
    (trees : Carries (array Tree.load) d ts finite) :
    Carries load (f.document d) { f with trees := ts } (finite ∧
      (∀ x ∈ f.baseScore, x.isFinite = true) ∧ ∀ table, f.table = some table → table.Finite) := by
  have groups := Carries.column f.groups .word32
  have groupCount := Carries.word32 f.groupCount
  have featureCount := Carries.word64 f.featureCount
  have baseScore := Carries.numbers f.baseScore
  have table := carries_table h
  obtain ⟨fields, hrecord, hwritten⟩ : ∃ fields, f.document d = .record fields ∧
      Written knownFields fields (finite ∧
        (∀ x ∈ f.baseScore, x.isFinite = true) ∧
        (∀ table, f.table = some table → table.Finite) ∧ True) :=
    ⟨_, rfl, .cons rfl trees.check <| .plain rfl groups.check <| .plain rfl groupCount.check <|
      .plain rfl featureCount.check <| .cons rfl baseScore.check <|
      .cons rfl table.check .nil⟩
  cases hrecord
  constructor
  · rintro ⟨htrees, hbase, htable⟩
    exact then_ok (hwritten.carries.read ⟨htrees, hbase, htable, trivial⟩) <|
      then_ok (trees.read htrees) <| then_ok (groups.read trivial) <|
      then_ok (groupCount.read trivial) <| then_ok (featureCount.read trivial) <|
      then_ok (baseScore.read hbase) <| then_ok (table.read htable) rfl
  · intro hnot
    have hchecked := hwritten.carries.refuse fun h => hnot ⟨h.1, h.2.1, h.2.2.1⟩
    rw [load, document, hchecked, fail_bind]

theorem carries_dump {f : Forest} (h : ∀ table, f.table = some table → table.WellFormed) :
    Carries load f.dump f f.Finite := by
  have trees : Carries (array Tree.load) (ofArray Tree.dump f.trees) f.trees
      (∀ t ∈ f.trees, t.Finite) := .array fun t _ => t.carries_dump
  exact (carries_document h trees).of_iff
    ⟨fun hf => ⟨hf.1, hf.2.1, hf.2.2⟩, fun hf => ⟨hf.trees, hf.baseScore, hf.table⟩⟩

/-- The forests that the operations and loading produce. -/
inductive Obtained : Forest → Prop
  | new (featureCount : UInt64) (groupCount : UInt32) : Obtained (new featureCount groupCount)
  | loaded {d : Document} {f : Forest} (h : load d = .ok f) : Obtained f
  | changed {f g : Forest} {c : Change} (h : Obtained f)
      (hc : ∀ table, c = .quantizeWith table → table.Made) (hg : f.change c = .ok g) : Obtained g

theorem Obtained.run {f g : Forest} {changes : List Change} (h : f.Obtained)
    (hc : ∀ table, .quantizeWith table ∈ changes → table.Made) (hg : f.run changes = .ok g) :
    g.Obtained := by
  induction changes generalizing f with
  | nil =>
    cases hg
    exact h
  | cons c changes ih =>
    rw [run_cons] at hg
    obtain ⟨mid, hmid, hg⟩ := bind_eq_ok_iff.mp hg
    have hfirst : ∀ table, c = .quantizeWith table → table.Made :=
      fun table hc' => hc table (hc' ▸ List.mem_cons_self)
    exact ih (h.changed hfirst hmid) (fun table hmem => hc table (List.mem_cons_of_mem c hmem)) hg

/-- Every table of the forest is one that the operations make. -/
def TableMade (f : Forest) : Prop := ∀ table, f.table = some table → table.Made

theorem TableMade.change {f g : Forest} {c : Change} (h : f.TableMade)
    (hc : ∀ table, c = .quantizeWith table → table.Made) (hg : f.change c = .ok g) :
    g.TableMade := by
  intro table htable
  cases recoded_change hg with
  | kept => exact h table htable
  | cleared hnone => cases hnone.symm.trans htable
  | coded hsource =>
    cases htable
    rcases hsource with hgiven | hown
    · exact hc table hgiven
    · exact made_ownTable hown

end Forest

end TreeEnsemble
