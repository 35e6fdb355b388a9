import TreeEnsemble.Proofs.Forest.Rollback

/-!
Runs of changes to a forest. The table and the codes are written at different moments and go out of
date with every new tree, but at the end of a change they agree again: where there is a table, every
split of every tree has the codes that the table gives it.
-/

namespace TreeEnsemble.Forest

/-- The trees are well formed, and if there is a table, it covers the forest and every tree has its
codes. -/
structure Coherent (f : Forest) : Prop where
  trees : ∀ t ∈ f.trees, t.WellFormed
  coded : ∀ table, f.table = some table →
    f.width ≤ table.featureCount ∧ ∀ t ∈ f.trees, t.CodedBy table

theorem coherent_new (featureCount : UInt64) (groupCount : UInt32) :
    (new featureCount groupCount).Coherent where
  trees := nofun
  coded := nofun

/-- Without a table the codes of the trees may come from anywhere. -/
theorem coherent_of_noTable {f : Forest} (hf : ∀ t ∈ f.trees, t.WellFormed)
    (htable : f.table = none) : f.Coherent where
  trees := hf
  coded := fun _ h => nomatch htable.symm.trans h

theorem Coherent.clearBins {f : Forest} (h : f.Coherent) : f.clearBins.Coherent := by
  refine coherent_of_noTable (fun t ht => ?_) rfl
  obtain ⟨u, hu, rfl⟩ := Array.mem_map.mp ht
  exact (h.trees u hu).clearBins

theorem Coherent.setBaseScore {f g : Forest} {scores : Array Binary32} (h : f.Coherent)
    (hg : f.setBaseScore scores = .ok g) : g.Coherent := by
  unfold Forest.setBaseScore at hg
  split at hg
  next =>
    cases hg
    exact ⟨h.trees, h.coded⟩
  next => nomatch hg

theorem push_ok {f g : Forest} {t : Tree} {group : UInt32} (h : f.push t group = .ok g) :
    g.table = none ∧ ∀ u ∈ g.trees, ∃ v, (v ∈ f.trees ∨ v = t) ∧ (u = v ∨ u = v.clearBins) := by
  unfold push at h
  split at h
  next =>
    cases h
    cases hopt : f.table with
    | none =>
      exact ⟨rfl, fun u hu => ⟨u, Array.mem_push.mp hu, Or.inl rfl⟩⟩
    | some table =>
      refine ⟨rfl, fun u hu => ?_⟩
      obtain ⟨v, hv, rfl⟩ := Array.mem_map.mp hu
      exact ⟨v, Array.mem_push.mp hv, Or.inr rfl⟩
  next => nomatch h

theorem Coherent.push {f g : Forest} {t : Tree} {group : UInt32} (h : f.Coherent)
    (ht : t.WellFormed) (hg : f.push t group = .ok g) : g.Coherent := by
  obtain ⟨htable, htrees⟩ := push_ok hg
  refine coherent_of_noTable (fun u hu => ?_) htable
  obtain ⟨v, hv, hu⟩ := htrees u hu
  have hwell : v.WellFormed := by
    rcases hv with hv | rfl
    · exact h.trees v hv
    · exact ht
  rcases hu with rfl | rfl
  · exact hwell
  · exact hwell.clearBins

theorem Coherent.quantizeWith {f g : Forest} {table : ThresholdTable}
    {r : Except QuantizeError Unit} (h : f.Coherent) (hg : f.quantizeWith table = .ok (g, r)) :
    g.Coherent := by
  rcases quantizeWith_cases hg with ⟨_, rfl, _⟩ | ⟨hcov, ⟨trees, hcoded, rfl, _⟩ | ⟨_, _, rfl, _⟩⟩
  · exact h
  · have hwell := codedTrees_wellFormed h.trees hcoded
    refine ⟨fun t ht => (hwell t (List.mem_toArray.mp ht)).1, fun table' htable => ?_⟩
    cases htable
    exact ⟨hcov, fun t ht => (hwell t (List.mem_toArray.mp ht)).2⟩
  · exact h.clearBins

theorem Coherent.quantize {f g : Forest} {r : Except QuantizeError Unit} (h : f.Coherent)
    (hg : f.quantize = .ok (g, r)) : g.Coherent := by
  rcases quantize_cases hg with ⟨_, _, rfl, _⟩ | ⟨_, _, hq⟩
  · exact h
  · exact h.quantizeWith hq

/-- What becomes of the table and the codes of a forest: they stay, or there is no table any more,
or every tree is coded with a table from a source, which covers the forest. -/
inductive Recoded (f : Forest) (source : ThresholdTable → Prop) : Forest → Prop
  | kept (scores : Array Binary32) : Recoded f source { f with baseScore := scores }
  | cleared {g : Forest} (htable : g.table = none) : Recoded f source g
  | coded {table : ThresholdTable} {trees : List Tree} (hsource : source table)
      (hcov : f.width ≤ table.featureCount) (hcoded : f.codedTrees table = .ok trees) :
      Recoded f source (f.withCodes trees table)

theorem recoded_quantizeWith {f g : Forest} {table : ThresholdTable}
    {r : Except QuantizeError Unit} {source : ThresholdTable → Prop} (hsource : source table)
    (hg : f.quantizeWith table = .ok (g, r)) : f.Recoded source g := by
  rcases quantizeWith_cases hg with ⟨_, rfl, _⟩ | ⟨hcov, ⟨trees, hcoded, rfl, _⟩ | ⟨_, _, rfl, _⟩⟩
  · exact .kept _
  · exact .coded hsource hcov hcoded
  · exact .cleared rfl

/-- A table comes into a forest with the change, or from the thresholds of the forest. -/
theorem recoded_change {f g : Forest} {c : Change} (hg : f.change c = .ok g) :
    f.Recoded (fun table => c = .quantizeWith table ∨ f.ownTable = .ok table) g := by
  cases c with
  | baseScore scores =>
    simp only [Forest.change, Forest.setBaseScore] at hg
    split at hg
    next =>
      cases hg
      exact .kept scores
    next => cases hg
  | push t group => exact .cleared (push_ok hg).1
  | quantize =>
    obtain ⟨⟨_, _⟩, hq, hg⟩ := bind_eq_ok_iff.mp hg
    cases hg
    rcases quantize_cases hq with ⟨_, _, rfl, _⟩ | ⟨table, hown, hq⟩
    · exact .kept _
    · exact recoded_quantizeWith (Or.inr hown) hq
  | quantizeWith table =>
    obtain ⟨⟨_, _⟩, hq, hg⟩ := bind_eq_ok_iff.mp hg
    cases hg
    exact recoded_quantizeWith (Or.inl rfl) hq

/-- The trees that a change brings along are well formed. -/
def Change.Valid (c : Change) : Prop := ∀ t group, c = .push t group → t.WellFormed

/-- No change, whether it succeeds or fails, leaves codes that disagree with the table. -/
theorem Coherent.change {f g : Forest} {c : Change} (h : f.Coherent) (hc : c.Valid)
    (hg : f.change c = .ok g) : g.Coherent := by
  cases c with
  | baseScore scores => exact h.setBaseScore hg
  | push t group => exact h.push (hc t group rfl) hg
  | quantize =>
    obtain ⟨⟨_, _⟩, hq, hg⟩ := bind_eq_ok_iff.mp hg
    cases hg
    exact h.quantize hq
  | quantizeWith table =>
    obtain ⟨⟨_, _⟩, hq, hg⟩ := bind_eq_ok_iff.mp hg
    cases hg
    exact h.quantizeWith hq

theorem run_cons (f : Forest) (c : Change) (changes : List Change) :
    f.run (c :: changes) = f.change c >>= fun g => g.run changes := List.foldlM_cons

theorem run_append (f : Forest) (changes more : List Change) :
    f.run (changes ++ more) = f.run changes >>= fun g => g.run more := List.foldlM_append

theorem Coherent.run {f g : Forest} {changes : List Change} (h : f.Coherent)
    (hc : ∀ c ∈ changes, c.Valid) (hg : f.run changes = .ok g) : g.Coherent := by
  induction changes generalizing f with
  | nil =>
    cases hg
    exact h
  | cons c changes ih =>
    obtain ⟨hvalid, hrest⟩ := List.forall_mem_cons.mp hc
    rw [run_cons] at hg
    obtain ⟨mid, hmid, hg⟩ := bind_eq_ok_iff.mp hg
    exact ih (h.change hvalid hmid) hrest hg

theorem Coherent.isQuantized_iff {f : Forest} (h : f.Coherent) :
    f.isQuantized = true ↔ f.table.isSome = true := by
  unfold isQuantized
  rw [Bool.and_eq_true]
  refine and_iff_left_of_imp fun hsome => ?_
  obtain ⟨table, htable⟩ := Option.isSome_iff_exists.mp hsome
  exact Array.all_eq_true_iff_forall_mem.mpr fun t ht => ((h.coded table htable).2 t ht).bins

/-- A change is a quantization that succeeds. -/
def Quantizes (f : Forest) (c : Change) (g : Forest) : Prop :=
  (c = .quantize ∧ f.quantize = .ok (g, .ok ())) ∨
    ∃ table, c = .quantizeWith table ∧ f.quantizeWith table = .ok (g, .ok ())

/-- A forest without a table gets one from a quantization that succeeds, and from nothing else. -/
theorem quantizes_of_table {f g : Forest} {c : Change} (hf : f.table = none)
    (hg : f.change c = .ok g) (hsome : g.table.isSome = true) : f.Quantizes c g := by
  have hold : f.table.isSome ≠ true := by
    rw [hf]
    decide
  have hwith : ∀ {table r}, f.quantizeWith table = .ok (g, r) → r = .ok () := by
    intro table r hq
    rcases quantizeWith_cases hq with ⟨_, rfl, _⟩ | ⟨_, ⟨_, _, _, hr⟩ | ⟨_, _, rfl, _⟩⟩
    · exact absurd hsome hold
    · exact hr
    · cases hsome
  cases c with
  | baseScore scores =>
    simp only [change, setBaseScore] at hg
    split at hg
    next =>
      cases hg
      exact absurd hsome hold
    next => cases hg
  | push t group =>
    rw [(push_ok hg).1] at hsome
    cases hsome
  | quantize =>
    obtain ⟨⟨_, r⟩, hq, hg⟩ := bind_eq_ok_iff.mp hg
    cases hg
    rcases quantize_cases hq with ⟨_, _, rfl, _⟩ | ⟨table, _, hw⟩
    · exact absurd hsome hold
    · cases hwith hw
      exact Or.inl ⟨rfl, hq⟩
  | quantizeWith table =>
    obtain ⟨⟨_, r⟩, hq, hg⟩ := bind_eq_ok_iff.mp hg
    cases hg
    cases hwith hq
    exact Or.inr ⟨table, rfl, hq⟩

theorem exists_quantizes_of_table {f g : Forest} {changes : List Change} (hf : f.table = none)
    (hg : f.run changes = .ok g) (hsome : g.table.isSome = true) :
    ∃ earlier c later h h', changes = earlier ++ c :: later ∧ f.run earlier = .ok h ∧
      h.Quantizes c h' := by
  induction changes generalizing f with
  | nil =>
    cases hg
    rw [hf] at hsome
    nomatch hsome
  | cons c changes ih =>
    rw [run_cons] at hg
    obtain ⟨mid, hmid, hg⟩ := bind_eq_ok_iff.mp hg
    cases htable : mid.table with
    | some table =>
      have hq := quantizes_of_table hf hmid (by rw [htable]; rfl)
      exact ⟨[], c, changes, f, mid, rfl, rfl, hq⟩
    | none =>
      obtain ⟨earlier, d, later, h, h', rfl, hrun, hq⟩ := ih htable hg
      refine ⟨c :: earlier, d, later, h, h', rfl, ?_, hq⟩
      rw [run_cons, hmid]
      exact hrun

/-- What a change asks for: a base score for each group, a group of the forest, a partitioned table.
The table of the forest's own thresholds is partitioned if its offsets fit 32 bits. -/
def Admits (f : Forest) : Change → Prop
  | .baseScore scores => scores.size = f.groupCount.toNat
  | .push _ group => group < f.groupCount
  | .quantize => ∀ table, f.ownTable = .ok table → table.thresholdCount < 2 ^ 32
  | .quantizeWith table => table.Partitioned

theorem Coherent.change_ok {f : Forest} {c : Change} (h : f.Coherent) (hc : f.Admits c) :
    ∃ g, f.change c = .ok g := by
  have hwith : ∀ {table : ThresholdTable}, table.WellFormed →
      ∃ g r, f.quantizeWith table = .ok (g, r) := by
    intro table htable
    rcases quantizeWith_outcome h.trees htable with
      ⟨_, hq⟩ | ⟨_, ⟨⟨_, hq⟩, _⟩ | ⟨_, _, _, _, hq, _⟩⟩ <;> exact ⟨_, _, hq⟩
  cases c with
  | baseScore scores => exact ⟨_, if_pos hc⟩
  | push t group => exact ⟨_, if_pos hc⟩
  | quantize =>
    have hown : ∃ g r, f.quantize = .ok (g, r) := by
      rcases quantize_eq h.trees with ⟨e, hq⟩ | ⟨table, hown, hq⟩
      · exact ⟨_, _, hq⟩
      · obtain ⟨lists, hlists⟩ := ownTable_ok hown
        rw [hq]
        exact hwith ((ThresholdTable.wellFormed_ofLists_iff hlists).mpr (hc table hown))
    obtain ⟨g, r, hq⟩ := hown
    exact ⟨g, bind_eq_ok_iff.mpr ⟨_, hq, rfl⟩⟩
  | quantizeWith table =>
    obtain ⟨g, r, hq⟩ := hwith (ThresholdTable.wellFormed_iff_partitioned.mpr hc)
    exact ⟨g, bind_eq_ok_iff.mpr ⟨_, hq, rfl⟩⟩

/-- Whatever changes a new forest goes through, a table that it has covers its features and gives
every split of every tree its codes. So it is quantized exactly if it has a table, and once a tree
was added that takes a later quantization that succeeds. The forest can always go on. -/
theorem codes_follow_table {featureCount : UInt64} {groupCount : UInt32} {changes : List Change}
    {f : Forest} (hvalid : ∀ t group, .push t group ∈ changes → t.validate = .ok ())
    (hrun : (new featureCount groupCount).run changes = .ok f) :
    (∀ table, f.table = some table →
      f.width ≤ table.featureCount ∧ ∀ t ∈ f.trees, t.CodedBy table) ∧
    (f.isQuantized = true ↔ f.table.isSome = true) ∧
    (∀ before t group after, changes = before ++ .push t group :: after → f.isQuantized = true →
      ∃ mid c later g h, after = mid ++ c :: later ∧
        (new featureCount groupCount).run (before ++ .push t group :: mid) = .ok g ∧
        g.Quantizes c h) ∧
    ∀ c, f.Admits c → ∃ g, f.change c = .ok g := by
  have hchanges : ∀ c ∈ changes, c.Valid := by
    rintro _ hmem t group rfl
    exact Tree.wellFormed_of_validate (hvalid t group hmem)
  have h := (coherent_new featureCount groupCount).run hchanges hrun
  refine ⟨h.coded, h.isQuantized_iff, ?_, fun c hc => h.change_ok hc⟩
  rintro before t group after rfl hquantized
  rw [run_append] at hrun
  obtain ⟨start, hstart, hrun⟩ := bind_eq_ok_iff.mp hrun
  rw [run_cons] at hrun
  obtain ⟨pushed, hpush, hrun⟩ := bind_eq_ok_iff.mp hrun
  obtain ⟨mid, c, later, g, h', rfl, hmid, hq⟩ :=
    exists_quantizes_of_table (push_ok hpush).1 hrun (h.isQuantized_iff.mp hquantized)
  refine ⟨mid, c, later, g, h', rfl, ?_, hq⟩
  rw [run_append, hstart, ok_bind, run_cons, hpush]
  exact hmid

/-- A second staircase, with foreign codes, joins a forest that has codes. -/
def joining : List Change :=
  [.baseScore #[.zero, ⟨0x3f800000⟩], .push .staircase 1, .quantizeWith staircaseTable]

def foreignStaircase : Tree := Tree.staircase.withBins #[7, 7, 7, 7, 7] #[0, 1, 2, 3, 4]

theorem codes_follow_staircaseTable :
    codedStaircases.width ≤ staircaseTable.featureCount ∧
      (∀ t ∈ codedStaircases.trees, t.CodedBy staircaseTable) ∧
      ∃ mid c later g h,
        [.quantizeWith poorTable, .quantizeWith staircaseTable] = mid ++ c :: later ∧
        (new 2 2).run (joining ++ .push foreignStaircase 0 :: mid) = .ok g ∧
        g.Quantizes c h := by
  have hrun : (new 2 2).run (joining ++ .push foreignStaircase 0 ::
      [.quantizeWith poorTable, .quantizeWith staircaseTable]) = .ok codedStaircases := by
    decide +kernel
  have hvalid : ∀ t group, .push t group ∈ joining ++ .push foreignStaircase 0 ::
      [.quantizeWith poorTable, .quantizeWith staircaseTable] → t.validate = .ok () := by
    intro t group h
    simp only [joining, List.cons_append, List.nil_append, List.mem_cons, List.not_mem_nil,
      reduceCtorEq, Change.push.injEq, false_or, or_false] at h
    rcases h with ⟨rfl, _⟩ | ⟨rfl, _⟩
    · exact Tree.validate_staircase
    · decide +kernel
  obtain ⟨hcoded, _, hpushed, _⟩ := codes_follow_table hvalid hrun
  have hall := hcoded staircaseTable rfl
  exact ⟨hall.1, hall.2, hpushed joining foreignStaircase 0 _ rfl (by decide +kernel)⟩

end TreeEnsemble.Forest
