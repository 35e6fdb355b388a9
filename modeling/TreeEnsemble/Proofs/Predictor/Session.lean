import TreeEnsemble.Predictor.Session
import TreeEnsemble.Proofs.Predictor.Safety

/-!
Buffers in use. A call that is refused leaves its buffers as they were, and a call that is accepted
leaves in them what it would leave in fresh ones; so nothing of one row gets into the prediction of
another, in whatever order rows are bound, refused and scored.
-/

namespace TreeEnsemble.Predictor

variable {p : Predictor}

/-- A row that is bound leaves the slots that it gives alone; a refused one leaves the old slots. -/
theorem bindRow_cases {row : Array Binary32} {old new : Array Slot}
    {r : Except PredictorError Unit} (h : p.bindRow row old = .ok (new, r)) :
    (r = .ok () ∧ old.size = p.width ∧ denseSlots p.coder p.policy row p.width = .ok new) ∨
      ∃ e, r = .error e ∧ new = old ∧
        (old.size = p.width → p.predictRow row = .ok (.error e)) := by
  unfold bindRow at h
  split at h
  next hrow =>
    cases h
    exact Or.inr ⟨_, rfl, rfl, fun _ => predictRow_width hrow⟩
  next hrow =>
    have hrow : row.size = p.width := not_not.mp hrow
    obtain ⟨⟨slots, result⟩, hbind, h⟩ := bind_eq_ok_iff.mp h
    cases h
    rcases Attempt.update_eq_ok_iff.mp hbind with ⟨hd, rfl⟩ | ⟨e, hd, rfl, rfl⟩
    · have hold : old.size = p.width := by
        obtain ⟨_, _, _, hr⟩ := encode_of_denseSlots hd
        omega
      exact Or.inl ⟨rfl, hold, hold ▸ hd⟩
    · exact Or.inr ⟨_, rfl, rfl, fun hold => predictRow_error hrow (hold ▸ hd)⟩

theorem bindSparseRow_cases {indices : List UInt32} {values : List Binary32}
    {old new : Array Slot} {r : Except PredictorError Unit}
    (h : p.bindSparseRow indices values old = .ok (new, r)) :
    (r = .ok () ∧ old.size = p.width ∧
        sparseSlots p.coder p.policy indices values p.newSlots = .ok new) ∨
      ∃ e, r = .error e ∧ new = old ∧
        (old.size = p.width → p.predictSparseRow indices values = .ok (.error e)) := by
  unfold bindSparseRow at h
  split at h
  next hold =>
    cases h
    exact Or.inr ⟨_, rfl, rfl, fun h => absurd h hold⟩
  next hold =>
    have hold : old.size = p.width := not_not.mp hold
    obtain ⟨⟨slots, result⟩, hbind, h⟩ := bind_eq_ok_iff.mp h
    cases h
    rw [bindSparse, sparseSlots_congr p.coder p.policy indices values
      (hold.trans p.size_newSlots.symm)] at hbind
    rcases Attempt.update_eq_ok_iff.mp hbind with ⟨hd, rfl⟩ | ⟨e, hd, rfl, rfl⟩
    · exact Or.inl ⟨rfl, hold, hd⟩
    · exact Or.inr ⟨_, rfl, rfl, fun _ => predictSparseRow_error hd⟩

/-- What the row of a call is predicted to be alone. -/
def alone (p : Predictor) : Call → Option (Except Fault (Except PredictorError (Array Binary32)))
  | .bindRow row => some (p.predictRow row)
  | .bindSparseRow indices values => some (p.predictSparseRow indices values)
  | .scoreSlots => none
  | .predictRow row => some (p.predictRow row)

/-- What a call with a result leaves of the buffers that it found. A refused call leaves both as
they are; other calls write what they would write over any others. -/
inductive Leaves (p : Predictor) : Call → Buffers → Buffers → Except PredictorError Unit → Prop
  | refused {c : Call} {b : Buffers} {e : PredictorError} (hc : c ≠ .scoreSlots)
      (halone : b.slots.size = p.width → p.alone c = some (.ok (.error e))) :
      Leaves p c b b (.error e)
  | bound {row : Array Binary32} {b : Buffers} {slots : Array Slot}
      (hfresh : p.bindRow row p.newSlots = .ok (slots, .ok ())) :
      Leaves p (.bindRow row) b ⟨slots, b.output⟩ (.ok ())
  | boundSparse {indices : List UInt32} {values : List Binary32} {b : Buffers} {slots : Array Slot}
      (hfresh : p.bindSparseRow indices values p.newSlots = .ok (slots, .ok ())) :
      Leaves p (.bindSparseRow indices values) b ⟨slots, b.output⟩ (.ok ())
  | scored {b : Buffers} {output : Array Binary32}
      (hany : ∀ old, old.size = p.groupCount → p.scoreSlots b.slots old = .ok output) :
      Leaves p .scoreSlots b ⟨b.slots, output⟩ (.ok ())
  | predicted {row : Array Binary32} {b : Buffers} {slots : Array Slot} {output : Array Binary32}
      (halone : p.predictRow row = .ok (.ok output))
      (hfresh : p.bindRow row p.newSlots = .ok (slots, .ok ())) :
      Leaves p (.predictRow row) b ⟨slots, output⟩ (.ok ())

theorem call_bindRow {b : Buffers} {row : Array Binary32} {slots : Array Slot}
    {r : Except PredictorError Unit} (h : p.bindRow row b.slots = .ok (slots, r)) :
    p.call b (.bindRow row) = .ok (⟨slots, b.output⟩, r) := by
  simp only [call, h, ok_bind, pure_eq_ok]

theorem call_bindSparseRow {b : Buffers} {indices : List UInt32} {values : List Binary32}
    {slots : Array Slot} {r : Except PredictorError Unit}
    (h : p.bindSparseRow indices values b.slots = .ok (slots, r)) :
    p.call b (.bindSparseRow indices values) = .ok (⟨slots, b.output⟩, r) := by
  simp only [call, h, ok_bind, pure_eq_ok]

theorem call_scoreSlots (hp : p.Sound) {b : Buffers} (hout : b.output.size = p.groupCount) :
    p.call b .scoreSlots = .ok (⟨b.slots, p.scores b.slots⟩, .ok ()) := by
  simp only [call, scoreSlots_eq hp b.slots hout, ok_bind, pure_eq_ok]

theorem call_predictRow_ok (hp : p.Sound) {b : Buffers} (hout : b.output.size = p.groupCount)
    {row : Array Binary32} {slots : Array Slot}
    (h : p.bindRow row b.slots = .ok (slots, .ok ())) :
    p.call b (.predictRow row) = .ok (⟨slots, p.scores slots⟩, .ok ()) := by
  simp only [call, predictRowInto, h, ok_bind, scoreSlots_eq hp slots hout, pure_eq_ok]

theorem call_predictRow_error {b : Buffers} {row : Array Binary32} {slots : Array Slot}
    {e : PredictorError} (h : p.bindRow row b.slots = .ok (slots, .error e)) :
    p.call b (.predictRow row) = .ok (⟨slots, b.output⟩, .error e) := by
  simp only [call, predictRowInto, h, ok_bind, pure_eq_ok]

/-- Every call answers, and what it leaves does not depend on what the buffers held. -/
theorem call_leaves (hp : p.Sound) (hc : p.coder.Total) {b : Buffers}
    (hout : b.output.size = p.groupCount) (c : Call) :
    ∃ b' r, p.call b c = .ok (b', r) ∧ b'.output.size = p.groupCount ∧ p.Leaves c b b' r := by
  cases c with
  | bindRow row =>
    obtain ⟨slots, r, hbind⟩ := bindRow_answers hc row b.slots
    refine ⟨_, _, call_bindRow hbind, hout, ?_⟩
    rcases bindRow_cases hbind with ⟨rfl, _, hd⟩ | ⟨e, rfl, rfl, halone⟩
    · exact .bound (bindRow_ok p.size_newSlots hd)
    · exact .refused nofun fun hsize => congrArg some (halone hsize)
  | bindSparseRow indices values =>
    obtain ⟨slots, r, hbind⟩ := bindSparseRow_answers hc indices values b.slots
    refine ⟨_, _, call_bindSparseRow hbind, hout, ?_⟩
    rcases bindSparseRow_cases hbind with ⟨rfl, _, hd⟩ | ⟨e, rfl, rfl, halone⟩
    · exact .boundSparse (bindSparseRow_ok p.size_newSlots hd)
    · exact .refused nofun fun hsize => congrArg some (halone hsize)
  | scoreSlots =>
    exact ⟨_, _, call_scoreSlots hp hout, size_scores hp b.slots,
      .scored fun _ hold => scoreSlots_eq hp b.slots hold⟩
  | predictRow row =>
    obtain ⟨slots, r, hbind⟩ := bindRow_answers hc row b.slots
    rcases bindRow_cases hbind with ⟨rfl, _, hd⟩ | ⟨e, rfl, rfl, halone⟩
    · exact ⟨_, _, call_predictRow_ok hp hout hbind, size_scores hp slots,
        .predicted (predictRow_ok hp hd) (bindRow_ok p.size_newSlots hd)⟩
    · exact ⟨_, _, call_predictRow_error hbind, hout,
        .refused nofun fun hsize => congrArg some (halone hsize)⟩

theorem Leaves.slots_eq {c : Call} {b b' : Buffers} {r : Except PredictorError Unit}
    (h : p.Leaves c b b' r) (hr : c = .scoreSlots ∨ r ≠ .ok ()) : b'.slots = b.slots := by
  cases h with
  | refused => rfl
  | scored => rfl
  | bound => simp at hr
  | boundSparse => simp at hr
  | predicted => simp at hr

/-- The slots that an accepted row leaves are scored as the row is alone. -/
theorem Leaves.alone_eq (hp : p.Sound) {c : Call} {b b' : Buffers} (h : p.Leaves c b b' (.ok ()))
    (hc : c ≠ .scoreSlots) : p.alone c = some (.ok (.ok (p.scores b'.slots))) := by
  cases h with
  | bound hfresh => exact congrArg some (predictRow_of_bound hp hfresh)
  | boundSparse hfresh => exact congrArg some (predictSparseRow_of_bound hp hfresh)
  | scored => exact absurd rfl hc
  | predicted _ hfresh => exact congrArg some (predictRow_of_bound hp hfresh)

theorem run_cons {b next last : Buffers} {c : Call} {calls : List Call}
    {r : Except PredictorError Unit} {results : List (Except PredictorError Unit)}
    (hcall : p.call b c = .ok (next, r)) (hrun : p.run next calls = .ok (last, results)) :
    p.run b (c :: calls) = .ok (last, r :: results) := by
  simp only [run, hcall, ok_bind, hrun, pure_eq_ok]

theorem run_append {b next last : Buffers} {before calls : List Call}
    {earlier later : List (Except PredictorError Unit)}
    (hbefore : p.run b before = .ok (next, earlier))
    (hrun : p.run next calls = .ok (last, later)) :
    p.run b (before ++ calls) = .ok (last, earlier ++ later) := by
  induction before generalizing b earlier with
  | nil =>
    cases hbefore
    exact hrun
  | cons c before ih =>
    obtain ⟨⟨middle, r⟩, hcall, hbefore⟩ := bind_eq_ok_iff.mp hbefore
    obtain ⟨⟨_, results⟩, hrest, hbefore⟩ := bind_eq_ok_iff.mp hbefore
    cases hbefore
    exact run_cons hcall (ih hrest)

/-- Calls on buffers answer, one after the other. -/
theorem run_answers (hp : p.Sound) (hc : p.coder.Total) {b : Buffers}
    (hout : b.output.size = p.groupCount) (calls : List Call) :
    ∃ b' results, p.run b calls = .ok (b', results) ∧ b'.output.size = p.groupCount := by
  induction calls generalizing b with
  | nil => exact ⟨b, [], rfl, hout⟩
  | cons c calls ih =>
    obtain ⟨next, r, hcall, hnext, _⟩ := call_leaves hp hc hout c
    obtain ⟨last, results, hrun, hlast⟩ := ih hnext
    exact ⟨last, r :: results, run_cons hcall hrun, hlast⟩

/-- Calls that are refused or only score leave the slots as they are. -/
theorem run_keeps_slots (hp : p.Sound) (hc : p.coder.Total) {b b' : Buffers}
    (hout : b.output.size = p.groupCount) {calls : List Call}
    {results : List (Except PredictorError Unit)} (h : p.run b calls = .ok (b', results))
    (hidle : ∀ cr ∈ calls.zip results, cr.1 = .scoreSlots ∨ cr.2 ≠ .ok ()) :
    b'.slots = b.slots ∧ b'.output.size = p.groupCount := by
  induction calls generalizing b results with
  | nil =>
    cases h
    exact ⟨rfl, hout⟩
  | cons c calls ih =>
    obtain ⟨⟨next, r⟩, hcall, h⟩ := bind_eq_ok_iff.mp h
    obtain ⟨⟨last, results'⟩, hrun, h⟩ := bind_eq_ok_iff.mp h
    cases h
    rw [List.zip_cons_cons, List.forall_mem_cons] at hidle
    obtain ⟨_, _, hcall', hnext, hleaves⟩ := call_leaves hp hc hout c
    cases hcall'.symm.trans hcall
    obtain ⟨hslots, hlast⟩ := ih hnext hrun hidle.2
    exact ⟨hslots.trans (hleaves.slots_eq hidle.1), hlast⟩

/-- Buffers can be shared. Calls on the same buffers all answer, in any order; each of them leaves
what it would leave in fresh buffers, or, if it is refused, what it found; and slots are scored as
the row that was accepted last is alone, whatever was refused or scored since. -/
theorem shared_buffers {scale : Scale} {f : Forest} {s : Settings}
    (hp : create scale f s = .ok p)
    (ht : ∀ table, f.table = some table →
      ∃ thresholds offsets, ThresholdTable.ofParts thresholds offsets = .ok table)
    {b : Buffers} (hout : b.output.size = p.groupCount) :
    (∀ before c rest, ∃ old earlier new result last later,
      p.run b before = .ok (old, earlier) ∧ p.call old c = .ok (new, result) ∧
        p.run new rest = .ok (last, later) ∧
        p.run b (before ++ c :: rest) = .ok (last, earlier ++ result :: later) ∧
        p.Leaves c old new result) ∧
      ∀ c bound calls last results, c ≠ .scoreSlots → p.call b c = .ok (bound, .ok ()) →
        p.run bound calls = .ok (last, results) →
        (∀ cr ∈ calls.zip results, cr.1 = .scoreSlots ∨ cr.2 ≠ .ok ()) →
        ∃ output, p.scoreSlots last.slots last.output = .ok output ∧
          p.alone c = some (.ok (.ok output)) := by
  have hsound := sound_of_create hp
  have htotal : p.coder.Total := total_of_create hp fun table htable => by
    obtain ⟨thresholds, offsets, hparts⟩ := ht table htable
    exact (ThresholdTable.ofParts_ok hparts).2
  constructor
  · intro before c rest
    obtain ⟨old, earlier, hbefore, hold⟩ := run_answers hsound htotal hout before
    obtain ⟨new, result, hcall, hnew, hleaves⟩ := call_leaves hsound htotal hold c
    obtain ⟨last, later, hrest, _⟩ := run_answers hsound htotal hnew rest
    exact ⟨old, earlier, new, result, last, later, hbefore, hcall, hrest,
      run_append hbefore (run_cons hcall hrest), hleaves⟩
  · intro c bound calls last results hc hcall hrun hidle
    obtain ⟨_, _, hcall', hbound, hleaves⟩ := call_leaves hsound htotal hout c
    cases hcall'.symm.trans hcall
    obtain ⟨hslots, hlast⟩ := run_keeps_slots hsound htotal hbound hrun hidle
    exact ⟨_, scoreSlots_eq hsound last.slots hlast, hslots ▸ hleaves.alone_eq hsound hc⟩

/-- A row of zeros is predicted in buffers of NaNs; after that a row that is too short and a
position that is too large are refused, with a scoring in between. -/
theorem shared_buffers_stairPredictor :
    ∃ bound last results output,
      stairPredictor.call ⟨#[.ofFloat .quietNaN, .ofFloat .quietNaN], #[.quietNaN, .quietNaN]⟩
        (.predictRow #[.zero, .zero]) = .ok (bound, .ok ()) ∧
      stairPredictor.run bound [.bindRow #[.zero], .scoreSlots, .bindSparseRow [2] [.zero]] =
        .ok (last, results) ∧
      stairPredictor.scoreSlots last.slots last.output = .ok output ∧
      stairPredictor.predictRow #[.zero, .zero] = .ok (.ok output) := by
  have ht : ∀ table, Forest.codedStaircases.table = some table →
      ∃ thresholds offsets, ThresholdTable.ofParts thresholds offsets = .ok table := by
    intro table htable
    cases htable
    exact ⟨_, _, Forest.ofParts_staircaseTable⟩
  let b : Buffers := ⟨#[.ofFloat .quietNaN, .ofFloat .quietNaN], #[.quietNaN, .quietNaN]⟩
  have hout : b.output.size = stairPredictor.groupCount := rfl
  have hresults : (stairPredictor.call b (.predictRow #[.zero, .zero]) >>= fun r =>
      (stairPredictor.run r.1 [.bindRow #[.zero], .scoreSlots, .bindSparseRow [2] [.zero]]).map
        fun r' => (r.2, r'.2)) =
      .ok (.ok (), [.error (.featureCount 2 1), .ok (),
        .error (.bind (.featureOutOfRange 2 2))]) := by
    decide +kernel
  obtain ⟨⟨bound, r⟩, hcall, hresults⟩ := bind_eq_ok_iff.mp hresults
  obtain ⟨⟨last, results⟩, hrun, hresults⟩ := map_eq_ok_iff.mp hresults
  cases hresults
  obtain ⟨output, hscore, halone⟩ := (shared_buffers create_stairPredictor ht hout).2
    (.predictRow #[.zero, .zero]) bound _ last _ nofun hcall hrun (by decide)
  exact ⟨bound, last, _, output, hcall, hrun, hscore, Option.some.inj halone⟩

end TreeEnsemble.Predictor
