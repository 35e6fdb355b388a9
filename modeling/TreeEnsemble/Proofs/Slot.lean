import TreeEnsemble.Slot

/-!
Slots over their histories. A slot may be made in several ways, written, or made again from its own
content, and numbers and bins share its payload. Every event takes the slot of one content to the
slot of another, so the payload is 0 where it means nothing and a slot is known by its content; and a
write forgets all that was before it.
-/

namespace TreeEnsemble.Slot

inductive Write where
  | float (x : Binary32)
  | bin (n : Int32)
  | missing
  deriving DecidableEq

/-- What can happen to a slot. It is replaced by a new one, written, or made again from its own
content. -/
inductive Event where
  | unwritten
  | ofFloat (x : Binary32)
  | ofBin (n : Int32)
  | missing
  | ofValue (v : SlotValue)
  | write (w : Write)
  | remake
  deriving DecidableEq

def write (s : Slot) : Write → Slot
  | .float x => s.setFloat x
  | .bin n => s.setBin n
  | .missing => s.setMissing

def after (s : Slot) : Event → Slot
  | .unwritten => .unwritten
  | .ofFloat x => .ofFloat x
  | .ofBin n => .ofBin n
  | .missing => .missing
  | .ofValue v => .ofValue v
  | .write w => s.write w
  | .remake => .ofValue s.value

/-- A new slot after a list of events. -/
def ofHistory (history : List Event) : Slot := history.foldl after .unwritten

/-- A slot without content has the payload 0. -/
def Canonical (s : Slot) : Prop := s.mode = .unwritten ∨ s.mode = .missing → s.payload = 0

/-- Which of the three kinds of content a slot reports. -/
def reports (s : Slot) : List Bool := [s.isMissing, s.float?.isSome, s.bin?.isSome]

/-- What was written is read back, with the same bits. -/
def Shows (s : Slot) : Write → Prop
  | .float x => s.float? = some x ∧ s.asFloat.bits = x.bits
  | .bin n => s.bin? = some n ∧ s.asBin = n
  | .missing => s.isMissing = true

def Write.value : Write → SlotValue
  | .float x => .float x
  | .bin n => .bin n
  | .missing => .missing

/-- What an event makes of a content. -/
def contentAfter (v : SlotValue) : Event → SlotValue
  | .unwritten => .unwritten
  | .ofFloat x => .float x
  | .ofBin n => .bin n
  | .missing => .missing
  | .ofValue v => v
  | .write w => w.value
  | .remake => v

theorem value_ofValue (v : SlotValue) : (ofValue v).value = v := by
  cases v with
  | bin n => exact congrArg SlotValue.bin (Int32.toInt32_toUInt32 n)
  | _ => rfl

theorem canonical_ofValue (v : SlotValue) : (ofValue v).Canonical := by
  cases v with
  | unwritten => exact fun _ => rfl
  | float x => exact fun h => by rcases h with h | h <;> nomatch h
  | bin n => exact fun h => by rcases h with h | h <;> nomatch h
  | missing => exact fun _ => rfl

/-- The canonical slots are those of their own content. -/
theorem ofValue_value_iff {s : Slot} : ofValue s.value = s ↔ s.Canonical := by
  refine ⟨fun h => h ▸ canonical_ofValue s.value, fun h => ?_⟩
  obtain ⟨payload, mode⟩ := s
  cases mode with
  | unwritten =>
    have hzero : payload = 0 := h (.inl rfl)
    rw [hzero]
    rfl
  | float => rfl
  | bin => exact congrArg (Slot.mk · .bin) (UInt32.toUInt32_toInt32 payload)
  | missing =>
    have hzero : payload = 0 := h (.inr rfl)
    rw [hzero]
    rfl

theorem write_eq (s : Slot) (w : Write) : s.write w = ofValue w.value := by
  cases w with
  | float x => rfl
  | bin n => rfl
  | missing => rfl

theorem after_ofValue (v : SlotValue) (e : Event) :
    (ofValue v).after e = ofValue (contentAfter v e) := by
  cases e with
  | write w => exact write_eq _ w
  | remake => exact congrArg ofValue (value_ofValue v)
  | _ => rfl

/-- The slot after a history is that of the content after it. -/
theorem ofHistory_eq (history : List Event) :
    ofHistory history = ofValue (history.foldl contentAfter .unwritten) := by
  show history.foldl after (ofValue .unwritten) = _
  exact List.foldl_hom ofValue after_ofValue

theorem canonical_ofHistory (history : List Event) : (ofHistory history).Canonical :=
  ofHistory_eq history ▸ canonical_ofValue _

theorem ofHistory_snoc_write (history : List Event) (w : Write) :
    ofHistory (history ++ [.write w]) = ofValue w.value := by
  rw [ofHistory, List.foldl_append]
  exact write_eq _ w

theorem reports_ofValue (w : Write) : (ofValue w.value).reports.count true = 1 := by
  cases w with
  | float x => rfl
  | bin n => rfl
  | missing => rfl

theorem shows_ofValue (w : Write) : (ofValue w.value).Shows w := by
  cases w with
  | float x => exact ⟨rfl, rfl⟩
  | bin n =>
    have hbin : (ofValue (.bin n)).asBin = n := Int32.toInt32_toUInt32 n
    exact ⟨congrArg some hbin, hbin⟩
  | missing => rfl

/-- A slot has a history just if its payload is 0 where it means nothing. Then it can be made again
from its content, and slots of the same content are the same in mode and payload. A last write alone
decides the slot, which reports one kind of content and has the bits that were written. -/
theorem histories_are_canonical :
    (∀ s : Slot, (∃ history, ofHistory history = s) ↔
      (s.mode = .unwritten ∨ s.mode = .missing → s.payload = 0)) ∧
    (∀ history, ofValue (ofHistory history).value = ofHistory history) ∧
    (∀ history other, ofHistory history = ofHistory other ↔
      (ofHistory history).value = (ofHistory other).value) ∧
    ∀ history w, ofHistory (history ++ [.write w]) = ofHistory [.write w] ∧
      (ofHistory (history ++ [.write w])).reports.count true = 1 ∧
      (ofHistory (history ++ [.write w])).Shows w := by
  have hself : ∀ history, ofValue (ofHistory history).value = ofHistory history :=
    fun history => ofValue_value_iff.mpr (canonical_ofHistory history)
  refine ⟨fun s => ⟨?_, fun h => ?_⟩, hself, fun history other => ⟨fun h => h ▸ rfl, fun h => ?_⟩,
    fun history w => ?_⟩
  · rintro ⟨history, rfl⟩
    exact canonical_ofHistory history
  · exact ⟨[.ofValue s.value], ofValue_value_iff.mpr h⟩
  · rw [← hself history, h, hself other]
  · have hlast := ofHistory_snoc_write history w
    exact ⟨hlast.trans (ofHistory_snoc_write [] w).symm, hlast ▸ reports_ofValue w,
      hlast ▸ shows_ofValue w⟩

/-- A bin, the content made again, and a NaN with a payload of its own. -/
example : (ofHistory [.ofBin (-1), .remake, .write .missing, .remake,
    .write (.float ⟨0xffc00001⟩)]).float? = some ⟨0xffc00001⟩ := rfl

end TreeEnsemble.Slot
