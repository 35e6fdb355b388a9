import Mathlib.Data.List.DropRight
import TreeEnsemble.Text.Blank

/-!
Text without the white space around it. Padding a text with white space does not change what
trimming leaves, and trimming takes off the longest beginning and the longest end of white space.
-/

namespace TreeEnsemble.Text

/-- The code points of the characters with the property White_Space. -/
def whiteSpace : List Nat :=
  [0x9, 0xa, 0xb, 0xc, 0xd, 0x20, 0x85, 0xa0, 0x1680, 0x2000, 0x2001, 0x2002, 0x2003, 0x2004,
    0x2005, 0x2006, 0x2007, 0x2008, 0x2009, 0x200a, 0x2028, 0x2029, 0x202f, 0x205f, 0x3000]

/-- A text of white space only. -/
def Blanks (t : List Char) : Prop := ∀ c ∈ t, c.toNat ∈ whiteSpace

/-- A text is padded with white space. -/
def Pads (t s : List Char) : Prop :=
  ∃ before after, Blanks before ∧ Blanks after ∧ s = before ++ t ++ after

/-- The longest white space at the beginning of a text. -/
structure Leads (before s : List Char) : Prop where
  blanks : Blanks before
  starts : before <+: s
  longest : ∀ q, q <+: s → Blanks q → q <+: before

/-- The longest white space at the end of a text. -/
structure Trails (after s : List Char) : Prop where
  blanks : Blanks after
  ends : after <:+ s
  longest : ∀ q, q <:+ s → Blanks q → q <:+ after

/-- What is left of a text without the longest white space at its beginning, and then without the
longest at the end of the rest. -/
def Strips (s core : List Char) : Prop :=
  ∃ before rest after, s = before ++ rest ∧ Leads before s ∧
    rest = core ++ after ∧ Trails after rest

theorem isBlank_iff (c : Char) : isBlank c = true ↔ c.toNat ∈ whiteSpace := by
  simp only [isBlank, whiteSpace, List.mem_cons, List.not_mem_nil, Bool.or_eq_true,
    Bool.and_eq_true, decide_eq_true_eq, beq_iff_eq, or_false]
  omega

theorem blanks_iff {t : List Char} : Blanks t ↔ ∀ c ∈ t, isBlank c = true :=
  forall₂_congr fun c _ => (isBlank_iff c).symm

theorem blanks_reverse {t : List Char} : Blanks t.reverse ↔ Blanks t := by
  simp only [Blanks, List.mem_reverse]

theorem leads_takeWhile (s : List Char) : Leads (s.takeWhile isBlank) s where
  blanks := blanks_iff.mpr fun _ => List.mem_takeWhile_imp
  starts := List.takeWhile_prefix isBlank
  longest := by
    rintro q ⟨rest, rfl⟩ hq
    rw [List.takeWhile_append_of_pos (blanks_iff.mp hq)]
    exact List.prefix_append q _

theorem trails_rtakeWhile (s : List Char) : Trails (s.rtakeWhile isBlank) s where
  blanks := blanks_iff.mpr fun _ => List.mem_rtakeWhile_imp
  ends := List.rtakeWhile_suffix isBlank s
  longest := by
    intro q hends hq
    have hrev := List.reverse_prefix.mpr hends
    have hlongest := (leads_takeWhile s.reverse).longest q.reverse hrev (blanks_reverse.mpr hq)
    refine List.reverse_prefix.mp ?_
    rwa [List.rtakeWhile, List.reverse_reverse]

theorem trimLeft_append {before : List Char} (h : Blanks before) (s : List Char) :
    trimLeft (before ++ s) = trimLeft s := List.dropWhile_append_of_pos (blanks_iff.mp h)

theorem trimLeft_eq_nil {t : List Char} : trimLeft t = [] ↔ Blanks t :=
  List.dropWhile_eq_nil_iff.trans blanks_iff.symm

theorem trimRight_append {after : List Char} (h : Blanks after) (s : List Char) :
    trimRight (s ++ after) = trimRight s := by
  rw [trimRight, List.reverse_append, trimLeft_append (blanks_reverse.mpr h)]
  rfl

/-- White space around a text does not change what is left of it. -/
theorem trim_of_pads {t s : List Char} (h : Pads t s) : trim s = trim t := by
  obtain ⟨before, after, hb, ha, rfl⟩ := h
  rw [List.append_assoc, trim, trimLeft_append hb, trim]
  by_cases ht : Blanks t
  · rw [trimLeft_append ht, trimLeft_eq_nil.mpr ha, trimLeft_eq_nil.mpr ht]
  · have hcut : trimLeft (t ++ after) = trimLeft t ++ after := by
      rw [trimLeft, List.dropWhile_append, if_neg]
      · rfl
      · exact fun hempty => ht (trimLeft_eq_nil.mp (List.isEmpty_iff.mp hempty))
    rw [hcut, trimRight_append ha]

/-- Trimming takes all white space off both ends. -/
theorem strips_trim (s : List Char) : Strips s (trim s) :=
  ⟨s.takeWhile isBlank, trimLeft s, (trimLeft s).rtakeWhile isBlank,
    List.takeWhile_append_dropWhile.symm, leads_takeWhile s,
    List.rdropWhile_append_rtakeWhile.symm, trails_rtakeWhile (trimLeft s)⟩

theorem Strips.pads {s core : List Char} (h : Strips s core) : Pads core s := by
  obtain ⟨before, rest, after, rfl, hb, rfl, ha⟩ := h
  exact ⟨before, after, hb.blanks, ha.blanks, (List.append_assoc before core after).symm⟩

theorem trim_trim (s : List Char) : trim (trim s) = trim s :=
  (trim_of_pads (strips_trim s).pads).symm

end TreeEnsemble.Text
