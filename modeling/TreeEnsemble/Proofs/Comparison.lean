import TreeEnsemble.Comparison
import TreeEnsemble.Proofs.Text

/-!
The reader of comparisons. It accepts the symbols with any white space around them and nothing else,
and an error holds the text without that white space, so white space inside a symbol is never
skipped.
-/

namespace TreeEnsemble.Comparison

theorem ofSymbol?_eq_some_iff {t : List Char} {c : Comparison} :
    ofSymbol? t = some c ↔ t = c.symbol.toList := by
  refine ⟨fun h => ?_, fun h => h ▸ ofSymbol?_symbol c⟩
  unfold ofSymbol? at h
  split at h
  all_goals cases h
  all_goals rfl

theorem parse_symbol {s : String} {c : Comparison}
    (h : ofSymbol? (Text.trim s.toList) = some c) : parse s = .ok c := by
  simp only [parse, h]

theorem parse_unknown {s : String} (h : ofSymbol? (Text.trim s.toList) = none) :
    parse s = .error ⟨String.ofList (Text.trim s.toList)⟩ := by
  simp only [parse, h]

theorem parse_ok_iff {s : String} {c : Comparison} :
    parse s = .ok c ↔ ofSymbol? (Text.trim s.toList) = some c := by
  refine ⟨fun h => ?_, parse_symbol⟩
  cases hsymbol : ofSymbol? (Text.trim s.toList) with
  | none => cases (parse_unknown hsymbol).symm.trans h
  | some d =>
    cases (parse_symbol hsymbol).symm.trans h
    rfl

/-- A symbol has no white space at its ends. -/
theorem trim_symbol (c : Comparison) : Text.trim c.symbol.toList = c.symbol.toList := by
  cases c <;> rfl

theorem ofSymbol?_trim_iff {s : List Char} {c : Comparison} :
    ofSymbol? (Text.trim s) = some c ↔ Text.Pads c.symbol.toList s := by
  rw [ofSymbol?_eq_some_iff]
  refine ⟨fun h => h ▸ (Text.strips_trim s).pads, fun h => ?_⟩
  rw [Text.trim_of_pads h, trim_symbol]

/-- A text is read as a comparison just if it is the symbol of the comparison between white space of
any length. Of any other text the error holds what is left without the white space around it, and
that text is refused with the same error. -/
theorem parse_accepts_padded_symbols :
    (∀ s c, parse s = .ok c ↔ Text.Pads c.symbol.toList s.toList) ∧
    (∀ c before after, Text.Blanks before → Text.Blanks after →
      parse (String.ofList before ++ c.symbol ++ String.ofList after) = .ok c) ∧
    ∀ s, (∀ c : Comparison, ¬Text.Pads c.symbol.toList s.toList) →
      ∃ e, parse s = .error e ∧ Text.Strips s.toList e.text.toList ∧ parse e.text = .error e := by
  have hok : ∀ s c, parse s = .ok c ↔ Text.Pads c.symbol.toList s.toList :=
    fun s c => parse_ok_iff.trans ofSymbol?_trim_iff
  refine ⟨hok, fun c before after hb ha => ?_, fun s hs => ?_⟩
  · refine (hok _ c).mpr ⟨before, after, hb, ha, ?_⟩
    simp only [String.toList_append, String.toList_ofList]
  · have hnone : ofSymbol? (Text.trim s.toList) = none :=
      Option.eq_none_iff_forall_ne_some.mpr fun c hc => hs c (ofSymbol?_trim_iff.mp hc)
    have hcore : Text.trim (String.ofList (Text.trim s.toList)).toList = Text.trim s.toList := by
      rw [String.toList_ofList, Text.trim_trim]
    refine ⟨_, parse_unknown hnone, ?_, ?_⟩
    · rw [String.toList_ofList]
      exact Text.strips_trim s.toList
    · rw [parse_unknown (hcore.symm ▸ hnone), hcore]

/-- White space inside a symbol counts. -/
example : parse " < =\n" = .error ⟨"< ="⟩ := by decide

end TreeEnsemble.Comparison
