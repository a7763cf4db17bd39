import StyleFactor.Sheet.Parse
import StyleFactor.Proofs.Grammar.Token

/-!
Sheets that can be written: each text an entry holds is one the grammar reads at its place to the
end, and one that reading leaves as it is. Nothing that starts like a comment may stand where a
comment would be skipped.
-/
namespace StyleFactor

open Grammar

/-- The grammar takes the selector whole, and quotes inside brackets are closed. -/
structure WellFormedSelector (s : String) : Prop where
  read : Entire closedSelector s.toList
  collapsed : Text.collapse s.toList = s.toList
  plain : ¬['/', '*'] <+: s.toList

structure Decl.WellFormed (d : Decl) : Prop where
  property : Entire propertyText d.property.toList
  value : Entire valueText d.value.toList
  trimmed : Text.trim d.value.toList = d.value.toList
  plain : ¬['/', '*'] <+: d.value.toList

structure Rule.WellFormed (r : Rule) : Prop where
  nonempty : r.selectors ≠ []
  selectors : ∀ s ∈ r.selectors, WellFormedSelector s
  declarations : ∀ d ∈ r.declarations, d.WellFormed

structure AtRule.WellFormed (a : AtRule) : Prop where
  name : Entire Grammar.name a.name.toList
  notFontFace : a.name ≠ "font-face"
  prelude : Entire preludeText a.prelude.toList
  collapsed : Text.collapse a.prelude.toList = a.prelude.toList
  body : ∀ b ∈ a.body, Entire atbody b.toList

/-- An entry that is read back as it is written. -/
def Entry.WellFormed : Entry → Prop
  | .rule r => r.WellFormed
  | .fontFace f => ∀ d ∈ f.declarations, d.WellFormed
  | .atRule a => a.WellFormed
  | .comment c => ¬['*', '/'] <:+: c.text.toList
  | .whitespace s => s.toList ≠ [] ∧ ∀ c ∈ s.toList, isSpace c = true

def Sheet.WellFormed (d : Sheet) : Prop := ∀ e ∈ d.entries, e.WellFormed

end StyleFactor
