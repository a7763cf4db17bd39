import StyleFactor.Layout.Basic
import StyleFactor.Value.Basic

/-!
Options that nobody has checked: anything can be set in the place of each. Switches are on unless
what they are set to counts as nothing; the indentation has to be a text, but only where it is
written. Every layout gives settings (`Layout.toSettings`), and is what they stand for
(`layout_toSettings`).
-/
namespace StyleFactor

structure Settings where
  minify : Value
  indent : Value
  blockIndent : Value
  valueSpace : Value
  lastSemicolon : Value
  deriving Inhabited

def Layout.toSettings (l : Layout) : Settings :=
  ⟨.bool l.minify, .text l.indent, .bool l.blockIndent, .bool l.valueSpace, .bool l.lastSemicolon⟩

namespace Settings

/-- The layout that settings stand for, as long as no indentation has to be written that is not a
text. -/
def layout (s : Settings) : Layout :=
  ⟨!s.minify.isNothing, s.indent.text?.getD "", !s.blockIndent.isNothing, !s.valueSpace.isNothing,
    !s.lastSemicolon.isNothing⟩

theorem layout_toSettings (l : Layout) : l.toSettings.layout = l := by
  simp [Layout.toSettings, layout, Value.isNothing, Value.text?]

end Settings

/-- Sets every option the mode decides, which is all but the indentation. -/
def Mode.preset (m : Mode) (s : Settings) : Settings :=
  { m.layout.toSettings with indent := s.indent }

end StyleFactor
