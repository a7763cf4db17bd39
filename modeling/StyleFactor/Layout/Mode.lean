import StyleFactor.Layout.Settings

/-!
The stack of modes. Leaving a mode presets the one below it again, so what was set by hand in
between is lost, the indentation apart.
-/
namespace StyleFactor

/-- The modes entered and not left, innermost first, and the options in force. -/
structure Modes where
  stack : List Mode
  settings : Settings
  deriving Inhabited

namespace Modes

def start : Modes := ⟨[], Layout.canonical.toSettings⟩

/-- The mode in force: outside of all modes it is the canonical one. -/
def current (stack : List Mode) : Mode := stack.headD .canonical

def push (m : Mode) (s : Modes) : Modes := ⟨m :: s.stack, m.preset s.settings⟩

def pop (s : Modes) : Option (Mode × Modes) :=
  match s.stack with
  | [] => none
  | m :: rest => some (m, ⟨rest, (current rest).preset s.settings⟩)

end Modes

end StyleFactor
