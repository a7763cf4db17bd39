import StyleFactor.Value.Display
import StyleFactor.Grouping.Basic

/-!
Groupings as messages show them.
-/
namespace StyleFactor

def Grouping.displayWith {α : Type} (item : α → String) (selectors : List String)
    (ds : List (Declaration α)) : String :=
  "Grouping(" ++ ",".intercalate selectors ++ "\x7b" ++
    ";".intercalate (ds.map fun d => item d.property ++ ":" ++ item d.value) ++ "\x7d)"

def Grouping.display (g : Grouping String) : String :=
  Grouping.displayWith id g.selectors g.declarations

def displayDeclarations (ds : List (Declaration String)) : String :=
  (Value.list (ds.map fun d => .pair (.text d.property) (.text d.value))).display

end StyleFactor
