import StyleFactor.Value.Display
import StyleFactor.Draft.Basic

/-!
Entries and documents as messages show them.
-/
namespace StyleFactor

/-- The fields a bare entry has, with their names, in the order of these. -/
def Draft.bareFields (type selectors declarations : Option Value) : List String :=
  [("declarations", declarations), ("selectors", selectors), ("type", type)].filterMap
    fun (name, v) => v.map fun v => name ++ "=" ++ v.display

def Draft.display : Draft → String
  | .rule ss ds _ => "Rule(" ++ ss.plain ++ "," ++ ds.plain ++ ")"
  | .fontFace ds _ => "FontFace(" ++ ds.plain ++ ")"
  | .atRule a => "AtRule(@" ++ a.name ++ " " ++ a.prelude ++ ")"
  | .comment c => "Comment(" ++ c.text ++ ")"
  | .whitespace s => "Whitespace(" ++ Text.quoted s ++ ")"
  | .bare t ss ds => "namespace(" ++ ", ".intercalate (bareFields t ss ds) ++ ")"

def Document.display (d : Document) : String := ",".intercalate (d.entries.map Draft.display)

end StyleFactor
