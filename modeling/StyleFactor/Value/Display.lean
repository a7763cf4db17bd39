import StyleFactor.Text.Quoted
import StyleFactor.Value.Basic

/-!
Values as messages show them. A text inside another value is quoted, except as a side of a
declaration in an entry.
-/
namespace StyleFactor

def Text.Marker.display (m : Text.Marker) : String :=
  "Marker(line=" ++ toString m.line ++ ", column=" ++ toString m.column ++ ")"

def displayPosition : Option Position → String
  | none => "None"
  | some p => "Position(start=" ++ p.start.display ++ ", end=" ++ p.stop.display ++
      ", source=" ++ (p.source.map Text.quoted).getD "None" ++ ")"

namespace Value

mutual

/-- The text of a value; if it is one itself, `quote` says whether it gets its quotes. -/
def shown (quote : Bool) : Value → String
  | .null => "None"
  | .bool true => "True"
  | .bool false => "False"
  | .int n => toString n
  | .text s => if quote then Text.quoted s else s
  | .list xs => "[" ++ ", ".intercalate (displays xs) ++ "]"
  | .tuple xs =>
    match displays xs with
    | [x] => "(" ++ x ++ ",)"
    | ds => "(" ++ ", ".intercalate ds ++ ")"
  | .table fs => "\x7b" ++ ", ".intercalate (displayFields fs) ++ "\x7d"
  | .pair p v => "Declaration(property=" ++ shown true p ++ ", value=" ++ shown true v ++ ")"
  | .stream _ => "<stream>"
  | .decl p v _ => "Decl(" ++ shown false p ++ ":" ++ shown false v ++ ")"
  | .loose fs => "namespace(" ++ ", ".intercalate (displayNamed fs) ++ ")"

def displays : List Value → List String
  | [] => []
  | x :: xs => shown true x :: displays xs

def displayFields : List (String × Value) → List String
  | [] => []
  | (name, x) :: fs => (Text.quoted name ++ ": " ++ shown true x) :: displayFields fs

def displayNamed : List (String × Value) → List String
  | [] => []
  | (name, x) :: fs => (name ++ "=" ++ shown true x) :: displayNamed fs

end

def display (v : Value) : String := shown true v

def plain (v : Value) : String := shown false v

end Value

def displayTexts (ss : List String) : String := (Value.list (ss.map .text)).display

end StyleFactor
