import StyleFactor.Value.Display
import StyleFactor.Draft.Basic
import StyleFactor.Grouping.Basic

/-!
Groupings from entries that nobody has checked, and back. Every item of the selectors has to be a
text that is not empty, and every item of the declarations has to have texts on both sides.
Selectors that are given as a single text are looked at character by character, but taken as one
selector, so that an empty text passes. A stream of selectors has been used up by looking at it.
-/
namespace StyleFactor

inductive Malformed where
  | noSelectors
  | noDeclarations
  | badSelector (v : Value)
  | badDeclaration (v : Value)

def Malformed.message : Malformed → String
  | noSelectors => "rule has no selectors"
  | noDeclarations => "rule has no declarations"
  | badSelector v => "bad selector " ++ v.display
  | badDeclaration v => "bad declaration " ++ v.display

/-- Why an entry gives no grouping: it was looked at and refused, or could not be looked at. -/
inductive Refusal where
  | malformed (m : Malformed)
  | fault (f : Fault)

def Fault.refuse {α : Type} : Except Fault α → Except Refusal α := Except.mapError Refusal.fault

namespace Value

def checkSelector : Value → Except Refusal String
  | .text s => if s.isEmpty then .error (.malformed (.badSelector (.text s))) else .ok s
  | v => .error (.malformed (.badSelector v))

def checkDeclaration (v : Value) : Except Refusal (Declaration String) :=
  match v.sides with
  | (some (.text p), some (.text w)) => .ok ⟨p, w⟩
  | _ => .error (.malformed (.badDeclaration v))

end Value

namespace Grouping

def ofDraft (d : Draft) : Except Refusal (Grouping String) :=
  if d.selectors.isNull then .error (.malformed .noSelectors)
  else if d.declarations.isNull then .error (.malformed .noDeclarations)
  else do
    let ss ← (← Fault.refuse d.selectors.items).mapM Value.checkSelector
    let ds ← (← Fault.refuse d.declarations.items).mapM Value.checkDeclaration
    match d.selectors with
    | .text s => return ofLists ds [s]
    | .stream _ => return ofLists ds []
    | _ => return ofLists ds ss

def toRule (g : Grouping String) : Rule :=
  ⟨g.selectors, g.declarations.map fun d => ⟨d.property, d.value, none⟩, none⟩

end Grouping

end StyleFactor
