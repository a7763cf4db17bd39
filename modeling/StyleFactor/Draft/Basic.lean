import StyleFactor.Sheet.Parse
import StyleFactor.Value.Basic

/-!
Entries that nobody has checked: they have the same kinds as the entries of a sheet, but selectors
and declarations can be any values. A bare entry has only the fields it was given. Every sheet is
such a document (`Sheet.toDocument`).
-/
namespace StyleFactor

inductive Draft where
  | rule (selectors declarations : Value) (position : Option Position)
  | fontFace (declarations : Value) (position : Option Position)
  | atRule (a : AtRule)
  | comment (c : Comment)
  | whitespace (s : String)
  | bare (type selectors declarations : Option Value)
  deriving Inhabited

structure Document where
  entries : List Draft
  source : Option String
  deriving Inhabited

def Decl.toValue (d : Decl) : Value := .decl (.text d.property) (.text d.value) d.position

def Entry.toDraft : Entry → Draft
  | .rule r =>
    .rule (.list (r.selectors.map .text)) (.list (r.declarations.map Decl.toValue)) r.position
  | .fontFace f => .fontFace (.list (f.declarations.map Decl.toValue)) f.position
  | .atRule a => .atRule a
  | .comment c => .comment c
  | .whitespace s => .whitespace s

def Sheet.toDocument (d : Sheet) : Document := ⟨d.entries.map Entry.toDraft, d.source⟩

namespace Draft

/-- What kind of entry it is. A missing field counts as null, here and below. -/
def type : Draft → Value
  | .rule _ _ _ => .text "rule"
  | .fontFace _ _ => .text "font-face"
  | .atRule a => .text a.name
  | .comment _ => .text "comment"
  | .whitespace _ => .text "whitespace"
  | .bare t _ _ => t.getD .null

def isType (d : Draft) (t : String) : Bool := d.type == .text t

def selectors : Draft → Value
  | .rule ss _ _ => ss
  | .bare _ ss _ => ss.getD .null
  | _ => .null

def declarations? : Draft → Option Value
  | .rule _ ds _ => some ds
  | .fontFace ds _ => some ds
  | .bare _ _ ds => ds
  | _ => none

def declarations (d : Draft) : Value := d.declarations?.getD .null

/-- A declaration of an entry, with its sides as they were given. -/
structure Item where
  property : Value
  value : Value
  position : Option Position
  deriving Inhabited

/-- Declarations one by one, which all have to be whole. -/
def itemsOf (declarations : Value) : Except Fault (List Item) := do
  (← declarations.items).mapM fun
    | .decl p v position => .ok ⟨p, v, position⟩
    | _ => .error .notDeclaration

/-- The declarations an entry is listed with. A bare entry cannot be listed: it has no position, but
that is seen last. -/
def items : Draft → Except Fault (List Item)
  | .rule _ ds _ => itemsOf ds
  | .fontFace ds _ => itemsOf ds
  | .bare (some _) _ (some ds) => do
    let _ ← itemsOf ds
    .error .noField
  | .bare _ _ _ => .error .noField
  | _ => .ok []

def position : Draft → Option Position
  | .rule _ _ p => p
  | .fontFace _ p => p
  | .atRule a => a.position
  | .comment c => c.position
  | .whitespace _ => none
  | .bare _ _ _ => none

def isWhitespace : Draft → Bool
  | .whitespace _ => true
  | _ => false

def isStatement : Draft → Bool
  | .atRule a => a.isStatement
  | _ => false

end Draft

/-- Everything but the white space between entries. -/
def Document.rules (d : Document) : List Draft := d.entries.filter (!·.isWhitespace)

end StyleFactor
