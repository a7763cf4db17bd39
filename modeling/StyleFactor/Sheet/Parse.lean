import StyleFactor.Text.Quoted
import StyleFactor.Grammar.Production
import StyleFactor.Sheet.OfNode

/-!
Whole sheets, and how a text is read as one. A text is a sheet if the grammar reads it to the end.
-/
namespace StyleFactor

/-- A style sheet: its entries in order, white space and comments among them. -/
structure Sheet where
  entries : List Entry
  source : Option String
  deriving DecidableEq, Repr, Inhabited

/-- Everything but the white space between entries. -/
def Sheet.rules (d : Sheet) : List Entry := d.entries.filter (!·.isWhitespace)

structure Unread where
  text : List Char
  next : Nat
  source : Option String
  deriving DecidableEq, Repr

namespace Unread

def marker (u : Unread) : Text.Marker := Text.locate (Text.lineStarts u.text) u.next

def message (u : Unread) : String :=
  "Wasn't able to parse " ++ Text.quoted (.ofList ((u.text.drop u.next).take 40)) ++
    " as a css (" ++ toString u.next ++ " chars parsed of " ++ toString u.text.length ++
    ") at line " ++ toString u.marker.line ++ ", column " ++ toString u.marker.column

end Unread

inductive ParseFault where
  | unread (u : Unread)
  | tree (f : TreeFault)
  deriving DecidableEq, Repr

namespace Sheet

/-- The groups the grammar finds in a text, and how many characters it reads. -/
def spans (text : List Char) : List Span × Nat :=
  let (parts, left) := Grammar.css text
  (spansOf 0 parts, text.length - left.length)

/-- Entries from nodes that stand for the top of a sheet, each inside a group of its own. -/
def ofNodes (o : Origin) (ns : List Node) : Except TreeFault (List Entry) :=
  ns.mapM fun n => do Entry.ofNode o (← n.first)

def parse (source : Option String) (text : String) : Except ParseFault Sheet :=
  let cs := text.toList
  let (spans, next) := spans cs
  if next = cs.length then
    match ofNodes (.ofText cs source) (Node.ofSpans cs spans) with
    | .ok entries => .ok ⟨entries, source⟩
    | .error f => .error (.tree f)
  else .error (.unread ⟨cs, next, source⟩)

end Sheet

end StyleFactor
