import StyleFactor.Text.Blank
import StyleFactor.Tree.Node
import StyleFactor.Sheet.Entry

/-!
Entries from the nodes of a tree. Trees from the grammar always have the shape that is looked for
here; a tree handed in from outside may not, and then the first thing found wrong is the answer.
-/
namespace StyleFactor

inductive TreeFault where
  | missing (tag : String)
  | childless (tag : String)
  /-- A declaration does not consist of exactly a property and a value. -/
  | unpaired (count : Nat)
  deriving DecidableEq, Repr

/-- The text a tree stands for, as entries need it. -/
structure Origin where
  lines : List Nat
  source : Option String

namespace Origin

def ofText (text : List Char) (source : Option String) : Origin := ⟨Text.lineStarts text, source⟩

def position (o : Origin) (n : Node) : Position :=
  ⟨Text.locate o.lines n.start, Text.locate o.lines n.stop, o.source⟩

end Origin

/-- Nodes that are not white space and not comments. -/
def withoutGaps (ns : List Node) : List Node :=
  ns.filter fun n => n.tag != "s" && n.tag != "comment"

/-- The child with a tag that a node cannot do without. -/
def Node.need (n : Node) (tag : String) : Except TreeFault Node :=
  match n.find tag with
  | some c => .ok c
  | none => .error (.missing tag)

def Node.first (n : Node) : Except TreeFault Node :=
  match n.children with
  | c :: _ => .ok c
  | [] => .error (.childless n.tag)

def collapsed (n : Node) : String := .ofList (Text.collapse n.str)

def Decl.ofNode (o : Origin) (n : Node) : Except TreeFault Decl :=
  match withoutGaps n.children with
  | [p, v] =>
    .ok ⟨.ofList p.str, .ofList (Text.trim v.str), some (o.position n)⟩
  | ns => .error (.unpaired ns.length)

/-- The declarations in the block of a node. A block may have no list of declarations. -/
def declsOfNode (o : Origin) (n : Node) : Except TreeFault (List Decl) := do
  let block ← n.need "block"
  match block.find "decls" with
  | some ds => (ds.findAll "decl").mapM (Decl.ofNode o)
  | none => .ok []

def Rule.ofNode (o : Origin) (n : Node) : Except TreeFault Rule := do
  let sels ← n.need "sels"
  let decls ← declsOfNode o n
  return ⟨(withoutGaps sels.children).map collapsed, decls, some (o.position n)⟩

def FontFace.ofNode (o : Origin) (n : Node) : Except TreeFault FontFace := do
  return ⟨← declsOfNode o n, some (o.position n)⟩

def AtRule.ofNode (o : Origin) (n : Node) : Except TreeFault AtRule := do
  let name ← n.need "atname"
  return ⟨.ofList name.str, ((n.find "atprelude").map collapsed).getD "",
    (n.find "atbody").map fun b => .ofList b.str, some (o.position n)⟩

/-- A comment without the two signs at each end. -/
def Comment.ofNode (o : Origin) (n : Node) : Comment :=
  ⟨.ofList (Text.slice n.str 2 (-2)), some (o.position n)⟩

def Entry.ofNode (o : Origin) (top : Node) : Except TreeFault Entry := do
  let n ← if top.tag == "atrule" then top.first else .ok top
  if n.tag == "rule" then return .rule (← Rule.ofNode o n)
  else if n.tag == "fontface" then return .fontFace (← FontFace.ofNode o n)
  else if n.tag == "atblock" || n.tag == "atstatement" then return .atRule (← AtRule.ofNode o n)
  else
    let gap ← n.first
    if gap.tag == "comment" then return .comment (Comment.ofNode o gap)
    else return .whitespace (.ofList n.str)

end StyleFactor
