import StyleFactor.Text.Slice
import StyleFactor.Tree.Span

/-!
Groups together with the text they span, as the tree is walked.
-/
namespace StyleFactor

inductive Node where
  | mk (tag : String) (start stop : Int) (str : List Char) (children : List Node)
  deriving Inhabited

namespace Node

def tag : Node → String | .mk t _ _ _ _ => t
def start : Node → Int | .mk _ a _ _ _ => a
def stop : Node → Int | .mk _ _ b _ _ => b
def str : Node → List Char | .mk _ _ _ s _ => s
def children : Node → List Node | .mk _ _ _ _ cs => cs

mutual

/-- A span with the piece of `text` it covers, and so for the spans inside it. -/
def ofSpan (text : List Char) : Span → Node
  | .mk tag start stop cs => .mk tag start stop (Text.slice text start stop) (ofSpans text cs)

def ofSpans (text : List Char) : List Span → List Node
  | [] => []
  | c :: cs => ofSpan text c :: ofSpans text cs

end

/-- The first child with a tag; deeper groups are not searched. -/
def find (n : Node) (tag : String) : Option Node :=
  n.children.find? (·.tag == tag)

def findAll (n : Node) (tag : String) : List Node :=
  n.children.filter (·.tag == tag)

end Node

theorem ofSpans_eq_map (text : List Char) (cs : List Span) :
    Node.ofSpans text cs = cs.map (Node.ofSpan text) := by
  induction cs with
  | nil => rfl
  | cons c cs ih => simp [Node.ofSpans, ih]

end StyleFactor
