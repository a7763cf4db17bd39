import StyleFactor.Grammar.Fragment

/-!
The named groups of a text without the text: a tag, where the group starts, where it stops, and the
groups inside it. Offsets are integers, since a tree handed in from outside may hold any.
-/
namespace StyleFactor

open Grammar (Fragment widthOf)

inductive Span where
  | mk (tag : String) (start stop : Int) (children : List Span)
  deriving Inhabited

def Span.tag : Span → String | .mk t _ _ _ => t
def Span.start : Span → Int | .mk _ a _ _ => a
def Span.stop : Span → Int | .mk _ _ b _ => b
def Span.children : Span → List Span | .mk _ _ _ cs => cs

mutual

/-- The groups of a fragment that was read at `offset`: bare characters are none. -/
def Grammar.Fragment.spans (offset : Nat) : Fragment → List Span
  | .text _ => []
  | .node tag ps => [.mk tag offset (offset + widthOf ps : Nat) (spansOf offset ps)]

def spansOf (offset : Nat) : List Fragment → List Span
  | [] => []
  | p :: ps => p.spans offset ++ spansOf (offset + p.width) ps

end

end StyleFactor
