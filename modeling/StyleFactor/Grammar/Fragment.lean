/-!
What a production of the grammar makes of a text, with nothing left out: characters, and tagged
groups of fragments. The characters of a fragment, one after the other, are the text it was read
from.
-/
namespace StyleFactor.Grammar

inductive Fragment where
  | text (chars : List Char)
  | node (tag : String) (parts : List Fragment)
  deriving Inhabited

mutual

/-- The text a fragment was read from. -/
def Fragment.chars : Fragment → List Char
  | .text cs => cs
  | .node _ ps => charsOf ps

def charsOf : List Fragment → List Char
  | [] => []
  | p :: ps => p.chars ++ charsOf ps

end

mutual

def Fragment.width : Fragment → Nat
  | .text cs => cs.length
  | .node _ ps => widthOf ps

def widthOf : List Fragment → Nat
  | [] => 0
  | p :: ps => p.width + widthOf ps

end

@[simp] theorem charsOf_nil : charsOf [] = [] := rfl

@[simp] theorem charsOf_cons (p : Fragment) (ps : List Fragment) :
    charsOf (p :: ps) = p.chars ++ charsOf ps := rfl

@[simp] theorem chars_text (cs : List Char) : (Fragment.text cs).chars = cs := rfl

@[simp] theorem chars_node (tag : String) (ps : List Fragment) :
    (Fragment.node tag ps).chars = charsOf ps := rfl

@[simp] theorem charsOf_append (ps qs : List Fragment) :
    charsOf (ps ++ qs) = charsOf ps ++ charsOf qs := by
  induction ps with
  | nil => rfl
  | cons p ps ih => simp [ih]

mutual

theorem Fragment.width_eq : (p : Fragment) → p.width = p.chars.length
  | .text _ => rfl
  | .node _ ps => widthOf_eq ps

theorem widthOf_eq : (ps : List Fragment) → widthOf ps = (charsOf ps).length
  | [] => rfl
  | p :: ps => by rw [widthOf, charsOf_cons, List.length_append, p.width_eq, widthOf_eq ps]

end

end StyleFactor.Grammar
