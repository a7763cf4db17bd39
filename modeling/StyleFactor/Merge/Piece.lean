import StyleFactor.Grouping.Size

/-!
Groupings on their way through the passes that merge them. A piece knows the place its grouping had
in the list that was given at first, so that it can be told what became of each one. A pass returns
a list of pieces and says how it left the list it was given and the pieces it does not return.
-/
namespace StyleFactor

structure Piece where
  /-- The place in the list given at first; a grouping made by a pass has none. -/
  origin : Option Nat
  grouping : Grouping String
  deriving DecidableEq, Repr, Inhabited

namespace Piece

def selectors (p : Piece) : List String := p.grouping.selectors

def declarations (p : Piece) : List (Declaration String) := p.grouping.declarations

def insertSelectors (p : Piece) (ss : List String) : Piece :=
  { p with grouping := p.grouping.insertSelectors ss }

def ofGroupings (gs : List (Grouping String)) : List Piece :=
  gs.zipIdx.map fun (g, i) => ⟨some i, g⟩

theorem insertSelectors_append (p : Piece) (ss ts : List String) :
    (p.insertSelectors ss).insertSelectors ts = p.insertSelectors (ss ++ ts) := by
  simp only [insertSelectors, Grouping.insertSelectors, List.foldl_append]

end Piece

structure Pass where
  result : List Piece
  /-- The list it was given, as it leaves it. -/
  left : List Piece
  /-- The pieces it was given and does not return, as it leaves them. -/
  dropped : List Piece
  deriving DecidableEq, Repr, Inhabited

end StyleFactor
