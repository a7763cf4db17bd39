import StyleFactor.Log
import StyleFactor.Merge.Piece

/-!
One grouping for each selector, with all that any grouping declares for it, later values winning.
The groupings given stay as they are.
-/
namespace StyleFactor

/-- Adds declarations to the grouping of a selector, which is made if there is none. -/
def give (s : String) (ds : List (Declaration String)) :
    List (Grouping String) → List (Grouping String)
  | [] => [.ofLists ds [s]]
  | g :: gs =>
    if g.selectors.contains s then g.declare ds :: gs else g :: give s ds gs

def bySelector (gs : List (Grouping String)) : List (Grouping String) :=
  gs.foldl (fun made g => g.selectors.foldl (fun made s => give s g.declarations made) made) []

def regroup (ps : List Piece) : Logged Pass :=
  return ⟨(bySelector (ps.map (·.grouping))).map (⟨none, ·⟩), ps, ps⟩

end StyleFactor
