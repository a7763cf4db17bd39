import StyleFactor.Log
import StyleFactor.Merge.Cluster
import StyleFactor.Merge.Piece

/-!
Factoring out declarations that smaller groupings share. The largest groupings come first; out of
each the cluster of later ones that saves most is taken, if there is any: the grouping loses the
declarations of the cluster, and the members of the cluster get its selectors.
-/
namespace StyleFactor

namespace Piece

/-- Stably sorted by the number of resolved declarations, the largest first. -/
def largestFirst (ps : List Piece) : List Piece :=
  ps.mergeSort fun p q => q.declarations.length ≤ p.declarations.length

def handOver (ss : List String) (places : List Nat) (ps : List Piece) : List Piece :=
  ps.mapIdx fun i p => if places.contains i then p.insertSelectors ss else p

/-- The cluster that is taken out of a target, given the pieces that come after it. -/
def chosen (t : Piece) (rest : List Piece) : Option Cluster :=
  Cluster.best t.grouping.selectorSize (t.grouping.clusters (rest.map (·.grouping)))

def without (t : Piece) (c : Cluster) : Piece :=
  { t with grouping := t.grouping.retract c.total.declarations }

theorem length_handOver (ss : List String) (places : List Nat) (ps : List Piece) :
    (handOver ss places ps).length = ps.length := List.length_mapIdx

end Piece

/-- Takes each piece as the target in turn, against those that come after it. -/
def factorFrom (ps : List Piece) : Logged (List Piece) :=
  match ps with
  | [] => pure []
  | t :: rest =>
    match t.chosen rest with
    | none => do
      return t :: (← factorFrom rest)
    | some c => do
      .event .debug ("factoring " ++ displayDeclarations c.total.declarations ++ " out of " ++
        displayTexts t.selectors ++ " (saves " ++ toString (c.score t.grouping.selectorSize) ++ ")")
      return t.without c :: (← factorFrom (Piece.handOver t.selectors c.members rest))
termination_by ps.length
decreasing_by all_goals simp [Piece.length_handOver]

theorem value_factorFrom_cons (t : Piece) (rest : List Piece) :
    (factorFrom (t :: rest)).value =
      match t.chosen rest with
      | none => t :: (factorFrom rest).value
      | some c =>
        t.without c :: (factorFrom (Piece.handOver t.selectors c.members rest)).value := by
  rw [factorFrom]
  split <;> simp_all

/-- The list given is left sorted; the pieces that lost all declarations are not returned. -/
def factorShared (ps : List Piece) : Logged Pass := do
  let all ← factorFrom (Piece.largestFirst ps)
  return ⟨all.filter (!·.declarations.isEmpty), all, all.filter (·.declarations.isEmpty)⟩

end StyleFactor
