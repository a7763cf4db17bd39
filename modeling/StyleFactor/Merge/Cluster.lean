import StyleFactor.Grouping.Size
import StyleFactor.Grouping.Compare
import StyleFactor.Grouping.Display

/-!
Clusters of groupings whose declarations all occur in a larger one, the target. Taking a cluster out
of the target saves the declarations it covers, and costs the selectors of the target once for each
member. Clusters are grown greedily: each candidate starts one, and joins every earlier one that it
makes worth more.
-/
namespace StyleFactor

structure Cluster where
  /-- All selectors and all declarations of the members. -/
  total : Grouping String
  members : List Nat
  deriving DecidableEq, Repr, Inhabited

namespace Cluster

def seed (g : Grouping String × Nat) : Cluster :=
  ⟨.ofLists g.1.declarations g.1.selectors, [g.2]⟩

/-- What a grouping is worth to a cluster: its declarations that are new there, less one more list
of selectors. -/
def gain (cost : Nat) (c : Cluster) (g : Grouping String) : Int :=
  declarationsSize (c.total.compare g).secondOnly - cost

def add (c : Cluster) (g : Grouping String × Nat) : Cluster :=
  ⟨(c.total.insertSelectors g.1.selectors).declare g.1.declarations, c.members ++ [g.2]⟩

def offer (cost : Nat) (c : Cluster) (g : Grouping String × Nat) : Cluster :=
  if 0 < c.gain cost g.1 then c.add g else c

/-- What it saves to take the cluster out of the target. -/
def score (cost : Nat) (c : Cluster) : Int :=
  (c.total.declarationSize : Int) - c.members.length * cost

/-- One cluster for each candidate, which is offered all that come after it. -/
def grow (cost : Nat) : List (Grouping String × Nat) → List Cluster
  | [] => []
  | g :: gs => gs.foldl (offer cost) (seed g) :: grow cost gs

def best (cost : Nat) : List Cluster → Option Cluster
  | [] => none
  | c :: cs => some (cs.foldl (fun b c => if b.score cost < c.score cost then c else b) c)

def display (gs : List (Grouping String)) (c : Cluster) : String :=
  "Cluster([" ++ ", ".intercalate (c.members.filterMap fun i => gs[i]?.map Grouping.display) ++ "])"

end Cluster

namespace Grouping

/-- A grouping has declarations, and the target resolves to all of them too. -/
def isPartOf (g target : Grouping String) : Bool :=
  !g.declarations.isEmpty && (target.compare g).secondOnly.isEmpty

/-- The groupings of a list that are part of the target, with their places. -/
def candidates (target : Grouping String) (gs : List (Grouping String)) :
    List (Grouping String × Nat) :=
  gs.zipIdx.filter fun g => g.1.isPartOf target

def clusters (target : Grouping String) (gs : List (Grouping String)) : List Cluster :=
  Cluster.grow target.selectorSize (target.candidates gs)

end Grouping

end StyleFactor
