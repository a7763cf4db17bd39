import StyleFactor.Merge.Equal
import StyleFactor.Merge.BySelector
import StyleFactor.Merge.Shared

/-!
Passes one after the other, each on what the one before it returned.
-/
namespace StyleFactor

inductive PassKind where
  | bySelector
  | equal
  | shared
  deriving DecidableEq, Repr, Inhabited

def PassKind.run : PassKind → List Piece → Logged Pass
  | bySelector => regroup
  | equal => mergeEqual
  | shared => factorShared

def runPasses : List PassKind → List Piece → Logged (List Piece)
  | [], ps => pure ps
  | k :: ks, ps => do runPasses ks (← k.run ps).result

/-- All passes on the way to what the last one returns. -/
def runEach : List PassKind → List Piece → Logged (List Pass)
  | [], _ => pure []
  | k :: ks, ps => do
    let pass ← k.run ps
    return pass :: (← runEach ks pass.result)

/-- What became of each piece that was given: it is among those returned in the end, or it was
dropped on the way. -/
def fates (given : List Piece) (passes : List Pass) : List (Grouping String) :=
  let last := (passes.getLast?.map (·.result)).getD given
  let all := last ++ passes.flatMap (·.dropped)
  given.map fun p => ((all.find? (·.origin == p.origin)).getD p).grouping

theorem value_runPasses (ks : List PassKind) (ps : List Piece) :
    (runPasses ks ps).value =
      ((runEach ks ps).value.getLast?.map (·.result)).getD ps := by
  induction ks generalizing ps with
  | nil => rfl
  | cons k ks ih =>
    rw [runPasses, runEach, Logged.value_bind, Logged.value_bind, ih]
    cases ks with
    | nil => rfl
    | cons k' ks => simp [runEach, List.getLast?_cons]

end StyleFactor
