import StyleFactor.Log
import StyleFactor.Value.Display
import StyleFactor.Grouping.Compare
import StyleFactor.Merge.Piece

/-!
Merging groupings with equal declarations. The pieces are taken from the end of the list; each is
absorbed by the first piece left in the list that resolves to the same declarations, in whatever
order, or else is finished. Pieces without declarations are never merged.
-/
namespace StyleFactor

/-- Both resolve to the same declarations, and to some. -/
def Grouping.agrees (a b : Grouping String) : Bool :=
  let c := a.compare b
  c.firstOnly.isEmpty && c.secondOnly.isEmpty && !c.both.isEmpty

/-- Hands the selectors of `c` to the last of the pieces that agrees with it. Returns that piece as
it was, and all of them as they are then. -/
def absorb (c : Piece) : List Piece → Option (Piece × List Piece)
  | [] => none
  | p :: ps =>
    match absorb c ps with
    | some (host, qs) => some (host, p :: qs)
    | none =>
      if c.grouping.agrees p.grouping then some (p, p.insertSelectors c.selectors :: ps) else none

theorem length_of_absorb {c host : Piece} {ps qs : List Piece}
    (h : absorb c ps = some (host, qs)) : qs.length = ps.length := by
  induction ps generalizing qs with
  | nil => cases h
  | cons p ps ih =>
    simp only [absorb] at h
    split at h
    · next eq => cases h; simp [ih eq]
    · split at h
      · cases h; rfl
      · cases h

/-- Takes the pieces of a list that is given last piece first. Returns those that were finished and
those that were absorbed, each in the order in which they were taken. -/
def mergeEqualFrom (ps : List Piece) : Logged (List Piece × List Piece) :=
  match ps with
  | [] => pure ([], [])
  | c :: rest =>
    match h : absorb c rest with
    | none => do
      let (finished, absorbed) ← mergeEqualFrom rest
      return (c :: finished, absorbed)
    | some (host, rest') => do
      have := length_of_absorb h
      .event .debug ("merging " ++ displayTexts c.selectors ++ " into " ++
        displayTexts host.selectors)
      let (finished, absorbed) ← mergeEqualFrom rest'
      return (finished, c :: absorbed)
termination_by ps.length

theorem value_mergeEqualFrom_nil : (mergeEqualFrom []).value = ([], []) := by
  rw [mergeEqualFrom]
  rfl

theorem value_mergeEqualFrom_cons (c : Piece) (rest : List Piece) :
    (mergeEqualFrom (c :: rest)).value =
      match absorb c rest with
      | none => (c :: (mergeEqualFrom rest).value.1, (mergeEqualFrom rest).value.2)
      | some (_, ps) => ((mergeEqualFrom ps).value.1, c :: (mergeEqualFrom ps).value.2) := by
  rw [mergeEqualFrom]
  split <;> simp_all

/-- The pass takes every piece, so the list it was given is empty in the end. -/
def mergeEqual (ps : List Piece) : Logged Pass := do
  let (finished, absorbed) ← mergeEqualFrom ps.reverse
  return ⟨finished, [], absorbed⟩

end StyleFactor
