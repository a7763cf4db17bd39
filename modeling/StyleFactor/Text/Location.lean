/-!
Lines and columns, both counted from 1. A line ends after a line feed and after nothing else.
-/
namespace StyleFactor.Text

/-- A line and a column. Both are integers, since a sheet built by hand may hold any markers. -/
structure Marker where
  line : Int
  column : Int
  deriving DecidableEq, Repr, Inhabited

/-- Offsets just behind the line feeds of `s`, which itself starts at `offset`. -/
def lineStartsFrom (offset : Nat) : List Char → List Nat
  | [] => []
  | c :: s =>
    let later := lineStartsFrom (offset + 1) s
    if c = '\n' then (offset + 1) :: later else later

def lineStarts (s : List Char) : List Nat :=
  0 :: lineStartsFrom 0 s

/-- The marker of an offset: how many lines start at or before it, and how far it lies behind the
last of these starts. An offset below zero is on line 0, and its column is counted from the start
of the last line. -/
def locate (starts : List Nat) (offset : Int) : Marker :=
  let reached := starts.takeWhile fun (start : Nat) => (start : Int) ≤ offset
  let start := (if reached.isEmpty then starts else reached).getLast?.getD 0
  ⟨reached.length, offset - start + 1⟩

end StyleFactor.Text
