/-!
Pieces of a text between two indices. An index below zero counts from the end, and indices outside
the text are moved to its nearest end, so every pair of indices names a piece.
-/
namespace StyleFactor.Text

/-- The place in a text that an index means. Places behind the end are not told apart: `take` and
`drop` stop there. -/
def place (s : List Char) (i : Int) : Nat :=
  if i < 0 then (s.length + i).toNat else i.toNat

/-- The piece from `start` up to `stop`, empty where `stop` does not lie behind `start`. -/
def slice (s : List Char) (start stop : Int) : List Char :=
  (s.drop (place s start)).take (place s stop - place s start)

theorem place_natCast (s : List Char) (i : Nat) : place s (i : Int) = i := by
  simp [place, Int.not_lt.2 (Int.natCast_nonneg i)]

theorem slice_natCast (s : List Char) (start stop : Nat) :
    slice s start stop = (s.drop start).take (stop - start) := by
  simp [slice, place_natCast]

theorem slice_between (a b c : List Char) :
    slice (a ++ b ++ c) a.length (a.length + b.length : Nat) = b := by
  rw [slice_natCast, List.append_assoc, List.drop_left, Nat.add_sub_cancel_left, List.take_left]

end StyleFactor.Text
