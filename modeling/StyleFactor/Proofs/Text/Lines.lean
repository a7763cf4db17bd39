import Mathlib.Data.List.DropRight
import StyleFactor.Text.Location

/-!
Lines and the markers of offsets. The starts of the lines grow, and those at or before an offset are
the starts of the lines of the text up to it (`takeWhile_lineStarts`). So the line of a marker counts
the line feeds before its offset, and the column what stands behind the last of them
(`locate_lineStarts`); a marker can be turned back into its offset, and a later offset has a later
marker. Main statement: `locate_exact`.
-/
namespace StyleFactor.Text

/-! The starts of the lines. -/

theorem lt_of_mem_lineStartsFrom {offset b : Nat} {s : List Char}
    (member : b ∈ lineStartsFrom offset s) : offset < b := by
  induction s generalizing offset with
  | nil => cases member
  | cons c s ih =>
    rw [lineStartsFrom] at member
    split at member
    · rcases List.mem_cons.1 member with here | later
      · omega
      · exact Nat.lt_of_succ_lt (ih later)
    · exact Nat.lt_of_succ_lt (ih member)

theorem pairwise_lineStarts (s : List Char) : (lineStarts s).Pairwise (· < ·) := by
  have grow : ∀ offset, (lineStartsFrom offset s).Pairwise (· < ·) := by
    induction s with
    | nil => exact fun _ => .nil
    | cons c s ih =>
      intro offset
      rw [lineStartsFrom]
      split
      · exact List.pairwise_cons.2 ⟨fun b => lt_of_mem_lineStartsFrom, ih _⟩
      · exact ih _
  exact List.pairwise_cons.2 ⟨fun b => lt_of_mem_lineStartsFrom, grow 0⟩

theorem mem_lineStarts {s : List Char} {b : Nat} :
    b ∈ lineStarts s ↔ b = 0 ∨ ∃ i, s[i]? = some '\n' ∧ b = i + 1 := by
  have later : ∀ offset, b ∈ lineStartsFrom offset s ↔
      ∃ i, s[i]? = some '\n' ∧ b = offset + (i + 1) := by
    induction s with
    | nil => simp [lineStartsFrom]
    | cons c s ih =>
      intro offset
      -- the character in front is the first, and each other one moves up by one
      have split : (∃ i, (c :: s)[i]? = some '\n' ∧ b = offset + (i + 1)) ↔
          c = '\n' ∧ b = offset + 1 ∨ b ∈ lineStartsFrom (offset + 1) s := by
        rw [ih]
        constructor
        · rintro ⟨i, found, rfl⟩
          cases i with
          | zero => exact .inl ⟨by simpa using found, rfl⟩
          | succ i => exact .inr ⟨i, by simpa using found, by omega⟩
        · rintro (⟨rfl, rfl⟩ | ⟨i, found, rfl⟩)
          · exact ⟨0, rfl, rfl⟩
          · exact ⟨i + 1, by simpa using found, by omega⟩
      rw [split, lineStartsFrom]
      by_cases feed : c = '\n' <;> simp [feed]
  rw [lineStarts, List.mem_cons, later]
  simp only [Nat.zero_add]

theorem takeWhile_lineStartsFrom (s : List Char) (offset k : Nat) :
    (lineStartsFrom offset s).takeWhile (fun (start : Nat) => decide (start ≤ offset + k)) =
      lineStartsFrom offset (s.take k) := by
  induction s generalizing offset k with
  | nil => simp [lineStartsFrom]
  | cons c s ih =>
    cases k with
    | zero =>
      rw [List.take_zero, Nat.add_zero]
      refine List.takeWhile_eq_nil_iff.2 fun more => ?_
      have behind : offset < (lineStartsFrom offset (c :: s))[0] :=
        lt_of_mem_lineStartsFrom (List.getElem_mem more)
      simpa using behind
    | succ k =>
      have rest := ih (offset + 1) k
      rw [show offset + 1 + k = offset + (k + 1) by omega] at rest
      rw [List.take_succ_cons, lineStartsFrom, lineStartsFrom]
      split
      · rw [List.takeWhile_cons_of_pos (by simp), rest]
      · exact rest

/-- The lines that start at or before an offset are those of the text up to it. -/
theorem takeWhile_lineStarts (s : List Char) (k : Nat) :
    (lineStarts s).takeWhile (fun (start : Nat) => decide ((start : Int) ≤ k)) =
      lineStarts (s.take k) := by
  have rest := takeWhile_lineStartsFrom s 0 k
  rw [Nat.zero_add] at rest
  simp only [Int.ofNat_le, lineStarts]
  rw [List.takeWhile_cons_of_pos (by simp), rest]

/-! The last line. -/

/-- The text without what stands behind its last line feed. Its length is where the last line
starts. -/
def throughFeed (s : List Char) : List Char := s.rdropWhile (· ≠ '\n')

theorem lineStartsFrom_concat (offset : Nat) (s : List Char) (c : Char) :
    lineStartsFrom offset (s ++ [c]) =
      lineStartsFrom offset s ++ if c = '\n' then [offset + s.length + 1] else [] := by
  induction s generalizing offset with
  | nil => simp [lineStartsFrom]
  | cons d s ih =>
    have length : offset + 1 + s.length = offset + (d :: s).length := by
      rw [List.length_cons]
      omega
    rw [List.cons_append, lineStartsFrom, ih, length, lineStartsFrom]
    split <;> rfl

theorem lineStarts_eq_concat (s : List Char) :
    ∃ earlier, lineStarts s = earlier ++ [(throughFeed s).length] ∧
      earlier.length = s.count '\n' := by
  induction s using List.reverseRecOn with
  | nil => exact ⟨[], rfl, rfl⟩
  | append_singleton s c ih =>
    obtain ⟨earlier, starts, count⟩ := ih
    by_cases feed : c = '\n'
    · refine ⟨lineStarts s, ?_, ?_⟩
      · simp [lineStarts, lineStartsFrom_concat, throughFeed, feed]
      · simp [starts, count, feed]
    · refine ⟨earlier, ?_, ?_⟩
      · rw [throughFeed, List.rdropWhile_concat_pos _ _ _ (by simpa using feed), ← throughFeed,
          ← starts]
        simp [lineStarts, lineStartsFrom_concat, feed]
      · simp [count, feed]

/-! Markers. -/

theorem locate_lineStarts (s : List Char) (k : Nat) :
    locate (lineStarts s) k =
      ⟨1 + (s.take k).count '\n', k - (throughFeed (s.take k)).length + 1⟩ := by
  obtain ⟨earlier, starts, count⟩ := lineStarts_eq_concat (s.take k)
  simp only [locate, takeWhile_lineStarts, starts]
  simp [count, Int.add_comm]

/-- The line of an offset starts behind the last line feed before it. -/
theorem getElem?_lineStarts (s : List Char) (k : Nat) :
    (lineStarts s)[(s.take k).count '\n']? = some (throughFeed (s.take k)).length := by
  obtain ⟨earlier, starts, count⟩ := lineStarts_eq_concat (s.take k)
  obtain ⟨later, whole⟩ := List.takeWhile_prefix (l := lineStarts s)
    fun (start : Nat) => decide ((start : Int) ≤ k)
  rw [takeWhile_lineStarts, starts] at whole
  rw [← whole, ← count]
  simp

theorem length_throughFeed_le (s : List Char) (k : Nat) : (throughFeed (s.take k)).length ≤ k :=
  Nat.le_trans (List.rdropWhile_prefix _ _).length_le (List.length_take_le k s)

/-- The start of the line and the column, which is counted from 1. -/
def offset (starts : List Nat) (m : Marker) : Int :=
  (starts.getD (m.line - 1).toNat 0 : Nat) + m.column - 1

theorem offset_locate (s : List Char) (k : Nat) :
    offset (lineStarts s) (locate (lineStarts s) k) = k := by
  have index : (1 + ((s.take k).count '\n' : Int) - 1).toNat = (s.take k).count '\n' := by omega
  simp only [locate_lineStarts, offset, index, List.getD, getElem?_lineStarts, Option.getD_some]
  omega

/-- In the order of a text: by lines, and in a line by columns. -/
def Marker.Before (m n : Marker) : Prop :=
  m.line < n.line ∨ m.line = n.line ∧ m.column < n.column

theorem locate_before (s : List Char) {k l : Nat} (less : k < l) :
    (locate (lineStarts s) k).Before (locate (lineStarts s) l) := by
  have counted : (s.take k).count '\n' ≤ (s.take l).count '\n' :=
    (List.take_sublist_take_left (Nat.le_of_lt less)).count_le _
  have start := getElem?_lineStarts s k
  have later := getElem?_lineStarts s l
  simp only [locate_lineStarts, Marker.Before]
  rcases Nat.lt_or_eq_of_le counted with further | same
  · left
    omega
  · right
    -- on one line both are counted from one start
    rw [same, later] at start
    have one := Option.some.inj start
    omega

/-- In a list that grows the entries that are not greater than a number are the first ones. -/
theorem lt_length_takeWhile {l : List Nat} (grow : l.Pairwise (· < ·)) {i b : Nat}
    (entry : l[i]? = some b) (k : Int) :
    i < (l.takeWhile fun (a : Nat) => decide ((a : Int) ≤ k)).length ↔ (b : Int) ≤ k := by
  induction l generalizing i with
  | nil => simp at entry
  | cons a l ih =>
    obtain ⟨first, rest⟩ := List.pairwise_cons.1 grow
    by_cases reached : (a : Int) ≤ k
    · rw [List.takeWhile_cons_of_pos (by simpa using reached), List.length_cons]
      cases i with
      | zero =>
        obtain rfl : a = b := by simpa using entry
        simpa using reached
      | succ i => rw [← ih rest (by simpa using entry), Nat.add_lt_add_iff_right]
    · have greater : a ≤ b := by
        cases i with
        | zero => exact Nat.le_of_eq (by simpa using entry)
        | succ i => exact Nat.le_of_lt (first b (List.mem_of_getElem? (by simpa using entry)))
      rw [List.takeWhile_cons_of_neg (by simpa using reached), List.length_nil]
      omega

theorem lt_line_iff {s : List Char} {i b : Nat} (start : (lineStarts s)[i]? = some b) (k : Nat) :
    (i : Int) < (locate (lineStarts s) k).line ↔ b ≤ k := by
  obtain ⟨earlier, starts, count⟩ := lineStarts_eq_concat (s.take k)
  have reached := lt_length_takeWhile (pairwise_lineStarts s) start k
  rw [takeWhile_lineStarts, starts, List.length_append, count, List.length_singleton,
    Int.ofNat_le] at reached
  rw [← reached, locate_lineStarts]
  dsimp only
  omega

theorem exists_start (s : List Char) (k : Nat) :
    ∃ i b : Nat, (locate (lineStarts s) k).line = i + 1 ∧ (lineStarts s)[i]? = some b ∧
      b + (locate (lineStarts s) k).column - 1 = k := by
  refine ⟨_, _, ?_, getElem?_lineStarts s k, ?_⟩
  · rw [locate_lineStarts, Int.add_comm]
  · rw [locate_lineStarts]
    dsimp only
    omega

/-- For every text and every offset, also behind its end: the line of the marker counts the line
feeds before the offset, and the column starts behind the last of them. The starts of the lines are
0 and the offsets behind the line feeds, and they grow; those at or before the offset are just the
ones up to its line, and the last of these and the column give the offset back. Markers stand in the
order of their offsets. -/
theorem locate_exact (s : List Char) :
    ((lineStarts s).Pairwise (· < ·) ∧
      ∀ b, b ∈ lineStarts s ↔ b = 0 ∨ ∃ i, s[i]? = some '\n' ∧ b = i + 1) ∧
    (∀ k : Nat,
      let m := locate (lineStarts s) k
      m = ⟨1 + (s.take k).count '\n', k - (throughFeed (s.take k)).length + 1⟩ ∧
        (∀ i b : Nat, (lineStarts s)[i]? = some b → ((i : Int) < m.line ↔ b ≤ k)) ∧
        (∃ i b : Nat, m.line = i + 1 ∧ (lineStarts s)[i]? = some b ∧ b + m.column - 1 = k) ∧
        1 ≤ m.column) ∧
    ∀ k l : Nat, k < l → (locate (lineStarts s) k).Before (locate (lineStarts s) l) := by
  refine ⟨⟨pairwise_lineStarts s, fun b => mem_lineStarts⟩, fun k => ?_, fun k l => locate_before s⟩
  refine ⟨locate_lineStarts s k, fun i b start => lt_line_iff start k, exists_start s k, ?_⟩
  have length := length_throughFeed_le s k
  rw [locate_lineStarts]
  dsimp only
  omega

/-- An offset on a line feed is still on its line, and one behind the end is on the last. -/
example : [0, 2, 3, 9].map (fun (k : Nat) => locate (lineStarts "ab\nc".toList) k) =
    [⟨1, 1⟩, ⟨1, 3⟩, ⟨2, 1⟩, ⟨2, 7⟩] := by decide

end StyleFactor.Text
