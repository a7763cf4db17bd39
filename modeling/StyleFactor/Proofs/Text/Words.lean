import Mathlib.Data.List.TakeWhile
import StyleFactor.Text.Blank
import StyleFactor.Grammar.Lexeme

/-!
White space at the ends of a text: where it does not matter, and what shows that there is none. A
text that trimming or collapsing leaves alone starts with a character that is no white space.
-/
namespace StyleFactor.Text

theorem isBlank_of_isSpace {c : Char} (h : Grammar.isSpace c = true) : isBlank c = true := by
  simp only [Grammar.isSpace, List.contains_eq_mem, decide_eq_true_eq, List.mem_cons,
    List.not_mem_nil, or_false] at h
  rcases h with rfl | rfl | rfl | rfl | rfl | rfl <;> decide

theorem not_isSpace {c : Char} (h : isBlank c = false) : Grammar.isSpace c = false := by
  rw [← Bool.not_eq_true]
  intro space
  rw [isBlank_of_isSpace space] at h
  cases h

theorem words_append_cons {b : Char} (blank : isBlank b = true) (s t : List Char) :
    words (s ++ b :: t) = words s ++ words t := by
  rw [words, List.splitOnP_append_cons s t blank, List.filter_append]
  rfl

theorem collapse_cons_blank {b : Char} (blank : isBlank b = true) (s : List Char) :
    collapse (b :: s) = collapse s := by
  have split : words (b :: s) = words s := words_append_cons blank [] s
  rw [collapse, split, collapse]

theorem collapse_concat_blank {b : Char} (blank : isBlank b = true) (s : List Char) :
    collapse (s ++ [b]) = collapse s := by
  have split : words (s ++ [b]) = words s := by
    rw [words_append_cons blank, words_nil, List.append_nil]
  rw [collapse, split, collapse]

theorem not_isBlank_of_mem_piece {s w : List Char} (h : w ∈ s.splitOnP isBlank) {c : Char}
    (hc : c ∈ w) : isBlank c = false := by
  induction s generalizing w with
  | nil =>
    rw [List.splitOnP_nil, List.mem_singleton] at h
    subst h
    cases hc
  | cons d s ih =>
    rw [List.splitOnP_cons_eq_if_modifyHead] at h
    split at h
    · rcases List.mem_cons.1 h with rfl | h
      · cases hc
      · exact ih h hc
    · next solid =>
      obtain ⟨first, rest, split⟩ := List.exists_cons_of_ne_nil (List.splitOnP_ne_nil isBlank s)
      rw [split] at h ih
      rcases List.mem_cons.1 h with rfl | h
      · rcases List.mem_cons.1 hc with rfl | hc
        · exact Bool.eq_false_iff.2 solid
        · exact ih List.mem_cons_self hc
      · exact ih (List.mem_cons_of_mem _ h) hc

theorem not_isBlank_of_collapse {s t : List Char} {c : Char} (h : collapse s = c :: t) :
    isBlank c = false := by
  cases hw : words s with
  | nil =>
    rw [collapse, hw] at h
    cases h
  | cons w ws =>
    have member : w ∈ words s := hw ▸ List.mem_cons_self
    obtain ⟨piece, nonempty⟩ := List.mem_filter.1 member
    cases w with
    | nil => cases nonempty
    | cons d w =>
      have first : collapse s = d :: (collapse s).tail := by
        rw [collapse, hw]
        cases ws <;> rfl
      rw [h] at first
      cases first
      exact not_isBlank_of_mem_piece piece List.mem_cons_self

theorem length_trimEnd_le (s : List Char) : (trimEnd s).length ≤ s.length := by
  have shorter := (List.dropWhile_sublist isBlank (l := s.reverse)).length_le
  simpa [trimEnd] using shorter

/-- Trimmed text does not start with white space. -/
theorem not_isBlank_of_trim {t : List Char} {c : Char} (h : trim (c :: t) = c :: t) :
    isBlank c = false := by
  rw [← Bool.not_eq_true]
  intro blank
  have dropped : trim (c :: t) = trim t := by
    rw [trim, List.dropWhile_cons, if_pos blank, trim]
  have shorter := (List.dropWhile_sublist isBlank (l := t)).length_le
  have trimmed := length_trimEnd_le (t.dropWhile isBlank)
  have same : (trimEnd (t.dropWhile isBlank)).length = t.length + 1 :=
    congrArg List.length (dropped.symm.trans h)
  omega

theorem trimEnd_append_cons {c : Char} (solid : isBlank c = false) (s t : List Char) :
    trimEnd (s ++ c :: t) = s ++ c :: trimEnd t := by
  rw [trimEnd, trimEnd, List.reverse_append, List.reverse_cons, List.append_assoc,
    List.dropWhile_append]
  cases h : t.reverse.dropWhile isBlank with
  | nil => simp [solid]
  | cons d ds => simp

theorem trimEnd_of_blank {s : List Char} (blank : ∀ c ∈ s, isBlank c = true) :
    trimEnd s = [] := by
  have all : s.reverse.dropWhile isBlank = [] :=
    List.dropWhile_eq_nil_iff.2 fun c hc => blank c (List.mem_reverse.1 hc)
  rw [trimEnd, all, List.reverse_nil]

end StyleFactor.Text
