import Mathlib.Data.List.DropRight
import StyleFactor.Proofs.Text.Words

/-!
Texts that differ in white space only. Trimming and collapsing drop white space or write it as one
space, and do so once and for all. Main statements: `respaced_trim`, `respaced_collapse`.
-/
namespace StyleFactor.Text

/-- The second text is the first with some of its white space dropped or written as a space. -/
inductive Respaced : List Char → List Char → Prop
  | nil : Respaced [] []
  | keep (c : Char) {s s' : List Char} : Respaced s s' → Respaced (c :: s) (c :: s')
  | space {c : Char} {s s' : List Char} : isBlank c = true → Respaced s s' →
      Respaced (c :: s) (' ' :: s')
  | drop {c : Char} {s s' : List Char} : isBlank c = true → Respaced s s' → Respaced (c :: s) s'

namespace Respaced

theorem refl (s : List Char) : Respaced s s := by
  induction s with
  | nil => exact nil
  | cons c s ih => exact keep c ih

theorem append {s s' t t' : List Char} (h : Respaced s s') (more : Respaced t t') :
    Respaced (s ++ t) (s' ++ t') := by
  induction h with
  | nil => exact more
  | keep c _ ih => exact keep c ih
  | space blank _ ih => exact space blank ih
  | drop blank _ ih => exact drop blank ih

theorem of_blank {w : List Char} (blank : ∀ c ∈ w, isBlank c = true) : Respaced w [] := by
  induction w with
  | nil => exact nil
  | cons c w ih =>
    obtain ⟨first, rest⟩ := List.forall_mem_cons.1 blank
    exact drop first (ih rest)

/-- What becomes of a text in two pieces is in two pieces. -/
theorem split {s t u : List Char} (h : Respaced (s ++ t) u) :
    ∃ s' t', u = s' ++ t' ∧ Respaced s s' ∧ Respaced t t' := by
  induction s generalizing u with
  | nil => exact ⟨[], u, rfl, nil, h⟩
  | cons c s ih =>
    cases h with
    | keep _ h =>
      obtain ⟨s', t', rfl, hs, ht⟩ := ih h
      exact ⟨c :: s', t', rfl, keep c hs, ht⟩
    | space blank h =>
      obtain ⟨s', t', rfl, hs, ht⟩ := ih h
      exact ⟨' ' :: s', t', rfl, space blank hs, ht⟩
    | drop blank h =>
      obtain ⟨s', t', rfl, hs, ht⟩ := ih h
      exact ⟨s', t', rfl, drop blank hs, ht⟩

theorem singleton {c : Char} {u : List Char} (h : Respaced [c] u) :
    u = [c] ∨ isBlank c = true ∧ (u = [' '] ∨ u = []) := by
  cases h with
  | keep _ h =>
    cases h
    exact Or.inl rfl
  | space blank h =>
    cases h
    exact Or.inr ⟨blank, Or.inl rfl⟩
  | drop blank h =>
    cases h
    exact Or.inr ⟨blank, Or.inr rfl⟩

theorem solid {c : Char} (solid : isBlank c = false) {s u : List Char} (h : Respaced (c :: s) u) :
    ∃ s', u = c :: s' ∧ Respaced s s' := by
  cases h with
  | keep _ h => exact ⟨_, rfl, h⟩
  | space blank _ => cases solid.symm.trans blank
  | drop blank _ => cases solid.symm.trans blank

theorem mem {s s' : List Char} (h : Respaced s s') {c : Char} (solid : isBlank c = false)
    (hc : c ∈ s') : c ∈ s := by
  induction h with
  | nil => exact hc
  | keep d _ ih =>
    rcases List.mem_cons.1 hc with rfl | hc
    · exact List.mem_cons_self
    · exact List.mem_cons_of_mem d (ih hc)
  | space _ _ ih =>
    rcases List.mem_cons.1 hc with rfl | hc
    · cases solid
    · exact List.mem_cons_of_mem _ (ih hc)
  | drop _ _ ih => exact List.mem_cons_of_mem _ (ih hc)

end Respaced

/-! Trimming. -/

theorem isPrefix_trimEnd (s : List Char) : trimEnd s <+: s := List.rdropWhile_prefix isBlank s

theorem exists_trimEnd_append (s : List Char) :
    ∃ w, s = trimEnd s ++ w ∧ ∀ c ∈ w, isBlank c = true := by
  refine ⟨s.rtakeWhile isBlank, ?_, fun c => List.mem_rtakeWhile_imp⟩
  exact (List.rdropWhile_append_rtakeWhile (p := isBlank) (l := s)).symm

theorem respaced_trimEnd (s : List Char) : Respaced s (trimEnd s) := by
  obtain ⟨w, whole, blank⟩ := exists_trimEnd_append s
  have cut := (Respaced.refl (trimEnd s)).append (Respaced.of_blank blank)
  rwa [← whole, List.append_nil] at cut

theorem respaced_trim (s : List Char) : Respaced s (trim s) := by
  induction s with
  | nil => exact Respaced.nil
  | cons c s ih =>
    rw [trim, List.dropWhile_cons]
    split
    · next blank => exact Respaced.drop blank ih
    · exact respaced_trimEnd _

theorem isInfix_trim (s : List Char) : trim s <:+: s :=
  (isPrefix_trimEnd _).isInfix.trans (List.dropWhile_suffix isBlank).isInfix

theorem trim_cons_solid {c : Char} (solid : isBlank c = false) (s : List Char) :
    trim (c :: s) = c :: trimEnd s := by
  rw [trim, List.dropWhile_cons_of_neg (by simp [solid])]
  exact trimEnd_append_cons solid [] s

theorem trim_trim (s : List Char) : trim (trim s) = trim s := by
  have twice : trimEnd (trim s) = trim s := List.rdropWhile_idempotent isBlank _
  cases trimmed : trim s with
  | nil => rfl
  | cons c r =>
    -- trimming the end has left a first character, so it is the one behind the white space
    obtain ⟨w, whole⟩ := isPrefix_trimEnd (s.dropWhile isBlank)
    have start : s.dropWhile isBlank = c :: (r ++ w) := by
      rw [← whole]
      exact congrArg (· ++ w) trimmed
    have solid : isBlank c = false := by
      have stop := List.head?_dropWhile_not isBlank s
      rw [start] at stop
      simpa using stop
    rw [trimmed] at twice
    rw [trim_cons_solid solid]
    exact (trimEnd_append_cons solid [] r).symm.trans twice

/-! Collapsing. -/

theorem words_of_solid {w : List Char} (solid : ∀ c ∈ w, isBlank c = false) (nonempty : w ≠ []) :
    words w = [w] := by
  rw [words, List.splitOnP_eq_singleton solid]
  simpa using nonempty

theorem solid_of_mem_words {s w : List Char} (h : w ∈ words s) :
    w ≠ [] ∧ ∀ c ∈ w, isBlank c = false := by
  obtain ⟨piece, nonempty⟩ := List.mem_filter.1 h
  exact ⟨by simpa using nonempty, fun c => not_isBlank_of_mem_piece piece⟩

theorem words_intercalate {ws : List (List Char)}
    (solid : ∀ w ∈ ws, w ≠ [] ∧ ∀ c ∈ w, isBlank c = false) :
    words ([' '].intercalate ws) = ws := by
  induction ws with
  | nil => rfl
  | cons w ws ih =>
    obtain ⟨⟨nonempty, letters⟩, rest⟩ := List.forall_mem_cons.1 solid
    cases ws with
    | nil => simpa using words_of_solid letters nonempty
    | cons v ws =>
      rw [List.intercalate_cons_cons, List.append_assoc, List.singleton_append,
        words_append_cons (by decide), ih rest, words_of_solid letters nonempty,
        List.singleton_append]

theorem collapse_collapse (s : List Char) : collapse (collapse s) = collapse s := by
  have same : words (collapse s) = words s := words_intercalate fun w => solid_of_mem_words
  rw [collapse, same, collapse]

theorem exists_pieces (s : List Char) : ∃ first rest, s.splitOnP isBlank = first :: rest ∧
    first <+: s ∧ ∀ w ∈ rest, w <:+: s := by
  induction s with
  | nil => exact ⟨[], [], List.splitOnP_nil, List.prefix_rfl, fun w hw => nomatch hw⟩
  | cons c s ih =>
    obtain ⟨first, rest, split, start, others⟩ := ih
    rw [List.splitOnP_cons_eq_if_modifyHead, split]
    split
    · refine ⟨[], first :: rest, rfl, List.nil_prefix, List.forall_mem_cons.2 ⟨?_, ?_⟩⟩
      · exact List.infix_cons start.isInfix
      · exact fun w hw => List.infix_cons (others w hw)
    · exact ⟨c :: first, rest, rfl, List.cons_prefix_cons.2 ⟨rfl, start⟩,
        fun w hw => List.infix_cons (others w hw)⟩

theorem infix_of_mem_words {s w : List Char} (h : w ∈ words s) : w <:+: s := by
  obtain ⟨first, rest, split, start, others⟩ := exists_pieces s
  have piece := (List.mem_filter.1 h).1
  rw [split] at piece
  rcases List.mem_cons.1 piece with rfl | piece
  · exact start.isInfix
  · exact others w piece

theorem words_cons_solid {c d : Char} (hc : isBlank c = false) (hd : isBlank d = false)
    (s : List Char) : ∃ w ws, words (d :: s) = w :: ws ∧ words (c :: d :: s) = (c :: w) :: ws := by
  obtain ⟨first, rest, split⟩ := List.exists_cons_of_ne_nil (List.splitOnP_ne_nil isBlank s)
  refine ⟨d :: first, rest.filter (!·.isEmpty), ?_, ?_⟩ <;>
    simp [words, List.splitOnP_cons_eq_if_modifyHead, hc, hd, split]

theorem intercalate_cons (w : List Char) (ws : List (List Char)) :
    [' '].intercalate (w :: ws) = w ++ (if ws = [] then [] else ' ' :: [' '].intercalate ws) := by
  cases ws <;> simp

theorem collapse_cons_cons {c d : Char} (hc : isBlank c = false) (hd : isBlank d = false)
    (s : List Char) : collapse (c :: d :: s) = c :: collapse (d :: s) := by
  obtain ⟨w, ws, shorter, longer⟩ := words_cons_solid hc hd s
  rw [collapse, longer, collapse, shorter, intercalate_cons, intercalate_cons, List.cons_append]

theorem words_singleton {c : Char} (solid : isBlank c = false) : words [c] = [[c]] :=
  words_of_solid (by simpa using solid) (List.cons_ne_nil c [])

theorem collapse_singleton {c : Char} (solid : isBlank c = false) : collapse [c] = [c] := by
  rw [collapse, words_singleton solid]
  rfl

/-- White space inside a text becomes one space if more follows. -/
theorem collapse_cons_cons_blank {c b : Char} (solid : isBlank c = false) (blank : isBlank b = true)
    (s : List Char) :
    (collapse (c :: b :: s) = [c] ∧ collapse s = []) ∨
      collapse (c :: b :: s) = c :: ' ' :: collapse s := by
  have split : words (c :: b :: s) = [c] :: words s :=
    (words_append_cons blank [c] s).trans (by rw [words_singleton solid, List.singleton_append])
  cases more : words s with
  | nil => exact Or.inl ⟨by rw [collapse, split, more]; rfl, by rw [collapse, more]; rfl⟩
  | cons w ws =>
    refine Or.inr ?_
    rw [collapse, split, intercalate_cons, if_neg (by simp [more])]
    rfl

theorem respaced_collapse : (s : List Char) → Respaced s (collapse s)
  | [] => Respaced.nil
  | c :: s => by
    have rest := respaced_collapse s
    cases hc : isBlank c with
    | true =>
      rw [collapse_cons_blank hc]
      exact Respaced.drop hc rest
    | false =>
      match s with
      | [] =>
        rw [collapse_singleton hc]
        exact Respaced.refl [c]
      | d :: s =>
        cases hd : isBlank d with
        | false =>
          rw [collapse_cons_cons hc hd]
          exact Respaced.keep c rest
        | true =>
          have inner := respaced_collapse s
          rcases collapse_cons_cons_blank hc hd s with ⟨same, none⟩ | same
          · rw [none] at inner
            rw [same]
            exact Respaced.keep c (Respaced.drop hd inner)
          · rw [same]
            exact Respaced.keep c (Respaced.space hd inner)

end StyleFactor.Text
