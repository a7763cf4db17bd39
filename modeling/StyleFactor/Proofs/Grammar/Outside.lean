import StyleFactor.Proofs.Grammar.Nesting

/-!
What stands outside of strings and groups. A text is scanned with no grammar at hand: one mark opens
a string and the next like it closes it, and of the two signs of a group one counts up and the other
down. Main statements: in a value nothing is left open, and outside there is none of the signs that
would end it (`outerText_valueText`); a body is one group (`outerText_atbody`).
-/
namespace StyleFactor.Grammar

open Reader

/-- The characters outside of strings and groups, if each string and each group is closed. `depth`
groups are open, and a string is if there is a mark. -/
def outerText (opening closing : Char) : Nat → Option Char → List Char → Option (List Char)
  | 0, none, [] => some []
  | _, _, [] => none
  | depth, some q, c :: s => outerText opening closing depth (if c = q then none else some q) s
  | depth, none, c :: s =>
    if isMark c then outerText opening closing depth (some c) s
    else if c = opening then outerText opening closing (depth + 1) none s
    else if c = closing then
      match depth with
      | 0 => none
      | depth + 1 => outerText opening closing depth none s
    else
      match depth with
      | 0 => (outerText opening closing 0 none s).map (c :: ·)
      | depth + 1 => outerText opening closing (depth + 1) none s

section

variable {o e : Char} {s r i : List Char}

theorem outerText_string (read : string s = some (i, r)) :
    outerText o e 0 none s = outerText o e 0 none r := by
  obtain ⟨q, u, mark, free, -, rfl⟩ := string_eq_some.1 read
  have inside : outerText o e 0 (some q) (u ++ q :: r) = outerText o e 0 none r := by
    clear read
    induction u with
    | nil => simp [outerText]
    | cons c u ih =>
      obtain ⟨other, rest⟩ := not_or.1 (List.mem_cons.not.1 free)
      rw [List.cons_append, outerText, if_neg (Ne.symm other), ih rest]
  rw [outerText, if_pos mark, inside]

variable {α : Type} {n : Nest α} (proper : n.Proper)
include proper

/-- Inside a group nothing is outside, and behind it the scan goes on as if there was no group. -/
theorem outerText_inside {outer : List (List α)} {here : List α} {mark : Option Char}
    {xs : List α} (read : n.inside outer here mark s = some (xs, r)) :
    outerText n.opening n.closing (outer.length + 1) mark s =
      outerText n.opening n.closing 0 none r := by
  induction s generalizing outer here mark with
  | nil => cases read
  | cons c s ih =>
    cases mark with
    | some q =>
      simp only [Nest.inside, outerText] at read ⊢
      exact ih read
    | none =>
      simp only [Nest.inside, outerText] at read ⊢
      split at read
      · next closes =>
        subst closes
        rw [if_neg (by simp [proper.closing]), if_neg (Ne.symm proper.apart), if_pos rfl]
        cases outer with
        | nil =>
          cases read
          rfl
        | cons o os => exact ih read
      · next other =>
        split at read
        · next opens =>
          subst opens
          rw [if_neg (by simp [proper.opening]), if_pos rfl]
          exact ih read
        · next inner =>
          rw [if_neg inner, if_neg other]
          split at read
          · next mark =>
            rw [if_pos mark]
            exact ih read
          · next plain =>
            rw [if_neg plain]
            exact ih read

theorem outerText_read {xs : List α} (read : n.read s = some (xs, r)) :
    outerText n.opening n.closing 0 none s = outerText n.opening n.closing 0 none r := by
  obtain ⟨c, u, rfl, opens⟩ := starts_nest n _ _ _ read
  obtain rfl := beq_iff_eq.1 opens
  rw [Nest.read_cons_opening] at read
  rw [outerText, if_neg (by simp [proper.opening]), if_pos rfl]
  exact outerText_inside proper read

end

theorem outerText_atbody {b : List Char} (body : Entire atbody b) :
    outerText '{' '}' 0 none b = some [] := by
  obtain ⟨ps, read⟩ := body
  exact outerText_read proper_bodyNest read

theorem outerText_parens {s r i : List Char} (read : parens s = some (i, r)) :
    outerText '(' ')' 0 none s = outerText '(' ')' 0 none r :=
  outerText_read (n := ⟨'(', ')', id, id⟩) ⟨by decide, rfl, rfl⟩ read

theorem outerText_valueItems {v : List Char} (items : Items valueItem [] v) :
    ∃ w, outerText '(' ')' 0 none v = some w ∧ ∀ c ∈ w, c ∉ [';', '{', '}'] := by
  induction items with
  | nil => exact ⟨[], rfl, List.forall_mem_nil _⟩
  | @cons i s _ read _ ih =>
    obtain ⟨w, rest, free⟩ := ih
    rw [List.append_nil] at read
    rcases orElse_eq_some.1 read with quoted | ⟨-, read⟩
    · exact ⟨w, (outerText_string quoted).trans rest, free⟩
    · rcases orElse_eq_some.1 read with group | ⟨-, single⟩
      · exact ⟨w, (outerText_parens group).trans rest, free⟩
      · obtain ⟨c, plain, -, whole⟩ := one_eq_some.1 single
        obtain ⟨noMark, noOpening, noClosing, ends⟩ :
            isMark c = false ∧ c ≠ '(' ∧ c ≠ ')' ∧ c ∉ [';', '{', '}'] := by
          simp_all [isMark]
        refine ⟨c :: w, ?_, List.forall_mem_cons.2 ⟨ends, free⟩⟩
        rw [whole, outerText, noMark, if_neg Bool.false_ne_true, if_neg noOpening, if_neg noClosing,
          rest]
        rfl

theorem outerText_valueText {v : List Char} (value : Entire valueText v) :
    ∃ w, outerText '(' ')' 0 none v = some w ∧ ∀ c ∈ w, c ∉ [';', '{', '}'] :=
  outerText_valueItems (pliant_valueItem.of_plus (value.eq lossless_valueText)).2

end StyleFactor.Grammar
