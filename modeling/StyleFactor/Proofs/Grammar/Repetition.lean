import StyleFactor.Proofs.Tree.Inversion

/-!
Repetitions come to an end by themselves. A reader that takes something whenever it matches can be
repeated until it fails, and the text that is left is shorter each time; nothing else has to stop it.
Main statement: such a repetition is the one that the grammar makes (`Advances.repeated_iff`). Every
production that is repeated, or that something repeated starts with, is a reader of this kind.
-/
namespace StyleFactor.Grammar

namespace Reader

variable {α : Type} {a b : Reader α}

/-- Repeated as often as it matches, with nothing to stop it early: what was taken and what is
left. -/
inductive Repeated (a : Reader α) : List Char → List α × List Char → Prop
  | stop {s : List Char} : a s = none → Repeated a s ([], s)
  | next {s m r : List Char} {xs ys : List α} : a s = some (xs, m) → Repeated a m (ys, r) →
      Repeated a s (xs ++ ys, r)

/-- Less text is left than there was. -/
def Advances (a : Reader α) : Prop := ∀ s xs r, a s = some (xs, r) → r.length < s.length

/-- No more text is left than there was. -/
def Shrinks (a : Reader α) : Prop := ∀ s xs r, a s = some (xs, r) → r.length ≤ s.length

theorem Lossless.shrinks {view : List α → List Char} (h : Lossless view a) : a.Shrinks := by
  intro s xs r read
  have whole := congrArg List.length (h s xs r read)
  rw [List.length_append] at whole
  omega

theorem Advances.append (ha : a.Advances) (hb : b.Shrinks) : (a ++ b).Advances := by
  intro s zs r read
  obtain ⟨xs, m, ys, first, second, -⟩ := append_eq_some.1 read
  have taken := ha s xs m first
  have left := hb m ys r second
  omega

theorem Shrinks.append (ha : a.Shrinks) (hb : b.Advances) : (a ++ b).Advances := by
  intro s zs r read
  obtain ⟨xs, m, ys, first, second, -⟩ := append_eq_some.1 read
  have left := ha s xs m first
  have taken := hb m ys r second
  omega

theorem Advances.orElse (ha : a.Advances) (hb : b.Advances) : (a <|> b).Advances := by
  intro s xs r read
  rcases orElse_eq_some.1 read with first | ⟨-, second⟩
  · exact ha s xs r first
  · exact hb s xs r second

theorem Advances.map {β : Type} (ha : a.Advances) (f : List α → List β) : (a.map f).Advances := by
  intro s ys r read
  obtain ⟨xs, inner, -⟩ := map_eq_some.1 read
  exact ha s xs r inner

/-- A repetition that is never stopped early is the one that the grammar makes. -/
theorem Advances.repeated_iff (ha : a.Advances) {s : List Char} {x : List α × List Char} :
    a.Repeated s x ↔ x = a.many s := by
  constructor
  · intro h
    induction h with
    | stop none => rw [many_of_none none]
    | next first _ ih => rw [many_of_some first (ha _ _ _ first), ← ih]
  · rintro rfl
    fun_induction Reader.many a s with
    | case1 s none => exact .stop none
    | case2 s xs m first shorter ys r rest ih =>
      rw [rest] at ih
      exact .next first ih
    | case3 s xs m first stuck => exact absurd (ha _ _ _ first) stuck

end Reader

open Reader

/-! Readers of characters. -/

theorem advances_one (p : Char → Bool) : (one p).Advances := by
  intro s xs r read
  obtain ⟨c, -, -, rfl⟩ := one_eq_some.1 read
  exact Nat.lt_succ_self _

theorem Pliant.advances {a : Reader Char} (h : Pliant a) : a.Advances := by
  intro s xs r read
  have whole : xs ++ r = s := h.lossless s xs r read
  have nonempty : xs ≠ [] := by
    rintro rfl
    cases whole
    exact h.takes _ read
  have := List.length_pos_iff.2 nonempty
  rw [← whole, List.length_append]
  omega

theorem advances_word (c : Char) (w : List Char) : (word (c :: w)).Advances := by
  intro s xs r read
  simp only [word] at read
  split at read
  · next opens =>
    cases read
    obtain ⟨t, rfl⟩ := List.isPrefixOf_iff_prefix.1 opens
    rw [List.drop_left, List.length_append, List.length_cons]
    omega
  · cases read

theorem advances_plus {a : Reader Char} (ha : a.Advances) (lossless : a.Lossless id) :
    a.plus.Advances :=
  ha.append (lossless.star rfl fun _ _ => rfl).shrinks

theorem advances_selector : selector.Advances :=
  advances_plus pliant_selectorItem.advances pliant_selectorItem.lossless

theorem advances_name : name.Advances :=
  (advances_one _).append ((lossless_one _).star rfl fun _ _ => rfl).shrinks

theorem advances_propertyText : propertyText.Advances :=
  ((lossless_one _).opt rfl).shrinks.append advances_name

/-! Productions. -/

theorem Reader.Advances.plain {a : Reader Char} (ha : a.Advances) : (plain a).Advances := ha.map _

theorem Reader.Advances.node {a : Reader Fragment} (ha : a.Advances) (tag : String) :
    (node tag a).Advances := ha.map _

theorem Reader.Advances.leaf {a : Reader Char} (ha : a.Advances) (tag : String) :
    (leaf tag a).Advances := ha.plain.node tag

theorem advances_sign (c : Char) : (plain (sign c)).Advances := (advances_one _).plain

theorem advances_comment : comment.Advances :=
  (((advances_word '/' ['*']).plain.append (keeps_leaf _ lossless_commentText).shrinks).append
    (keeps_word _).shrinks).node _

theorem advances_gap : gap.Advances := fun _ _ _ => gap_shorter

theorem advances_decl : decl.Advances :=
  (((((advances_propertyText.leaf _).append keeps_gap.star.shrinks).append
    (keeps_sign _).shrinks).append keeps_gap.star.shrinks).append
      (keeps_leaf _ lossless_valueText).shrinks).node _

theorem advances_separator (c : Char) : (separator c).Advances :=
  (keeps_gap.star.shrinks.append (advances_sign c)).append keeps_gap.star.shrinks

theorem advances_sel : sel.Advances := advances_selector.leaf _

theorem advances_sels : sels.Advances :=
  (advances_sel.append keeps_nextSel.star.shrinks).node _

theorem advances_rule : rule.Advances := (advances_sels.append keeps_block.shrinks).node _

theorem advances_fontface : fontface.Advances :=
  (((advances_word '@' "font-face".toList).plain.append keeps_gap.star.shrinks).append
    keeps_block.shrinks).node _

theorem advances_heading : (plain (sign '@') ++ atname ++ atprelude).Advances :=
  ((advances_sign '@').append keeps_atname.shrinks).append keeps_atprelude.shrinks

theorem advances_atblock : atblock.Advances := (advances_heading.append keeps_atbody.shrinks).node _

theorem advances_atstatement : atstatement.Advances :=
  (advances_heading.append (keeps_sign _).shrinks).node _

theorem advances_atrule : atrule.Advances :=
  (advances_fontface.orElse (advances_atblock.orElse advances_atstatement)).node _

theorem advances_toplevel : toplevel.Advances :=
  (advances_gap.orElse (advances_atrule.orElse advances_rule)).node _

end StyleFactor.Grammar
