import StyleFactor.Grammar.Production

/-!
No production drops or adds a character. Main statement: the parts `css` returns and the text it
leaves are the text it was given.
-/
namespace StyleFactor.Grammar

/-- A production returns parts whose characters are those it has taken. -/
abbrev Reader.Keeps (a : Reader Fragment) : Prop := a.Lossless charsOf

theorem Reader.Keeps.append {a b : Reader Fragment} (ha : a.Keeps) (hb : b.Keeps) :
    (a ++ b).Keeps :=
  Reader.Lossless.append charsOf_append ha hb

theorem Reader.Keeps.opt {a : Reader Fragment} (ha : a.Keeps) : a.opt.Keeps :=
  Reader.Lossless.opt rfl ha

theorem Reader.Keeps.star {a : Reader Fragment} (ha : a.Keeps) : a.star.Keeps :=
  Reader.Lossless.star rfl charsOf_append ha

theorem keeps_plain {a : Reader Char} (ha : a.Lossless id) : (plain a).Keeps := by
  intro t ps r h
  obtain ⟨cs, hc, rfl⟩ := Reader.map_eq_some.1 h
  simpa using ha _ _ _ hc

theorem keeps_node (tag : String) {a : Reader Fragment} (ha : a.Keeps) : (node tag a).Keeps := by
  intro t ps r h
  obtain ⟨qs, hq, rfl⟩ := Reader.map_eq_some.1 h
  simpa using ha _ _ _ hq

theorem keeps_leaf (tag : String) {a : Reader Char} (ha : a.Lossless id) : (leaf tag a).Keeps :=
  keeps_node tag (keeps_plain ha)

theorem lossless_plus {a : Reader Char} (ha : a.Lossless id) : a.plus.Lossless id :=
  ha.plus rfl (fun _ _ => rfl)

theorem lossless_commentText : commentText.Lossless id := by
  intro t xs r h
  have eq : before ['*', '/'] t = (xs, r) := Option.some.inj h
  have := before_append ['*', '/'] t
  rwa [eq] at this

theorem lossless_selector : selector.Lossless id :=
  lossless_plus (lossless_parens.orElse (lossless_attr.orElse
    (lossless_string.orElse (lossless_one _))))

theorem lossless_valueText : valueText.Lossless id :=
  lossless_plus (lossless_string.orElse (lossless_parens.orElse (lossless_one _)))

theorem lossless_preludeText : preludeText.Lossless id :=
  (lossless_string.orElse (lossless_parens.orElse (lossless_one _))).star rfl (fun _ _ => rfl)

theorem lossless_propertyText : propertyText.Lossless id :=
  ((lossless_one _).opt rfl).append (fun _ _ => rfl) lossless_name

theorem inside_keeps (outer : List (List Fragment)) (here : List Fragment) (mark : Option Char)
    {t r : List Char} {ps : List Fragment} (h : bodyNest.inside outer here mark t = some (ps, r)) :
    charsOf ps ++ r = charsOf (here ++ outer.flatten).reverse ++ t := by
  induction t generalizing outer here mark with
  | nil => cases h
  | cons c t ih =>
    simp only [Nest.inside] at h
    split at h
    · simpa [bodyNest] using ih _ _ _ h
    · split at h
      · split at h
        · cases h; simp [bodyNest]
        · simpa [bodyNest] using ih _ _ _ h
      · split at h
        · simpa [bodyNest] using ih _ _ _ h
        · simpa [bodyNest] using ih _ _ _ h

theorem keeps_atbody : atbody.Keeps := by
  intro t ps r h
  match t with
  | [] => cases h
  | c :: t =>
    simp only [atbody, Nest.read] at h
    split at h
    · simpa [bodyNest] using inside_keeps _ _ _ h
    · cases h

theorem keeps_sign (c : Char) : (plain (sign c)).Keeps := keeps_plain (lossless_one _)

theorem keeps_word (w : List Char) : (plain (word w)).Keeps := keeps_plain (lossless_word w)

theorem keeps_comment : comment.Keeps :=
  keeps_node _ (((keeps_word _).append (keeps_leaf _ lossless_commentText)).append (keeps_word _))

theorem keeps_gap : gap.Keeps :=
  keeps_node _ ((keeps_leaf _ (lossless_plus (lossless_one _))).orElse keeps_comment)

theorem keeps_decl : decl.Keeps :=
  keeps_node _ (((((keeps_leaf _ lossless_propertyText).append keeps_gap.star).append
    (keeps_sign _)).append keeps_gap.star).append (keeps_leaf _ lossless_valueText))

/-- What stands between the elements of a list. -/
def separator (c : Char) : Reader Fragment := gap.star ++ plain (sign c) ++ gap.star

theorem keeps_separator (c : Char) : (separator c).Keeps :=
  (keeps_gap.star.append (keeps_sign c)).append keeps_gap.star

theorem keeps_nextDecl : (separator ';' ++ decl.opt).Keeps :=
  (keeps_separator ';').append keeps_decl.opt

theorem keeps_decls : decls.Keeps := keeps_node _ (keeps_decl.opt.append keeps_nextDecl.star)

theorem keeps_block : block.Keeps :=
  keeps_node _ (((((keeps_sign _).append keeps_gap.star).append keeps_decls).append
    keeps_gap.star).append (keeps_sign _))

theorem keeps_sel : sel.Keeps := keeps_leaf _ lossless_selector

theorem keeps_nextSel : (separator ',' ++ sel).Keeps :=
  (keeps_separator ',').append keeps_sel

theorem keeps_sels : sels.Keeps := keeps_node _ (keeps_sel.append keeps_nextSel.star)

theorem keeps_rule : rule.Keeps := keeps_node _ (keeps_sels.append keeps_block)

theorem keeps_fontface : fontface.Keeps :=
  keeps_node _ (((keeps_word _).append keeps_gap.star).append keeps_block)

theorem keeps_atname : atname.Keeps := keeps_leaf _ lossless_name

theorem keeps_atprelude : atprelude.Keeps := keeps_leaf _ lossless_preludeText

/-- What atblocks and statements start with. -/
theorem keeps_heading : (plain (sign '@') ++ atname ++ atprelude).Keeps :=
  ((keeps_sign _).append keeps_atname).append keeps_atprelude

theorem keeps_atblock : atblock.Keeps := keeps_node _ (keeps_heading.append keeps_atbody)

theorem keeps_atstatement : atstatement.Keeps :=
  keeps_node _ (keeps_heading.append (keeps_sign _))

theorem keeps_atrule : atrule.Keeps :=
  keeps_node _ (keeps_fontface.orElse (keeps_atblock.orElse keeps_atstatement))

theorem keeps_toplevel : toplevel.Keeps :=
  keeps_node _ (keeps_gap.orElse (keeps_atrule.orElse keeps_rule))

theorem css_append (text : List Char) : charsOf (css text).1 ++ (css text).2 = text :=
  keeps_toplevel.many rfl charsOf_append text

end StyleFactor.Grammar
