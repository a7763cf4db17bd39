import StyleFactor.Proofs.Sheet.Rule

/-!
Other at-rules as they are written, read again. They come after font faces in the grammar, so no
other name may be taken for one.
-/
namespace StyleFactor

open Grammar Grammar.Reader

variable {l : Layout} {s t : List Char} {c : Char}

/-- Another name is a piece of `font-face` that ends in between, or goes on behind it. -/
theorem font_face_split (h : Entire name s) (other : s ≠ "font-face".toList)
    (stop : isNameChar c = false) {u : List Char} (split : "font-face".toList ++ u = s ++ c :: t) :
    ∃ d v, u = d :: v ∧ isNameChar d = true := by
  rcases List.append_eq_append_iff.1 split with ⟨v, long, tail⟩ | ⟨v, short, tail⟩
  · cases v with
    | nil => exact absurd (by simpa using long) other
    | cons d v =>
      rw [long] at h
      exact ⟨d, _, tail, isNameChar_of_name h d (by simp)⟩
  · cases v with
    | nil => exact absurd (by simpa using short.symm) other
    | cons d v =>
      have letters : ∀ e ∈ "font-face".toList, isNameChar e = true :=
        List.all_eq_true.1 (by decide)
      have same : c = d := (List.cons.inj tail).1
      rw [same, letters d (by rw [short]; simp)] at stop
      cases stop

theorem block_none (h : c ≠ '{') (t : List Char) : block (c :: t) = none := by
  have starts : Starts (· == '{') block :=
    (((((starts_one _).plain.append _).append _).append _).append _).node _
  exact starts.cons (beq_eq_false_iff_ne.2 h) t

theorem fontface_none (h : Entire name s) (other : s ≠ "font-face".toList)
    (stop : isNameChar c = false) : fontface ('@' :: (s ++ c :: t)) = none := by
  have whole : (plain (word "@font-face".toList) ++ gap.star ++ block) ('@' :: (s ++ c :: t)) =
      none := by
    by_cases opens : "@font-face".toList <+: '@' :: (s ++ c :: t)
    · obtain ⟨u, hu⟩ := opens
      obtain ⟨d, v, rfl, hd⟩ := font_face_split h other stop (List.cons.inj hu).2
      have brace : d ≠ '{' := by
        rintro rfl
        cases hd
      have gaps : Reads gap.star [] (d :: v) [] :=
        reads_star_nil (gap_of_class hd (by decide) v)
      have word := reads_word "@font-face".toList ([] ++ d :: v)
      have read := (word.append gaps).append_none (block_none brace v)
      rw [← hu]
      simpa using read
    · rw [append_apply, append_apply, word_none opens]
      rfl
  rw [fontface, node, map, whole, Option.map_none]

theorem atbody_group {ps : List Fragment} {r : List Char} (read : atbody s = some (ps, r)) :
    ∃ qs, ps = [.node "atbody" qs] := by
  obtain ⟨qs, group, -⟩ := read_group bodyNest (P := fun _ => True) (fun _ => trivial)
    (fun _ _ _ _ => trivial) read
  exact ⟨qs, group⟩

theorem reads_atbody (h : Entire atbody s) (t : List Char) :
    ∃ ns, Reads atbody s t [.mk "atbody" 0 0 s ns] := by
  obtain ⟨ps, read⟩ := h
  obtain ⟨qs, rfl⟩ := atbody_group read
  have chars : charsOf qs = s := by simpa using keeps_atbody _ _ _ read
  refine ⟨sketches qs, _, extends_nest _ _ _ _ read t, by simpa using chars, ?_⟩
  simp [sketches, Fragment.sketch, chars]

def preludeChars (a : AtRule) (sp : List Char) : List Char :=
  (if a.prelude.isEmpty then "" else " " ++ a.prelude).toList ++ sp

theorem preludeChars_eq (a : AtRule) (sp : List Char) :
    ∃ lead, (lead = [] ∨ lead = [' ']) ∧ preludeChars a sp = lead ++ (a.prelude.toList ++ sp) := by
  cases empty : a.prelude.isEmpty with
  | true =>
    rw [String.isEmpty_iff] at empty
    exact ⟨[], Or.inl rfl, by simp [preludeChars, empty]⟩
  | false => exact ⟨[' '], Or.inr rfl, by simp [preludeChars, empty]⟩

section

variable {a : AtRule} {sp : List Char} (short : sp = [] ∨ sp = [' '])
include short

theorem preludeChars_head (stop : c = '{' ∨ c = ';') (t : List Char) :
    ∃ d u, preludeChars a sp ++ c :: t = d :: u ∧ isNameChar d = false := by
  have closing : isNameChar c = false := by rcases stop with rfl | rfl <;> rfl
  cases empty : a.prelude.isEmpty with
  | true =>
    rcases short with rfl | rfl
    · exact ⟨c, t, by simp [preludeChars, empty], closing⟩
    · exact ⟨' ', c :: t, by simp [preludeChars, empty], rfl⟩
  | false => exact ⟨' ', a.prelude.toList ++ (sp ++ c :: t), by simp [preludeChars, empty], rfl⟩

theorem collapse_preludeChars (collapsed : Text.collapse a.prelude.toList = a.prelude.toList) :
    Text.collapse (preludeChars a sp) = a.prelude.toList := by
  obtain ⟨lead, before, same⟩ := preludeChars_eq a sp
  have behind : Text.collapse (a.prelude.toList ++ sp) = a.prelude.toList := by
    rcases short with rfl | rfl
    · rw [List.append_nil, collapsed]
    · rw [Text.collapse_concat_blank (by decide), collapsed]
  rw [same]
  rcases before with rfl | rfl
  · exact behind
  · rw [List.singleton_append, Text.collapse_cons_blank (by decide), behind]

theorem reads_heading (name : Entire Grammar.name a.name.toList)
    (prelude : Entire preludeText a.prelude.toList) (stop : c = '{' ∨ c = ';') (t : List Char) :
    Reads (plain (sign '@') ++ atname ++ atprelude)
      ('@' :: (a.name.toList ++ preludeChars a sp)) (c :: t)
      [.mk "atname" 0 0 a.name.toList [], .mk "atprelude" 0 0 (preludeChars a sp) []] := by
  obtain ⟨d, u, first, other⟩ := preludeChars_head (a := a) short stop t
  obtain ⟨lead, before, same⟩ := preludeChars_eq a sp
  have named : Reads atname a.name.toList (preludeChars a sp ++ c :: t)
      [.mk "atname" 0 0 a.name.toList []] := by
    refine reads_leaf "atname" ?_
    rw [first]
    exact name_append name other
  have preluded : Reads atprelude (preludeChars a sp) (c :: t)
      [.mk "atprelude" 0 0 (preludeChars a sp) []] := by
    refine reads_leaf "atprelude" ?_
    rw [same]
    simpa using preludeText_append (t := t) prelude before short stop
  exact ((reads_sign '@' _).append named).append preluded

theorem fontface_heading (name : Entire Grammar.name a.name.toList)
    (notFontFace : a.name ≠ "font-face") (stop : c = '{' ∨ c = ';') (t : List Char) :
    fontface ('@' :: (a.name.toList ++ preludeChars a sp) ++ c :: t) = none := by
  obtain ⟨d, u, first, other⟩ := preludeChars_head (a := a) short stop t
  have apart : a.name.toList ≠ "font-face".toList := fun same =>
    notFontFace (String.toList_inj.1 same)
  rw [List.cons_append, List.append_assoc, first]
  exact fontface_none name apart other

end

theorem says_atRule {a : AtRule} {prelude : List Char}
    (same : Text.collapse prelude = a.prelude.toList) {tag : String}
    (kind : tag = "atblock" ∨ tag = "atstatement") (cs : List Char) {ns : List Node}
    (body : (ns.find? (·.tag == "atbody")).map (fun b => String.ofList b.str) = a.body) :
    Says (.mk "atrule" 0 0 cs [.mk tag 0 0 cs (.mk "atname" 0 0 a.name.toList [] ::
      .mk "atprelude" 0 0 prelude [] :: ns)]) (.atRule a) := by
  intro o
  refine ⟨.atRule { a with position := some (o.position (.mk tag 0 0 cs
    (.mk "atname" 0 0 a.name.toList [] :: .mk "atprelude" 0 0 prelude [] :: ns))) }, ?_, rfl⟩
  rcases kind with rfl | rfl <;>
    simp [Entry.ofNode, Node.first, AtRule.ofNode, Node.need, Node.find, collapsed, same, body,
      bind, Except.bind, pure, Except.pure]

def atRuleChars (l : Layout) (a : AtRule) : List Char :=
  match a.body with
  | none => '@' :: (a.name.toList ++ preludeChars a []) ++ [';']
  | some b => '@' :: (a.name.toList ++ preludeChars a l.space.toList) ++ b.toList

theorem brace_of_atbody (h : Entire atbody s) (t : List Char) : ∃ u, s ++ t = '{' :: (u ++ t) := by
  obtain ⟨xs, read⟩ := h
  obtain ⟨d, u, same, hd⟩ := starts_nest bodyNest _ _ _ read
  rw [same, beq_iff_eq.1 hd]
  exact ⟨u, rfl⟩

/-- What it takes to read an at-rule back in front of a text. -/
structure AtRule.Fits (l : Layout) (a : AtRule) (t : List Char) : Prop where
  name : Entire Grammar.name a.name.toList
  prelude : Entire preludeText a.prelude.toList
  collapsed : Text.collapse a.prelude.toList = a.prelude.toList
  body : ∀ b ∈ a.body, Entire atbody b.toList
  other : fontface (atRuleChars l a ++ t) = none

theorem AtRule.WellFormed.fits {a : AtRule} (wf : a.WellFormed) (t : List Char) : a.Fits l t := by
  refine ⟨wf.name, wf.prelude, wf.collapsed, wf.body, ?_⟩
  unfold atRuleChars
  cases body : a.body with
  | none =>
    rw [List.append_assoc]
    exact fontface_heading (Or.inl rfl) wf.name wf.notFontFace (Or.inr rfl) t
  | some b =>
    obtain ⟨u, brace⟩ := brace_of_atbody (wf.body b body) t
    rw [List.append_assoc, brace]
    exact fontface_heading l.toList_space wf.name wf.notFontFace (Or.inl rfl) (u ++ t)

theorem reads_atRule {a : AtRule} (fit : a.Fits l t) :
    ∃ n, Reads atrule (atRuleChars l a) t [n] ∧ Says n (.atRule a) := by
  have noFace := fit.other
  unfold atRuleChars at noFace ⊢
  cases body : a.body with
  | none =>
    rw [body] at noFace
    have short : ([] : List Char) = [] ∨ ([] : List Char) = [' '] := Or.inl rfl
    have heading := reads_heading short fit.name fit.prelude (Or.inr rfl) t
    have statement := (heading.append (reads_sign ';' t)).node "atstatement"
    have noBody : atbody (';' :: t) = none := (starts_nest bodyNest).cons (by decide) t
    have noBlock : atblock ('@' :: (a.name.toList ++ preludeChars a []) ++ [';'] ++ t) = none := by
      have fails := heading.append_none noBody
      rw [List.append_assoc, List.singleton_append, atblock, node, map, fails, Option.map_none]
    have read := ((statement.second noBlock).second noFace).node "atrule"
    exact ⟨_, read, says_atRule (collapse_preludeChars short fit.collapsed) (Or.inr rfl) _
      body.symm⟩
  | some b =>
    rw [body] at noFace
    obtain ⟨ns, inner⟩ := reads_atbody (fit.body b body) t
    obtain ⟨u, brace⟩ := brace_of_atbody (fit.body b body) t
    have heading := reads_heading l.toList_space fit.name fit.prelude (Or.inl rfl) (u ++ t)
    rw [← brace] at heading
    have block := (heading.append inner).node "atblock"
    have read := ((block.first atstatement).second noFace).node "atrule"
    refine ⟨_, read, says_atRule (collapse_preludeChars l.toList_space fit.collapsed) (Or.inl rfl)
      _ ?_⟩
    simp [body]

end StyleFactor
