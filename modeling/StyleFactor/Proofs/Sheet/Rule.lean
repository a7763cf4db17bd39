import StyleFactor.Proofs.Sheet.Block

/-!
Rules and font faces as they are written, read again. The space in front of the brace is read as a
part of the last selector and lost when the selector is collapsed.
-/
namespace StyleFactor

open Grammar Grammar.Reader

/-- The node is read as the entry, positions apart. -/
def Says (n : Node) (e : Entry) : Prop :=
  ∀ o, ∃ e', Entry.ofNode o n = .ok e' ∧ e'.unplaced = e.unplaced

variable {l : Layout} {s : String} {c : Char} {t : List Char}

theorem WellFormedSelector.nonempty (h : WellFormedSelector s) : s.toList ≠ [] := by
  intro empty
  obtain ⟨xs, read⟩ := h.read
  rw [empty] at read
  cases read

/-- What it takes to read a selector back in front of a text. -/
structure SelectorFits (s : String) (t : List Char) : Prop where
  nonempty : s.toList ≠ []
  collapsed : Text.collapse s.toList = s.toList
  read : selector (s.toList ++ t) =
    some (s.toList ++ (selectorItem.many t).1, (selectorItem.many t).2)
  start : gap (s.toList ++ t) = none

theorem gap_collapsed {s : List Char} (collapsed : Text.collapse s = s) (nonempty : s ≠ [])
    (plain : ¬['/', '*'] <+: s) (next : c ≠ '*') (t : List Char) : gap (s ++ c :: t) = none := by
  refine gap_append_none ?_ nonempty plain next t
  intro d u same
  rw [same] at collapsed
  exact Text.not_isSpace (Text.not_isBlank_of_collapse collapsed)

theorem WellFormedSelector.fits (h : WellFormedSelector s) (next : c ≠ '*') (t : List Char) :
    SelectorFits s (c :: t) where
  nonempty := h.nonempty
  collapsed := h.collapsed
  read := selector_append h.read _
  start := gap_collapsed h.collapsed h.nonempty h.plain next t

theorem reads_sel {sp : List Char} (h : SelectorFits s (sp ++ c :: t))
    (short : sp = [] ∨ sp = [' ']) (stop : c = ',' ∨ c = '{') :
    Reads sel (s.toList ++ sp) (c :: t) [.mk "sel" 0 0 (s.toList ++ sp) []] := by
  refine reads_leaf "sel" ?_
  rw [List.append_assoc, h.read, many_selectorItem short stop]

theorem collapsed_sel (h : Text.collapse s.toList = s.toList) {sp : List Char}
    (short : sp = [] ∨ sp = [' ']) (tag : String) :
    collapsed (.mk tag 0 0 (s.toList ++ sp) []) = s := by
  have same : Text.collapse (s.toList ++ sp) = s.toList := by
    rcases short with rfl | rfl
    · rw [List.append_nil, h]
    · rw [Text.collapse_concat_blank (by decide), h]
  rw [collapsed, str_mk, same, String.ofList_toList]

theorem withoutGaps_append (ns ms : List Node) :
    withoutGaps (ns ++ ms) = withoutGaps ns ++ withoutGaps ms := List.filter_append ns ms

theorem withoutGaps_gapNodes (w : List Char) : withoutGaps (gapNodes w) = [] := by
  cases w <;> simp [withoutGaps, gapNodes]

/-- The selectors of a rule, each behind a comma. -/
def Layout.selListing (l : Layout) : Listing String where
  chars := String.toList
  text := id
  Fits := SelectorFits
  sign := ','
  space := l.space.toList
  last := l.space.toList
  stop := '{'

def selsChars (l : Layout) (s : String) (ss : List String) : List Char :=
  s.toList ++ l.selListing.more ss

theorem selsChars_nil (l : Layout) (s : String) : selsChars l s [] = s.toList ++ l.space.toList :=
  rfl

theorem selsChars_cons (l : Layout) (s u : String) (ss : List String) :
    selsChars l s (u :: ss) = s.toList ++ (',' :: l.space.toList ++ selsChars l u ss) := rfl

theorem joined_selListing (l : Layout) : l.selListing.Joined where
  sign := rfl
  space := l.isSpace_space
  last t := by
    have last : l.selListing.last = l.space.toList := rfl
    rw [last]
    rcases l.toList_space with space | space <;> rw [space]
    · exact ⟨'{', t, rfl, rfl⟩
    · exact ⟨' ', _, rfl, rfl⟩

/-- Every selector fits in front of what is written behind it. -/
def SelsFit (l : Layout) (ss : List String) (t : List Char) : Prop := l.selListing.FitAll ss t

theorem selsFit_of_wellFormed {ss : List String} (wf : ∀ s ∈ ss, WellFormedSelector s)
    (t : List Char) : SelsFit l ss ('{' :: t) := by
  refine Listing.fitAll_of_forall (joined_selListing l) (fun s hs c u joint => ?_) t
  refine (wf s hs).fits ?_ u
  rintro rfl
  cases joint

theorem gap_selsChars {ss : List String} (h : SelsFit l (s :: ss) t) :
    gap (selsChars l s ss ++ t) = none := by
  rw [selsChars, List.append_assoc]
  exact h.1.start

theorem reads_selsChars {ss : List String} (fit : SelsFit l (s :: ss) ('{' :: t)) :
    ∃ ns, Reads (sel ++ (separator ',' ++ sel).star) (selsChars l s ss) ('{' :: t) ns ∧
      (withoutGaps ns).map collapsed = s :: ss := by
  induction ss generalizing s with
  | nil =>
    have stop : (separator ',' ++ sel) ('{' :: t) = none :=
      separator_none rfl (by decide) (by decide) _ t
    have read := (reads_sel fit.1 l.toList_space (Or.inr rfl)).append (reads_star_nil stop)
    rw [List.append_nil, List.append_nil] at read
    have name := collapsed_sel fit.1.collapsed l.toList_space "sel"
    exact ⟨_, read, congrArg (· :: []) name⟩
  | cons u ss ih =>
    obtain ⟨here, others⟩ : SelectorFits s (',' :: l.space.toList ++ selsChars l u ss ++ '{' :: t) ∧
      SelsFit l (u :: ss) ('{' :: t) := fit
    obtain ⟨ns, list, found⟩ := ih others
    have apart : Reads (separator ',') (',' :: l.space.toList) (selsChars l u ss ++ '{' :: t)
        (gapNodes l.space.toList) :=
      reads_separator rfl (by decide) l.isSpace_space (gap_selsChars others)
    have rest := apart.separated (List.cons_ne_nil _ _) list keeps_sel
    have bare : ([] : List Char) = [] ∨ ([] : List Char) = [' '] := Or.inl rfl
    have name := collapsed_sel here.collapsed bare "sel"
    have first : Reads sel (s.toList ++ [])
        (',' :: l.space.toList ++ selsChars l u ss ++ '{' :: t) _ := reads_sel here bare (Or.inl rfl)
    rw [List.append_nil] at first name
    refine ⟨_, first.append rest, ?_⟩
    rw [withoutGaps_append, withoutGaps_append, withoutGaps_gapNodes, List.nil_append,
      List.map_append, found]
    simp [withoutGaps, name]

theorem intercalate_selsChars (l : Layout) (s : String) (ss : List String) :
    (("," ++ l.space).intercalate (s :: ss)).toList ++ l.space.toList = selsChars l s ss := by
  induction ss generalizing s with
  | nil => simp [selsChars_nil]
  | cons u ss ih =>
    rw [String.intercalate_cons_cons, selsChars_cons, ← ih u]
    simp

theorem toList_selectors (h : s.toList ≠ []) (ss : List String) :
    (l.selectors (s :: ss)).toList = selsChars l s ss := by
  have nonempty : (("," ++ l.space).intercalate (s :: ss)).isEmpty = false := by
    cases ss <;> simp_all [String.isEmpty_eq_false_iff]
  rw [Layout.selectors, ← intercalate_selsChars]
  simp [nonempty]

theorem says_rule {r : Rule} {sels : Node} {b : Node} (cs : List Char) (tag : sels.tag = "sels")
    (found : (withoutGaps sels.children).map collapsed = r.selectors)
    (holds : HoldsDecls r.declarations b) :
    Says (.mk "rule" 0 0 cs [sels, b]) (.rule r) := by
  intro o
  have first : (Node.mk "rule" 0 0 cs [sels, b]).need "sels" = .ok sels := by
    simp [Node.need, Node.find, tag]
  have second : (Node.mk "rule" 0 0 cs [sels, b]).find "block" = some b := by
    simp [Node.find, holds.1, tag]
  obtain ⟨ds, decls, same⟩ := declsOfNode_of_holds second holds o
  refine ⟨.rule ⟨r.selectors, ds, some (o.position (.mk "rule" 0 0 cs [sels, b]))⟩, ?_, ?_⟩
  · simp [Entry.ofNode, Rule.ofNode, first, decls, found, bind, Except.bind, pure, Except.pure]
  · simp [Entry.unplaced, Rule.unplaced, same]

def ruleChars (l : Layout) (r : Rule) : List Char :=
  (l.selectors r.selectors).toList ++ blockChars l r.declarations

/-- What it takes to read a rule back in front of a text. -/
structure Rule.Fits (l : Layout) (r : Rule) (t : List Char) : Prop where
  nonempty : r.selectors ≠ []
  selectors : SelsFit l r.selectors (blockChars l r.declarations ++ t)
  declarations : DeclsFit l r.declarations ('}' :: t)

theorem Rule.WellFormed.fits (h : l.Readable) {r : Rule} (wf : r.WellFormed) (t : List Char) :
    r.Fits l t := by
  refine ⟨wf.nonempty, ?_, declsFit_of_wellFormed h wf.declarations t⟩
  obtain ⟨u, brace⟩ := blockChars_head l r.declarations
  rw [brace]
  exact selsFit_of_wellFormed wf.selectors (u ++ t)

theorem reads_rule (h : l.Readable) {r : Rule} (fit : r.Fits l t) :
    ∃ n, Reads rule (ruleChars l r) t [n] ∧ Says n (.rule r) := by
  obtain ⟨b, block, holds⟩ := reads_block h fit.declarations
  obtain ⟨u, brace⟩ := blockChars_head l r.declarations
  obtain ⟨s, ss, names⟩ := List.exists_cons_of_ne_nil fit.nonempty
  have sels := fit.selectors
  rw [names, brace] at sels
  obtain ⟨ns, list, found⟩ := reads_selsChars sels
  have list : Reads Grammar.sels (selsChars l s ss) (blockChars l r.declarations ++ t)
      [.mk "sels" 0 0 (selsChars l s ss) ns] := by
    rw [brace]
    exact list.node "sels"
  have read := (list.append block).node "rule"
  rw [ruleChars, names, toList_selectors sels.1.nonempty]
  exact ⟨_, read, says_rule _ rfl (found.trans names.symm) holds⟩

/-- The text of a rule starts with its first selector. -/
theorem ruleChars_head {r : Rule} (fit : r.Fits l t) : ∃ s u,
    SelectorFits s u ∧ ruleChars l r ++ t = s.toList ++ u := by
  obtain ⟨s, ss, names⟩ := List.exists_cons_of_ne_nil fit.nonempty
  have sels := fit.selectors
  rw [names] at sels
  refine ⟨s, _, sels.1, ?_⟩
  rw [ruleChars, names, toList_selectors sels.1.nonempty, selsChars, List.append_assoc,
    List.append_assoc]

theorem starts_atrule : Starts (fun c => c == '@' || (c == '@' || c == '@')) atrule := by
  have face : Starts (· == '@') fontface :=
    (((starts_word '@' "font-face".toList).plain.append _).append _).node _
  have block : Starts (· == '@') atblock :=
    ((((starts_one (· == '@')).plain.append _).append _).append _).node _
  have statement : Starts (· == '@') atstatement :=
    ((((starts_one (· == '@')).plain.append _).append _).append _).node _
  exact (face.orElse (block.orElse statement)).node _

theorem gap_ruleChars {r : Rule} (fit : r.Fits l t) : gap (ruleChars l r ++ t) = none := by
  obtain ⟨s, u, first, whole⟩ := ruleChars_head fit
  rw [whole]
  exact first.start

theorem atrule_ruleChars {r : Rule} (fit : r.Fits l t) : atrule (ruleChars l r ++ t) = none := by
  obtain ⟨s, u, first, whole⟩ := ruleChars_head fit
  obtain ⟨c, v, same, hc⟩ := starts_selectorItem.append _ _ _ _ first.read
  have other : (c == '@') = false := by
    rw [beq_eq_false_iff_ne]
    rintro rfl
    cases hc
  rw [whole, same]
  exact starts_atrule.cons (by rw [other]; rfl) v

theorem says_fontFace {f : FontFace} {n b : Node} (tag : n.tag = "fontface")
    (found : n.find "block" = some b) (holds : HoldsDecls f.declarations b) (cs : List Char) :
    Says (.mk "atrule" 0 0 cs [n]) (.fontFace f) := by
  intro o
  obtain ⟨ds, decls, same⟩ := declsOfNode_of_holds found holds o
  refine ⟨.fontFace ⟨ds, some (o.position n)⟩, ?_, ?_⟩
  · simp [Entry.ofNode, Node.first, tag, FontFace.ofNode, decls, bind, Except.bind, pure,
      Except.pure]
  · simp [Entry.unplaced, FontFace.unplaced, same]

def fontFaceChars (l : Layout) (f : FontFace) : List Char :=
  "@font-face".toList ++ l.space.toList ++ blockChars l f.declarations

theorem reads_fontFace (h : l.Readable) {f : FontFace} (fit : DeclsFit l f.declarations ('}' :: t)) :
    ∃ n, Reads atrule (fontFaceChars l f) t [n] ∧ Says n (.fontFace f) := by
  obtain ⟨b, block, holds⟩ := reads_block h fit
  obtain ⟨u, brace⟩ := blockChars_head l f.declarations
  have start : gap (blockChars l f.declarations ++ t) = none := by
    rw [brace]
    exact gap_cons rfl (by decide) _
  have word := reads_word "@font-face".toList (l.space.toList ++ (blockChars l f.declarations ++ t))
  have face := ((word.append (reads_gaps l.isSpace_space start)).append block).node "fontface"
  have read := (face.first (atblock <|> atstatement)).node "atrule"
  refine ⟨_, read, says_fontFace rfl ?_ holds _⟩
  cases l.space.toList <;> simp [Node.find, gapNodes, holds.1]

end StyleFactor
