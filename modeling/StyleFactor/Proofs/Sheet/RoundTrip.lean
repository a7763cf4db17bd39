import Mathlib
import StyleFactor.Proofs.Sheet.AtRule

/-!
Reading undoes writing. Each entry has a text of its own that the grammar reads as one group at the
top of a sheet, if it fits in front of what is written behind it; between these texts there is
nothing but white space. Main statement: a well-formed sheet is read back from its text, without the
comments if it was written short.
-/
namespace StyleFactor

open Grammar Grammar.Reader

def Entry.isComment : Entry → Bool
  | .comment _ => true
  | _ => false

/-- What has no text of its own in a layout. -/
def Layout.drops (l : Layout) (e : Entry) : Bool := e.isWhitespace || e.isComment && l.minify

/-- What it takes to read an entry back in front of a text. -/
def Entry.Fits (l : Layout) (e : Entry) (t : List Char) : Prop :=
  match e with
  | .rule r => r.Fits l t
  | .fontFace f => DeclsFit l f.declarations ('}' :: t)
  | .atRule a => a.Fits l t
  | .comment c => ¬['*', '/'] <:+: c.text.toList
  | .whitespace s => s.toList ≠ [] ∧ ∀ c ∈ s.toList, isSpace c = true

theorem Entry.WellFormed.fits {l : Layout} (h : l.Readable) {e : Entry} (wf : e.WellFormed)
    (t : List Char) : e.Fits l t := by
  cases e with
  | rule r => exact Rule.WellFormed.fits h wf t
  | fontFace f => exact declsFit_of_wellFormed h wf t
  | atRule a => exact AtRule.WellFormed.fits wf t
  | comment c => exact wf
  | whitespace s => exact wf

/-- In front of `t` the text is read as one group, which is read as the entry. -/
structure Stands (s t : List Char) (e : Entry) : Prop where
  start : ∀ d ∈ s.head?, isSpace d = false
  stop : ∃ u z, s = u ++ [z] ∧ Text.isBlank z = false
  reads : ∃ n, Reads toplevel s t [.mk "toplevel" 0 0 s [n]] ∧ Says n e

variable {l : Layout}

section

variable {s t : List Char} {e : Entry}

theorem Stands.nonempty (h : Stands s t e) : s ≠ [] := by
  obtain ⟨u, z, last, -⟩ := h.stop
  rw [last]
  simp

theorem Stands.head (h : Stands s t e) (u : List Char) :
    ∀ d ∈ (s ++ u).head?, isSpace d = false := by
  have start := h.start
  cases s with
  | nil => exact absurd rfl h.nonempty
  | cons c s => exact start

theorem Stands.trimEnd (h : Stands s t e) (w v : List Char) :
    Text.trimEnd (w ++ (s ++ v)) = w ++ (s ++ Text.trimEnd v) := by
  obtain ⟨u, z, last, solid⟩ := h.stop
  have cut := Text.trimEnd_append_cons solid (w ++ u) v
  simpa [last] using cut

end

variable {t : List Char}

theorem stands_rule (h : l.Readable) {r : Rule} (fit : r.Fits l t) :
    Stands (ruleChars l r) t (.rule r) := by
  refine ⟨?_, ?_, ?_⟩
  · have start := isSpace_head_of_gap (gap_ruleChars fit)
    cases same : ruleChars l r with
    | nil => exact fun d hd => nomatch hd
    | cons c u =>
      rw [same] at start
      exact start
  · obtain ⟨u, closing⟩ := blockChars_last l r.declarations
    refine ⟨(l.selectors r.selectors).toList ++ u, '}', ?_, by decide⟩
    rw [ruleChars, closing, List.append_assoc]
  · obtain ⟨n, read, entry⟩ := reads_rule h fit
    have other := read.second (atrule_ruleChars fit)
    exact ⟨n, (other.second (gap_ruleChars fit)).node "toplevel", entry⟩

/-- What starts with an at sign can only be an at-rule. -/
theorem stands_at {s u : List Char} {e : Entry} (first : s = '@' :: u)
    (stop : ∃ u z, s = u ++ [z] ∧ Text.isBlank z = false)
    (reads : ∃ n, Reads atrule s t [n] ∧ Says n e) : Stands s t e := by
  refine ⟨?_, stop, ?_⟩
  · rw [first]
    rintro d ⟨⟩
    rfl
  · obtain ⟨n, read, entry⟩ := reads
    have noGap : gap (s ++ t) = none := by
      rw [first]
      exact gap_cons rfl (by decide) _
    exact ⟨n, ((read.first rule).second noGap).node "toplevel", entry⟩

theorem stands_fontFace (h : l.Readable) {f : FontFace} (fit : DeclsFit l f.declarations ('}' :: t)) :
    Stands (fontFaceChars l f) t (.fontFace f) := by
  obtain ⟨u, closing⟩ := blockChars_last l f.declarations
  have whole : fontFaceChars l f = ("@font-face".toList ++ l.space.toList) ++ (u ++ ['}']) :=
    congrArg _ closing
  have stop := whole.trans (List.append_assoc _ u _).symm
  have first : fontFaceChars l f =
      '@' :: ("font-face".toList ++ l.space.toList ++ blockChars l f.declarations) := rfl
  exact stands_at first ⟨_, '}', stop, by decide⟩ (reads_fontFace h fit)

theorem atRuleChars_last {a : AtRule} (bodies : ∀ b ∈ a.body, Entire atbody b.toList) :
    ∃ u z, atRuleChars l a = u ++ [z] ∧ Text.isBlank z = false := by
  unfold atRuleChars
  cases body : a.body with
  | none => exact ⟨_, ';', rfl, by decide⟩
  | some b =>
    obtain ⟨xs, read⟩ := bodies b body
    obtain ⟨u, closing⟩ := read_closed bodyNest read
    refine ⟨'@' :: (a.name.toList ++ preludeChars a l.space.toList) ++ u, '}', ?_, by decide⟩
    simp [closing, bodyNest]

theorem stands_atRule {a : AtRule} (fit : a.Fits l t) : Stands (atRuleChars l a) t (.atRule a) := by
  obtain ⟨u, first⟩ : ∃ u, atRuleChars l a = '@' :: u := by
    unfold atRuleChars
    cases a.body <;> exact ⟨_, rfl⟩
  exact stands_at first (atRuleChars_last fit.body) (reads_atRule fit)

theorem slice_commentChars (s : List Char) : Text.slice (commentChars s) 2 (-2) = s := by
  have start : Text.place (commentChars s) 2 = 2 := rfl
  have stop : Text.place (commentChars s) (-2) = s.length + 2 := by
    have width : (commentChars s).length = s.length + 4 := by simp [commentChars]
    rw [Text.place, if_pos (by decide), width]
    omega
  have inner : (commentChars s).drop 2 = s ++ ['*', '/'] := rfl
  rw [Text.slice, start, stop, inner, Nat.add_sub_cancel, List.take_left]

theorem says_comment (c : Comment) :
    Says (.mk "s" 0 0 (commentChars c.text.toList) [.mk "comment" 0 0 (commentChars c.text.toList)
      [.mk "commtext" 0 0 c.text.toList []]]) (.comment c) := by
  intro o
  refine ⟨.comment ⟨c.text, some (o.position (.mk "comment" 0 0 (commentChars c.text.toList)
    [.mk "commtext" 0 0 c.text.toList []]))⟩, ?_, rfl⟩
  simp [Entry.ofNode, Node.first, Comment.ofNode, slice_commentChars, bind, Except.bind, pure,
    Except.pure]

theorem says_space (s : List Char) :
    Says (.mk "s" 0 0 s [.mk "space" 0 0 s []]) (.whitespace (.ofList s)) :=
  fun _ => ⟨.whitespace (.ofList s), rfl, rfl⟩

theorem stands_comment {c : Comment} (closed : ¬['*', '/'] <:+: c.text.toList) :
    Stands (commentChars c.text.toList) t (.comment c) := by
  refine ⟨?_, ?_, ?_⟩
  · rintro d ⟨⟩
    rfl
  · exact ⟨['/', '*'] ++ c.text.toList ++ ['*'], '/', by simp [commentChars], by decide⟩
  · exact ⟨_, ((reads_comment closed t).first (atrule <|> rule)).node "toplevel", says_comment c⟩

theorem toList_rule (r : Rule) :
    (l.rule r.selectors (r.declarations.map (Decl.format l))).toList =
      ruleChars l r ++ l.lineBreak.toList := by
  rw [Layout.rule, String.toList_append, String.toList_append]
  rfl

theorem toList_fontFace (f : FontFace) :
    (l.fontFace (f.declarations.map (Decl.format l))).toList =
      fontFaceChars l f ++ l.lineBreak.toList := by
  rw [Layout.fontFace, String.toList_append, String.toList_append, String.toList_append]
  rfl

theorem toList_atRule (a : AtRule) :
    (l.atRule a).toList = atRuleChars l a ++ l.lineBreak.toList := by
  unfold Layout.atRule atRuleChars
  cases a.body <;> simp [preludeChars]

/-- What an entry is written as: white space if it is dropped, and else a text that stands for it
with white space behind, which is a line break if the text behind the entry matters. -/
theorem format_cases (h : l.Readable) (e : Entry) :
    (l.drops e = true ∧ ∀ t, e.Fits l t → ∀ c ∈ (e.format l).toList, isSpace c = true) ∨
      (l.drops e = false ∧ ∃ s w, (e.format l).toList = s ++ w ∧ (∀ c ∈ w, isSpace c = true) ∧
        ∀ u, e.Fits l (Text.trimEnd (l.lineBreak.toList ++ u)) →
          Stands s (Text.trimEnd (w ++ u)) e) := by
  cases e with
  | rule r =>
    exact Or.inr ⟨rfl, _, _, toList_rule r, l.isSpace_lineBreak, fun _ fit => stands_rule h fit⟩
  | fontFace f =>
    exact Or.inr ⟨rfl, _, _, toList_fontFace f, l.isSpace_lineBreak, fun _ fit =>
      stands_fontFace h fit⟩
  | atRule a =>
    exact Or.inr ⟨rfl, _, _, toList_atRule a, l.isSpace_lineBreak, fun _ fit => stands_atRule fit⟩
  | comment c =>
    cases short : l.minify with
    | true =>
      refine Or.inl ⟨short, ?_⟩
      simp [Entry.format, Layout.comment, short]
    | false =>
      refine Or.inr ⟨short, commentChars c.text.toList, [], ?_, by simp, fun _ => stands_comment⟩
      simp [Entry.format, Layout.comment, short, commentChars]
  | whitespace s =>
    refine Or.inl ⟨rfl, fun t fit => ?_⟩
    rw [Entry.format, Layout.whitespace]
    split
    · simp
    · split
      · exact List.all_eq_true.1 rfl
      · exact fit.2

/-- What is written behind a rule or an at-rule: the line break that ends it and the other entries,
without the white space at the end of a sheet. -/
def Layout.behind (l : Layout) (es : List Entry) : List Char :=
  Text.trimEnd (l.lineBreak.toList ++ es.flatMap fun e => (e.format l).toList)

/-- Every entry has the property in front of what is written behind it. -/
def Layout.EachInFront (l : Layout) (p : Entry → List Char → Prop) : List Entry → Prop
  | [] => True
  | e :: es => p e (l.behind es) ∧ l.EachInFront p es

def EntriesFit (l : Layout) (es : List Entry) : Prop := l.EachInFront (Entry.Fits l) es

theorem entriesFit_of_wellFormed (h : l.Readable) {es : List Entry}
    (wf : ∀ e ∈ es, e.WellFormed) : EntriesFit l es := by
  induction es with
  | nil => trivial
  | cons e es ih =>
    exact ⟨(wf e List.mem_cons_self).fits h _, ih fun x hx => wf x (List.mem_cons_of_mem e hx)⟩

/-- The nodes at the top of a sheet are read as these entries, with white space between them. -/
def Lists (ns : List Node) (es : List Entry) : Prop :=
  ∀ o, ∃ es', Sheet.ofNodes o ns = .ok es' ∧
    (es'.filter (!·.isWhitespace)).map Entry.unplaced = es.map Entry.unplaced

theorem lists_cons {n : Node} {ns : List Node} {e : Entry} {es : List Entry} (s : List Char)
    (entry : Says n e) (solid : e.isWhitespace = false) (rest : Lists ns es) :
    Lists (.mk "toplevel" 0 0 s [n] :: ns) (e :: es) := by
  intro o
  obtain ⟨e', read, same⟩ := entry o
  obtain ⟨es', others, sames⟩ := rest o
  refine ⟨e' :: es', ?_, ?_⟩
  · rw [Sheet.ofNodes] at others ⊢
    rw [List.mapM_cons, others]
    simp [Node.first, read, bind, Except.bind, pure, Except.pure]
  · have solid' : e'.isWhitespace = false := by
      rw [← Entry.isWhitespace_unplaced, same, Entry.isWhitespace_unplaced, solid]
    simp [solid', same, sames]

theorem lists_space {w : List Char} (nonempty : w ≠ []) {ns : List Node} {es : List Entry}
    (rest : Lists ns es) : Lists (.mk "toplevel" 0 0 w (gapNodes w) :: ns) es := by
  cases w with
  | nil => exact absurd rfl nonempty
  | cons c w =>
    intro o
    obtain ⟨es', others, sames⟩ := rest o
    obtain ⟨e', read, same⟩ := says_space (c :: w) o
    refine ⟨e' :: es', ?_, ?_⟩
    · rw [Sheet.ofNodes] at others ⊢
      rw [List.mapM_cons, others]
      simp [gapNodes, Node.first, read, bind, Except.bind, pure, Except.pure]
    · have blank : e'.isWhitespace = true := by
        rw [← Entry.isWhitespace_unplaced, same]
        rfl
      simpa [blank] using sames

theorem reads_behind_space {w s : List Char} {ns : List Node} {es : List Entry}
    (space : ∀ c ∈ w, isSpace c = true) (start : ∀ d ∈ s.head?, isSpace d = false)
    (read : Reads toplevel.star s [] ns) (lists : Lists ns es) :
    ∃ ms, Reads toplevel.star (w ++ s) [] ms ∧ Lists ms es := by
  cases w with
  | nil => exact ⟨ns, read, lists⟩
  | cons c w =>
    have nonempty : c :: w ≠ [] := List.cons_ne_nil c w
    have gap : Reads gap (c :: w) (s ++ []) (gapNodes (c :: w)) := by
      rw [List.append_nil]
      exact reads_space space nonempty start
    have lead := (gap.first (atrule <|> rule)).node "toplevel"
    exact ⟨_, lead.star_cons nonempty read, lists_space nonempty lists⟩

theorem reads_entries (h : l.Readable) {es : List Entry} (fit : EntriesFit l es)
    {w : List Char} (space : ∀ c ∈ w, isSpace c = true) :
    ∃ ns, Reads toplevel.star (Text.trimEnd (w ++ es.flatMap fun e => (e.format l).toList)) [] ns ∧
      Lists ns (es.filter (!l.drops ·)) := by
  -- Dropped entries and line breaks are collected in `w` until the next text that stands.
  induction es generalizing w with
  | nil =>
    have empty : Text.trimEnd (w ++ []) = [] := by
      rw [List.append_nil]
      exact Text.trimEnd_of_blank fun c hc => Text.isBlank_of_isSpace (space c hc)
    rw [List.flatMap_nil, empty]
    exact ⟨[], reads_star_nil rfl, fun o => ⟨[], rfl, rfl⟩⟩
  | cons e es ih =>
    obtain ⟨here, others⟩ := fit
    rw [List.flatMap_cons]
    rcases format_cases h e with ⟨dropped, blank⟩ | ⟨kept, s, v, text, blank, stands⟩
    · rw [List.filter_cons_of_neg (by simp [dropped]), ← List.append_assoc]
      refine ih others fun c hc => ?_
      rcases List.mem_append.1 hc with hc | hc
      · exact space c hc
      · exact blank _ here c hc
    · obtain ⟨ns, rest, lists⟩ := ih others blank
      have stands := stands _ here
      obtain ⟨n, read, entry⟩ := stands.reads
      rw [← List.append_nil (Text.trimEnd _)] at read
      have whole := read.star_cons stands.nonempty rest
      have solid : e.isWhitespace = false := by
        cases e <;> first | rfl | cases kept
      rw [List.filter_cons_of_pos (by simp [kept]), text, List.append_assoc, stands.trimEnd]
      exact reads_behind_space space (stands.head _) whole (lists_cons s entry solid lists)

theorem filter_drops (l : Layout) (es : List Entry) :
    (es.filter (!·.isWhitespace)).filter (fun e => !(e.isComment && l.minify)) =
      es.filter (!l.drops ·) := by
  rw [List.filter_filter]
  refine List.filter_congr fun e _ => ?_
  rw [Layout.drops, Bool.not_or, Bool.and_comm]

theorem map_unplaced_filter {p : Entry → Bool} (apart : ∀ e : Entry, p e.unplaced = p e)
    (es : List Entry) : (es.filter p).map Entry.unplaced = (es.map Entry.unplaced).filter p := by
  rw [List.filter_map, List.filter_congr fun e _ => (apart e).symm]
  rfl

theorem filter_unplaced {p : Entry → Bool} (apart : ∀ e : Entry, p e.unplaced = p e)
    {es es' : List Entry} (same : es.map Entry.unplaced = es'.map Entry.unplaced) :
    (es.filter p).map Entry.unplaced = (es'.filter p).map Entry.unplaced := by
  rw [map_unplaced_filter apart, map_unplaced_filter apart, same]

theorem notWhitespace_unplaced (e : Entry) : (!e.unplaced.isWhitespace) = !e.isWhitespace := by
  rw [Entry.isWhitespace_unplaced]

theorem parse_fitting (h : l.Readable) {d : Sheet} (fit : EntriesFit l d.entries)
    (source : Option String) :
    ∃ d', Sheet.parse source (d.format l) = .ok d' ∧ d'.rules.map Entry.unplaced =
      (d.rules.filter fun e => !(e.isComment && l.minify)).map Entry.unplaced := by
  have blank : ∀ c ∈ ([] : List Char), isSpace c = true := fun c hc => nomatch hc
  obtain ⟨ns, ⟨ps, read, -, rfl⟩, lists⟩ := reads_entries h fit blank
  obtain ⟨es, found, same⟩ := lists (.ofText [] source)
  have text : (d.format l).toList =
      Text.trimEnd ([] ++ d.entries.flatMap fun e => (e.format l).toList) := by
    rw [Sheet.format, Layout.sheet, String.toList_ofList, String.toList_join, List.flatMap_map,
      List.nil_append]
  rw [List.append_nil, ← text] at read
  obtain ⟨d', parsed, equal⟩ := parse_of_sketches _ source (Option.some.inj read) found
  refine ⟨d', parsed, ?_⟩
  rw [Sheet.rules, filter_unplaced notWhitespace_unplaced equal, same, Sheet.rules, filter_drops]

theorem parse_written (h : l.Readable) {d : Sheet} (wf : d.WellFormed) (source : Option String) :
    ∃ d', Sheet.parse source (d.format l) = .ok d' ∧ d'.rules.map Entry.unplaced =
      (d.rules.filter fun e => !(e.isComment && l.minify)).map Entry.unplaced :=
  parse_fitting h (entriesFit_of_wellFormed h wf) source

/-- Reading undoes writing, in both modes. -/
theorem parse_format {d : Sheet} (wf : d.WellFormed) (source : Option String) :
    (∃ d', Sheet.parse source (d.format .canonical) = .ok d' ∧
      d'.rules.map Entry.unplaced = d.rules.map Entry.unplaced) ∧
    (∃ d', Sheet.parse source (d.format .minified) = .ok d' ∧
      d'.rules.map Entry.unplaced = (d.rules.filter (!·.isComment)).map Entry.unplaced) := by
  constructor
  · obtain ⟨d', parsed, same⟩ := parse_written (readable_layout .canonical) wf source
    have all : (d.rules.filter fun e => !(e.isComment && false)) = d.rules := by simp
    refine ⟨d', parsed, ?_⟩
    rw [same]
    exact congrArg _ all
  · obtain ⟨d', parsed, same⟩ := parse_written (readable_layout .minified) wf source
    refine ⟨d', parsed, ?_⟩
    simpa [Mode.layout, Layout.minified] using same

/-- One entry of each kind, with a semicolon, a bracket and a brace where they do not count. -/
def smallSheet : Sheet where
  entries := [.comment ⟨" a \x7b * ", none⟩, .whitespace "\n\t\n",
    .rule ⟨["a[title=\"]\"] > b:not(i, p)"], [⟨"*src", "url(\"a;b\") 0", none⟩], none⟩,
    .atRule ⟨"media", "", some "\x7ba\x7bb:c\x7d\x7d", none⟩,
    .fontFace ⟨[⟨"font-family", "x", none⟩], none⟩]
  source := none

theorem wellFormed_smallSheet : smallSheet.WellFormed := by
  intro e he
  simp only [smallSheet, List.mem_cons, List.not_mem_nil, or_false] at he
  rcases he with rfl | rfl | rfl | rfl | rfl
  · have noEnd : ¬['*', '/'] <:+: " a \x7b * ".toList := by decide +kernel
    exact noEnd
  · exact ⟨by decide, List.all_eq_true.1 rfl⟩
  · refine ⟨List.cons_ne_nil _ _, ?_, ?_⟩
    · intro s hs
      rw [List.mem_singleton.1 hs]
      exact ⟨entire_of_rest (by cbv), by cbv, by decide⟩
    · intro d hd
      rw [List.mem_singleton.1 hd]
      exact ⟨entire_of_rest (by cbv), entire_of_rest (by cbv), by cbv, by decide⟩
  · refine ⟨entire_of_rest (by cbv), by decide, entire_of_rest (by cbv), by cbv, ?_⟩
    rintro b ⟨⟩
    exact entire_of_rest (by cbv)
  · intro d hd
    rw [List.mem_singleton.1 hd]
    exact ⟨entire_of_rest (by cbv), entire_of_rest (by cbv), by cbv, by decide⟩

theorem parse_format_smallSheet :
    smallSheet.WellFormed ∧
      (∃ d', Sheet.parse none (smallSheet.format .canonical) = .ok d' ∧
        d'.rules.map Entry.unplaced = smallSheet.rules.map Entry.unplaced) ∧
      (∃ d', Sheet.parse none (smallSheet.format .minified) = .ok d' ∧
        d'.rules.map Entry.unplaced =
          (smallSheet.rules.filter (!·.isComment)).map Entry.unplaced) :=
  ⟨wellFormed_smallSheet, parse_format wellFormed_smallSheet none⟩

end StyleFactor
