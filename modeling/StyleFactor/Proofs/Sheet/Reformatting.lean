import StyleFactor.Proofs.Sheet.RoundTrip
import StyleFactor.Proofs.Sheet.Sources

/-!
Sheets that were read, written out and read again. Each entry can be written in the place of the
text it was read from, so the whole sheet can. Two things may go wrong, and are excluded for the text
that is written: trimming may uncover what the grammar skips, and an at-rule may turn into a font
face when the text behind it loses a comment. Main statement: `parse_reformatted`.
-/
namespace StyleFactor

open Grammar Grammar.Reader

variable {l : Layout} {s t : List Char} {ns : List Node}

/-- In front of `t`, an at-rule with the name of a font face is none. -/
def AtRule.Distinct (l : Layout) (a : AtRule) (t : List Char) : Prop :=
  a.name = "font-face" → fontface (atRuleChars l a ++ t) = none

namespace Entry

/-- In front of `t`, trimming has neither emptied a text of the entry nor uncovered a comment that
is skipped there. -/
def Plain (l : Layout) : Entry → List Char → Prop
  | .rule r, t => r.Plain l t
  | .fontFace f, t => l.declListing.AllUnskipped f.declarations ('}' :: t)
  | _, _ => True

def Distinct (l : Layout) : Entry → List Char → Prop
  | .atRule a, t => a.Distinct l t
  | _, _ => True

/-- The entry can be written in the place of `s`, which stands in front of `t`. -/
def Replaces (l : Layout) (e : Entry) (s t : List Char) : Prop :=
  ∀ t', NoNewEnds t' t → NoNewEnds ((e.format l).toList ++ t') (s ++ t) ∧
    (PlainSpaces s ∨ e.Plain l t' → e.Distinct l t' → e.Fits l t')

end Entry

theorem replaces_rule (h : l.Readable) (read : Reads rule s t ns) (stop : gap (s ++ t) = none) :
    ∃ n r, ns = [n] ∧ Says n (.rule r) ∧ (Entry.rule r).Replaces l s t := by
  obtain ⟨n, r, rfl, entry, replaces⟩ := rule_of_reads h read stop
  refine ⟨n, r, rfl, entry, fun t' ends => ⟨?_, fun plain _ => (replaces t' ends).2 plain⟩⟩
  rw [Entry.format, toList_rule, List.append_assoc]
  exact (replaces _ (ends.append_space l.isSpace_lineBreak)).1

theorem replaces_fontFace (h : l.Readable) (read : Reads fontface s t ns) (cs : List Char) :
    ∃ n f, ns = [n] ∧ Says (.mk "atrule" 0 0 cs [n]) (.fontFace f) ∧
      (Entry.fontFace f).Replaces l s t := by
  obtain ⟨_, rfl, inner⟩ := Reads.of_node read
  obtain ⟨_, b, _, _, rfl, rfl, start, body⟩ := inner.split keeps_block
  obtain ⟨face, w, _, ks, rfl, rfl, word, gaps⟩ := start.split keeps_gap.star
  obtain ⟨name, rfl⟩ := word.of_word
  obtain ⟨n, ds, rfl, holds, replaces⟩ := block_of_reads h body
  refine ⟨_, ⟨ds, none⟩, rfl, ?_, ?_⟩
  · refine says_fontFace rfl ?_ holds cs
    rw [Node.find, children_mk, List.nil_append, find_behind_gaps gaps.of_gaps.2 (by decide)]
    simp [holds.1]
  · refine fun t' ends => ⟨?_, fun plain _ => ?_⟩
    · have block := (replaces _ (ends.append_space l.isSpace_lineBreak)).1.mono
        (List.suffix_append (face ++ w) (b ++ t)).isInfix
      have first : NoNewEnds face (face ++ w ++ (b ++ t)) :=
        NoNewEnds.of_inside ⟨[], w ++ (b ++ t), by simp⟩
      have last : face.getLast? ≠ some '*' := by
        rw [name]
        decide
      have whole := first.append (block.append_space l.isSpace_space) fun star => absurd star last
      have written : fontFaceChars l ⟨ds, none⟩ = face ++ l.space.toList ++ blockChars l ds :=
        congrArg (· ++ l.space.toList ++ blockChars l ds) name.symm
      rw [Entry.format, toList_fontFace, written]
      simpa using whole
    · have inside := (List.suffix_append (face ++ w) b).isInfix
      exact (replaces t' ends).2 (plain.imp_left (·.mono inside))

/-! At-rules. -/

theorem Reads.of_heading {s t : List Char} {ns : List Node}
    (read : Reads (plain (sign '@') ++ atname ++ atprelude) s t ns) :
    ∃ n p, s = '@' :: (n ++ p) ∧ ns = [.mk "atname" 0 0 n [], .mk "atprelude" 0 0 p []] ∧
      Entire name n ∧ Entire preludeText (Text.collapse p) := by
  obtain ⟨_, p, _, _, rfl, rfl, start, prelude⟩ := read.split keeps_atprelude
  obtain ⟨_, n, _, _, rfl, rfl, opening, named⟩ := start.split keeps_atname
  obtain ⟨rfl, rfl⟩ := opening.of_sign
  obtain ⟨rfl, first⟩ := named.of_leaf
  obtain ⟨rfl, second⟩ := prelude.of_leaf
  exact ⟨n, p, rfl, rfl, entire_name first, entire_collapse second⟩

theorem Reads.of_atbody (read : Reads atbody s t ns) :
    Entire atbody s ∧ ∃ ms, ns = [.mk "atbody" 0 0 s ms] := by
  obtain ⟨ps, read, rfl, rfl⟩ := read
  have alone := read_restrict bodyNest read
  obtain ⟨qs, rfl⟩ := atbody_group alone
  exact ⟨⟨_, alone⟩, sketches qs, by simp [sketches, Fragment.sketch]⟩

theorem Reads.of_atblock (read : Reads atblock s t ns) :
    ∃ n p b ms, s = '@' :: (n ++ p) ++ b ∧ ns = [.mk "atblock" 0 0 s [.mk "atname" 0 0 n [],
      .mk "atprelude" 0 0 p [], .mk "atbody" 0 0 b ms]] ∧ Entire name n ∧
      Entire preludeText (Text.collapse p) ∧ Entire atbody b := by
  obtain ⟨_, rfl, inner⟩ := Reads.of_node read
  obtain ⟨_, b, _, _, rfl, rfl, heading, braces⟩ := inner.split keeps_atbody
  obtain ⟨n, p, rfl, rfl, named, prelude⟩ := Reads.of_heading heading
  obtain ⟨body, ms, rfl⟩ := Reads.of_atbody braces
  exact ⟨n, p, b, ms, rfl, rfl, named, prelude, body⟩

theorem Reads.of_atstatement (read : Reads atstatement s t ns) :
    ∃ n p, s = '@' :: (n ++ p) ++ [';'] ∧ ns = [.mk "atstatement" 0 0 s [.mk "atname" 0 0 n [],
      .mk "atprelude" 0 0 p []]] ∧ Entire name n ∧ Entire preludeText (Text.collapse p) := by
  obtain ⟨_, rfl, inner⟩ := Reads.of_node read
  obtain ⟨_, b, _, _, rfl, rfl, heading, stop⟩ := inner.split (keeps_sign ';')
  obtain ⟨n, p, rfl, rfl, named, prelude⟩ := Reads.of_heading heading
  obtain ⟨rfl, rfl⟩ := stop.of_sign
  exact ⟨n, p, rfl, rfl, named, prelude⟩

theorem noNewEnds_atbody {b u x : List Char} (body : Entire atbody b) (inside : b <:+: x)
    (ends : NoNewEnds u x) : NoNewEnds (b ++ u) x := by
  obtain ⟨ps, read⟩ := body
  obtain ⟨v, closing⟩ := read_closed bodyNest read
  refine (NoNewEnds.of_inside inside).append ends fun star => ?_
  rw [closing] at star
  simp [bodyNest] at star

theorem AtRule.Distinct.fits {a : AtRule} (distinct : a.Distinct l t)
    (name : Entire Grammar.name a.name.toList) (prelude : Entire preludeText a.prelude.toList)
    (collapsed : Text.collapse a.prelude.toList = a.prelude.toList)
    (body : ∀ b ∈ a.body, Entire atbody b.toList) : a.Fits l t := by
  by_cases face : a.name = "font-face"
  · exact ⟨name, prelude, collapsed, body, distinct face⟩
  · exact AtRule.WellFormed.fits ⟨name, face, prelude, collapsed, body⟩ t

/-- The at-rule that a heading is read as, with the body behind it. -/
def headed (n p : List Char) (body : Option String) : AtRule :=
  ⟨.ofList n, .ofList (Text.collapse p), body, none⟩

section

variable {n p v w : List Char} {c : Char} {sp : List Char} {body : Option String}

theorem says_headed {tag : String} (kind : tag = "atblock" ∨ tag = "atstatement")
    (cs : List Char) (found : (ns.find? (·.tag == "atbody")).map (.ofList ·.str) = body) :
    Says (.mk "atrule" 0 0 cs [.mk tag 0 0 cs (.mk "atname" 0 0 n [] ::
      .mk "atprelude" 0 0 p [] :: ns)]) (.atRule (headed n p body)) := by
  have entry := says_atRule (a := headed n p body) String.toList_ofList.symm kind cs found
  simpa only [headed, String.toList_ofList] using entry

theorem noNewEnds_headed {x : List Char} (named : Entire name n) (first : NoNewEnds n x)
    (second : NoNewEnds (Text.collapse p) x) (short : sp = [] ∨ sp = [' '])
    (stop : c = '{' ∨ c = ';') (ends : NoNewEnds (c :: w) x) :
    NoNewEnds ('@' :: (n ++ preludeChars (headed n p body) sp) ++ c :: w) x := by
  obtain ⟨lead, before, whole⟩ := preludeChars_eq (headed n p body) sp
  have space : ∀ d ∈ lead, isSpace d = true := by
    rcases before with rfl | rfl <;> exact List.all_eq_true.1 rfl
  have behind : NoNewEnds (Text.collapse p ++ (sp ++ c :: w)) x := by
    rcases short with rfl | rfl
    · refine second.append ends fun _ next => ?_
      rcases stop with rfl | rfl <;> cases next
    · exact second.append_cons rfl ends
  have letters : n.getLast? ≠ some '*' := by
    intro star
    have letter := isNameChar_of_name named '*' (List.mem_of_getLast? star)
    cases letter
  have all := first.append (behind.append_space space) fun star => absurd star letters
  rw [whole]
  simpa [headed] using all.cons (c := '@') rfl

/-- What closes an at-rule starts with `c`, and comes behind its heading in both texts. -/
theorem replaces_headed (named : Entire name n) (prelude : Entire preludeText (Text.collapse p))
    (bodies : ∀ b ∈ body, Entire atbody b.toList) (short : sp = [] ∨ sp = [' '])
    (stop : c = '{' ∨ c = ';')
    (written : atRuleChars l (headed n p body) =
      '@' :: (n ++ preludeChars (headed n p body) sp) ++ c :: w)
    (closing : ∀ u, NoNewEnds u ('@' :: (n ++ p) ++ v ++ t) →
      NoNewEnds (c :: w ++ u) ('@' :: (n ++ p) ++ v ++ t)) :
    (Entry.atRule (headed n p body)).Replaces l ('@' :: (n ++ p) ++ v) t := by
  refine fun t' ends => ⟨?_, fun _ distinct => ?_⟩
  · have behind := closing _ ((ends.mono (List.suffix_append _ t).isInfix).append_space
      l.isSpace_lineBreak)
    have first : NoNewEnds n ('@' :: (n ++ p) ++ v ++ t) :=
      NoNewEnds.of_inside ⟨['@'], p ++ v ++ t, by simp⟩
    have second : NoNewEnds (Text.collapse p) ('@' :: (n ++ p) ++ v ++ t) :=
      (NoNewEnds.collapse p).mono ⟨'@' :: n, v ++ t, by simp⟩
    have whole : NoNewEnds ('@' :: (n ++ preludeChars (headed n p body) sp) ++ c :: _) _ :=
      noNewEnds_headed named first second short stop behind
    rw [Entry.format, toList_atRule, written]
    simpa using whole
  · exact AtRule.Distinct.fits distinct (by simpa [headed] using named)
      (by simpa [headed] using prelude) (by simp [headed, Text.collapse_collapse]) bodies

end

theorem replaces_atBlock (l : Layout) (read : Reads atblock s t ns) :
    ∃ n a, ns = [n] ∧ Says (.mk "atrule" 0 0 s [n]) (.atRule a) ∧
      (Entry.atRule a).Replaces l s t := by
  obtain ⟨n, p, b, ms, rfl, rfl, named, prelude, body⟩ := Reads.of_atblock read
  obtain ⟨w, rfl⟩ : ∃ w, b = '{' :: w := by simpa using brace_of_atbody body []
  refine ⟨_, headed n p (some (.ofList ('{' :: w))), rfl, says_headed (Or.inl rfl) _ rfl, ?_⟩
  refine replaces_headed (w := w) named prelude (by simpa using body) l.toList_space (Or.inl rfl)
    (by simp [atRuleChars, headed]) fun u ends => ?_
  exact noNewEnds_atbody body ⟨'@' :: (n ++ p), t, rfl⟩ ends

theorem replaces_atStatement (l : Layout) (read : Reads atstatement s t ns) :
    ∃ n a, ns = [n] ∧ Says (.mk "atrule" 0 0 s [n]) (.atRule a) ∧
      (Entry.atRule a).Replaces l s t := by
  obtain ⟨n, p, rfl, rfl, named, prelude⟩ := Reads.of_atstatement read
  refine ⟨_, headed n p none, rfl, says_headed (Or.inr rfl) _ rfl, ?_⟩
  refine replaces_headed (w := []) named prelude (fun b hb => nomatch hb) (Or.inl rfl) (Or.inr rfl)
    (by simp [atRuleChars, headed]) fun u ends => ?_
  exact ends.cons rfl

theorem replaces_atrule (h : l.Readable) (read : Reads atrule s t ns) :
    ∃ n e, ns = [n] ∧ Says n e ∧ e.Replaces l s t := by
  obtain ⟨_, rfl, inner⟩ := Reads.of_node read
  rcases inner.of_orElse with face | ⟨-, other⟩
  · obtain ⟨n, f, rfl, entry, replaces⟩ := replaces_fontFace h face s
    exact ⟨_, .fontFace f, rfl, entry, replaces⟩
  · rcases other.of_orElse with block | ⟨-, statement⟩
    · obtain ⟨n, a, rfl, entry, replaces⟩ := replaces_atBlock l block
      exact ⟨_, .atRule a, rfl, entry, replaces⟩
    · obtain ⟨n, a, rfl, entry, replaces⟩ := replaces_atStatement l statement
      exact ⟨_, .atRule a, rfl, entry, replaces⟩

/-! Comments and white space. -/

theorem replaces_gap (l : Layout) (read : Reads gap s t ns) :
    ∃ n e, ns = [n] ∧ Says n e ∧ e.Replaces l s t := by
  rcases read.of_gap with ⟨nonempty, space, rfl⟩ | ⟨u, rfl, closed, rfl⟩
  · refine ⟨_, .whitespace (.ofList s), rfl, says_space s, fun t' ends => ⟨?_, fun _ _ => ?_⟩⟩
    · have behind := ends.mono (List.suffix_append s t).isInfix
      refine behind.append_space ?_
      rw [Entry.format, Layout.whitespace]
      split
      · simp
      · split
        · exact List.all_eq_true.1 rfl
        · simpa using space
    · have text : (String.ofList s).toList = s := String.toList_ofList
      rw [Entry.Fits, text]
      exact ⟨nonempty, space⟩
  · have entry := says_comment ⟨.ofList u, none⟩
    simp only [String.toList_ofList] at entry
    refine ⟨_, .comment ⟨.ofList u, none⟩, rfl, entry, fun t' ends => ⟨?_, fun _ _ => ?_⟩⟩
    · have behind := ends.mono (List.suffix_append (commentChars u) t).isInfix
      have here := NoNewEnds.of_inside (List.prefix_append (commentChars u) t).isInfix
      have last : commentChars u = (['/', '*'] ++ u ++ ['*']) ++ ['/'] := by simp [commentChars]
      have whole := here.append behind fun star => by
        rw [last, List.getLast?_concat] at star
        cases star
      rw [Entry.format, Layout.comment]
      split
      · exact behind
      · simpa [commentChars] using whole
    · simpa [Entry.Fits] using closed

theorem replaces_toplevel (h : l.Readable) (read : Reads toplevel s t ns) :
    ∃ n e, ns = [.mk "toplevel" 0 0 s [n]] ∧ Says n e ∧ e.Replaces l s t := by
  obtain ⟨_, rfl, inner⟩ := Reads.of_node read
  rcases inner.of_orElse with space | ⟨stop, other⟩
  · obtain ⟨n, e, rfl, entry, replaces⟩ := replaces_gap l space
    exact ⟨n, e, rfl, entry, replaces⟩
  · rcases other.of_orElse with ruled | ⟨-, named⟩
    · obtain ⟨n, e, rfl, entry, replaces⟩ := replaces_atrule h ruled
      exact ⟨n, e, rfl, entry, replaces⟩
    · obtain ⟨n, r, rfl, entry, replaces⟩ := replaces_rule h named stop
      exact ⟨n, .rule r, rfl, entry, replaces⟩

/-! Whole sheets. -/

/-- Each node at the top of a sheet is read as an entry of its own. -/
def SayEntries (ns : List Node) (es : List Entry) : Prop :=
  ∀ o, ∃ es', Sheet.ofNodes o ns = .ok es' ∧ es'.map Entry.unplaced = es.map Entry.unplaced

theorem sayEntries_cons {n : Node} {e : Entry} {es : List Entry} (s : List Char)
    (entry : Says n e) (rest : SayEntries ns es) :
    SayEntries (.mk "toplevel" 0 0 s [n] :: ns) (e :: es) := by
  intro o
  obtain ⟨e', read, same⟩ := entry o
  obtain ⟨es', others, sames⟩ := rest o
  refine ⟨e' :: es', ?_, by rw [List.map_cons, List.map_cons, same, sames]⟩
  rw [Sheet.ofNodes] at others ⊢
  rw [List.mapM_cons, others]
  simp [Node.first, read, bind, Except.bind, pure, Except.pure]

/-- The entries of a sheet can be written in the place of its text: no new ends come about, and they
fit unless trimming or a lost comment has spoilt one. -/
theorem entries_of_reads (h : l.Readable) (read : Reads toplevel.star s [] ns) :
    ∃ es, SayEntries ns es ∧ NoNewEnds (es.flatMap fun e => (e.format l).toList) s ∧
      (PlainSpaces s ∨ l.EachInFront (Entry.Plain l) es →
        l.EachInFront (Entry.Distinct l) es → EntriesFit l es) := by
  refine Reads.star_induction (motive := fun s ns => ∃ es, SayEntries ns es ∧
    NoNewEnds (es.flatMap fun e => (e.format l).toList) s ∧
      (PlainSpaces s ∨ l.EachInFront (Entry.Plain l) es →
        l.EachInFront (Entry.Distinct l) es → EntriesFit l es)) keeps_toplevel
    ⟨[], fun o => ⟨[], rfl, rfl⟩, NoNewEnds.nil [], fun _ _ => trivial⟩ ?_ read
  rintro u v ms ms' first - ⟨es, say, text, fits⟩
  obtain ⟨n, e, rfl, entry, here⟩ := replaces_toplevel h first
  rw [List.append_nil] at here
  have behind : NoNewEnds (l.behind es) v :=
    (NoNewEnds.of_inside (Text.isPrefix_trimEnd _).isInfix).trans
      (text.append_space l.isSpace_lineBreak)
  refine ⟨e :: es, sayEntries_cons u entry say, (here _ text).1, fun plain distinct => ⟨?_, ?_⟩⟩
  · exact (here _ behind).2 (plain.imp (·.mono (List.prefix_append u v).isInfix) (·.1)) distinct.1
  · exact fits (plain.imp (·.mono (List.suffix_append u v).isInfix) (·.2)) distinct.2

/-! Positions do not matter. -/

theorem Decl.format_unplaced (l : Layout) (d : Decl) : d.unplaced.format l = d.format l := rfl

namespace Entry

theorem format_unplaced (l : Layout) (e : Entry) : e.unplaced.format l = e.format l := by
  cases e <;> simp [unplaced, Rule.unplaced, FontFace.unplaced, AtRule.unplaced, Comment.unplaced,
    format, Function.comp_def, Decl.format_unplaced, Layout.atRule]

theorem plain_unplaced (l : Layout) (e : Entry) (t : List Char) :
    e.unplaced.Plain l t ↔ e.Plain l t := by
  have decls (ds : List Decl) (u : List Char) :
      l.declListing.AllUnskipped (ds.map Decl.unplaced) u ↔ l.declListing.AllUnskipped ds u :=
    Listing.allUnskipped_map (k := l.declListing) (f := Decl.unplaced) (fun _ => rfl) (fun _ => rfl)
      ds u
  cases e with
  | rule r =>
    have block : blockChars l (r.declarations.map Decl.unplaced) = blockChars l r.declarations := by
      simp [blockChars, Function.comp_def, Decl.format_unplaced]
    constructor
    · rintro ⟨sels, ds⟩
      exact ⟨block ▸ sels, (decls _ _).1 ds⟩
    · rintro ⟨sels, ds⟩
      exact ⟨block.symm ▸ sels, (decls _ _).2 ds⟩
  | fontFace f => exact decls f.declarations _
  | _ => rfl

theorem distinct_unplaced (l : Layout) (e : Entry) (t : List Char) :
    e.unplaced.Distinct l t ↔ e.Distinct l t := by
  cases e <;> rfl

theorem isComment_unplaced (e : Entry) : e.unplaced.isComment = e.isComment := by
  cases e <;> rfl

end Entry

theorem Sheet.format_unplaced (l : Layout) (d : Sheet) :
    d.format l = Layout.sheet ((d.entries.map Entry.unplaced).map (Entry.format l)) := by
  simp only [Sheet.format, List.map_map, Function.comp_def, Entry.format_unplaced]

/-- What holds of an entry and its positions do not matter for holds of all entries of a list that
is the same positions apart. -/
theorem forall_of_unplaced {p : Entry → Prop} (apart : ∀ e : Entry, p e.unplaced ↔ p e)
    {es es' : List Entry} (same : es.map Entry.unplaced = es'.map Entry.unplaced)
    (h : ∀ e ∈ es', p e) : ∀ e ∈ es, p e := by
  intro e he
  have member : e.unplaced ∈ es'.map Entry.unplaced := same ▸ List.mem_map_of_mem he
  obtain ⟨e', he', equal⟩ := List.mem_map.1 member
  rw [← apart, ← equal, apart]
  exact h e' he'

theorem behind_unplaced (l : Layout) (es : List Entry) :
    l.behind (es.map Entry.unplaced) = l.behind es := by
  rw [Layout.behind, Layout.behind, List.flatMap_map]
  simp only [Entry.format_unplaced]

theorem eachInFront_unplaced {p : Entry → List Char → Prop}
    (apart : ∀ e t, p e.unplaced t ↔ p e t) (es : List Entry) :
    l.EachInFront p (es.map Entry.unplaced) ↔ l.EachInFront p es := by
  induction es with
  | nil => rfl
  | cons e es ih =>
    rw [List.map_cons, Layout.EachInFront, Layout.EachInFront, behind_unplaced, apart, ih]

theorem eachInFront_of_unplaced {p : Entry → List Char → Prop}
    (apart : ∀ e t, p e.unplaced t ↔ p e t) {es es' : List Entry}
    (same : es.map Entry.unplaced = es'.map Entry.unplaced) (h : l.EachInFront p es') :
    l.EachInFront p es := by
  rw [← eachInFront_unplaced apart, same, eachInFront_unplaced apart]
  exact h

/-- Whatever was read is read again from the text it is written as, without the comments if that is
short, unless trimming or a lost comment has spoilt it in front of what is written behind. -/
theorem parse_reformatted {source : Option String} {text : String} {d : Sheet}
    (parsed : Sheet.parse source text = .ok d) (m : Mode)
    (plain : PlainSpaces text.toList ∨ m.layout.EachInFront (Entry.Plain m.layout) d.entries)
    (distinct : m.layout.EachInFront (Entry.Distinct m.layout) d.entries)
    (source' : Option String) :
    ∃ d', Sheet.parse source' (d.format m.layout) = .ok d' ∧ d'.rules.map Entry.unplaced =
      (d.rules.filter fun e => !(e.isComment && m.layout.minify)).map Entry.unplaced := by
  obtain ⟨ps, said, read, found, same⟩ := sketches_of_parse (.ofText [] source) parsed
  have whole : Reads toplevel.star text.toList [] (sketches ps) := by
    refine ⟨ps, ?_, ?_, rfl⟩
    · rw [List.append_nil]
      exact congrArg some read
    · simpa [read] using css_append text.toList
  obtain ⟨es, say, -, fits⟩ := entries_of_reads (readable_layout m) whole
  obtain ⟨es', again, equal⟩ := say (.ofText [] source)
  have link : es.map Entry.unplaced = d.entries.map Entry.unplaced := by
    rw [← equal, ← same, Except.ok.inj (found.symm.trans again)]
  have fit := fits (plain.imp_right (eachInFront_of_unplaced (Entry.plain_unplaced _) link))
    (eachInFront_of_unplaced (Entry.distinct_unplaced _) link distinct)
  have written : Sheet.format m.layout ⟨es, none⟩ = d.format m.layout := by
    rw [Sheet.format_unplaced, Sheet.format_unplaced, link]
  obtain ⟨d', reparsed, rules⟩ := parse_fitting (readable_layout m) (d := ⟨es, none⟩) fit source'
  refine ⟨d', written ▸ reparsed, rules.trans ?_⟩
  exact filter_unplaced (fun e => by rw [Entry.isComment_unplaced])
    (filter_unplaced notWhitespace_unplaced link)

/-- Signs that open no comment and no string because nothing closes them. -/
def untidySheet : String :=
  "@media  x\x7ba\x7bb:c\x7d\x7d p[']>q , r\x7b s : t ;; u:v \x7d/* k */@font-face x; /*\x7bd:/*e\x7d"

def untidyEntries : List Entry :=
  [.atRule ⟨"media", "x", some "\x7ba\x7bb:c\x7d\x7d", none⟩, .whitespace " ",
    .rule ⟨["p[']>q", "r"], [⟨"s", "t", none⟩, ⟨"u", "v", none⟩], none⟩, .comment ⟨" k ", none⟩,
    .atRule ⟨"font-face", "x", none, none⟩, .whitespace " ",
    .rule ⟨["/*"], [⟨"d", "/*e", none⟩], none⟩]

theorem parse_untidySheet :
    (Sheet.parse none untidySheet).map (·.entries.map Entry.unplaced) = .ok untidyEntries := by
  cbv

theorem plainSpaces_untidySheet : PlainSpaces untidySheet.toList := by
  have listed : untidySheet.toList.all fun c => !Text.isBlank c || isSpace c := by decide +kernel
  intro c hc blank
  have either := List.all_eq_true.1 listed c hc
  simpa [blank] using either

/-- Trimming has uncovered signs that would open a comment if anything closed it. -/
def openEntries : List Entry :=
  [.comment ⟨" k ", none⟩, .rule ⟨["/*"], [⟨"b", "/*c", none⟩], none⟩,
    .atRule ⟨"font-face", "/*", none, none⟩]

theorem plain_openEntries : Layout.minified.EachInFront (Entry.Plain .minified) openEntries := by
  have selector : Unskipped "/*" "\x7bb:/*c\x7d@font-face /*;".toList := ⟨by decide, by cbv⟩
  have value : Unskipped "/*c" "\x7d@font-face /*;".toList := ⟨by decide, by cbv⟩
  exact ⟨trivial, ⟨⟨selector, trivial⟩, ⟨value, trivial⟩⟩, trivial, trivial⟩

theorem distinct_openEntries :
    Layout.minified.EachInFront (Entry.Distinct .minified) openEntries := by
  have noFace : fontface "@font-face /*;".toList = none := by cbv
  exact ⟨trivial, trivial, fun _ => noFace, trivial⟩

theorem parse_reformatted_openEntries : ∃ d,
    Sheet.parse none "/* k */\u00a0/*\x7bb:\u00a0/*c\x7d@font-face /*;" = .ok d ∧
      d.entries.map Entry.unplaced = openEntries ∧
      Layout.minified.EachInFront (Entry.Plain .minified) d.entries ∧
      Layout.minified.EachInFront (Entry.Distinct .minified) d.entries ∧
      ∃ d', Sheet.parse none (d.format .minified) = .ok d' ∧ d'.rules.map Entry.unplaced =
        (d.rules.filter fun e => !(e.isComment && Layout.minified.minify)).map Entry.unplaced := by
  have read : (Sheet.parse none "/* k */\u00a0/*\x7bb:\u00a0/*c\x7d@font-face /*;").map
      (·.entries.map Entry.unplaced) = .ok openEntries := by
    cbv
  obtain ⟨d, parsed, entries⟩ := exists_of_map_ok read
  have link : d.entries.map Entry.unplaced = openEntries.map Entry.unplaced := entries
  have plain := eachInFront_of_unplaced (Entry.plain_unplaced _) link plain_openEntries
  have distinct := eachInFront_of_unplaced (Entry.distinct_unplaced _) link distinct_openEntries
  exact ⟨d, parsed, entries, plain, distinct,
    parse_reformatted parsed .minified (Or.inr plain) distinct none⟩

/-- A comment that a no-break space has kept from being one is one when the space is gone. -/
theorem comment_uncovered : ¬∀ text d, Sheet.parse none text = .ok d →
    ∃ d', Sheet.parse none (d.format .canonical) = .ok d' ∧
      (d'.rules.filter (!·.isComment)).map Entry.unplaced =
        (d.rules.filter (!·.isComment)).map Entry.unplaced := by
  intro claim
  have first : (Sheet.parse none "\u00a0/* x */ a\x7bb:c\x7d").map
      (·.entries.map Entry.unplaced) = .ok [.rule ⟨["/* x */ a"], [⟨"b", "c", none⟩], none⟩] := by
    cbv
  have second : (Sheet.parse none "/* x */ a \x7b\n\tb: c;\n\x7d").map
      (·.entries.map Entry.unplaced) =
        .ok [.comment ⟨" x ", none⟩, .whitespace " ", .rule ⟨["a"], [⟨"b", "c", none⟩], none⟩] := by
    cbv
  obtain ⟨d, parsed, entries⟩ := exists_of_map_ok first
  obtain ⟨d', again, same⟩ := claim _ d parsed
  have written : d.format .canonical = "/* x */ a \x7b\n\tb: c;\n\x7d" := by
    rw [Sheet.format_unplaced, entries]
    cbv
  rw [written] at again
  rw [again] at second
  have entries' : d'.entries.map Entry.unplaced = _ := Except.ok.inj second
  have kept (x : Sheet) : (x.rules.filter (!·.isComment)).map Entry.unplaced =
      ((x.entries.map Entry.unplaced).filter (!·.isWhitespace)).filter (!·.isComment) := by
    rw [map_unplaced_filter fun e => by rw [Entry.isComment_unplaced], Sheet.rules,
      map_unplaced_filter notWhitespace_unplaced]
  rw [kept d', kept d, entries, entries'] at same
  exact absurd same (by decide)

end StyleFactor
