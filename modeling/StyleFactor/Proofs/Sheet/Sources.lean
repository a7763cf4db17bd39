import StyleFactor.Proofs.Sheet.Rule
import StyleFactor.Proofs.Tree.Inversion

/-!
Declarations and selectors against the text they were read from. Written out, they can take the
place of that text in front of anything that brings no new ends, as long as trimming has neither
emptied them nor uncovered what is skipped there. That cannot happen where all white space is such
as the grammar skips.
-/
namespace StyleFactor

open Grammar Grammar.Reader

/-- The text starts with no white space, and as the other one does if that starts with none. -/
structure StartsLike (v raw : List Char) : Prop where
  solid : ∀ c u, v = c :: u → Text.isBlank c = false
  head : ∀ c u, raw = c :: u → Text.isBlank c = false → v ≠ []
  opening : ∀ c r, raw = c :: r → Text.isBlank c = false → ∀ u, v = '/' :: '*' :: u →
    ∃ w, raw = '/' :: '*' :: w ∧ NoNewEnds u w

theorem startsLike_trim (raw : List Char) : StartsLike (Text.trim raw) raw where
  solid c u same := by
    have twice := Text.trim_trim raw
    rw [same] at twice
    exact Text.not_isBlank_of_trim twice
  head := by
    rintro c u rfl solid
    rw [Text.trim_cons_solid solid]
    exact List.cons_ne_nil _ _
  opening := by
    rintro c r rfl solid u same
    have start : Text.trim (c :: r) <+: c :: r := by
      rw [Text.trim_cons_solid solid]
      exact List.cons_prefix_cons.2 ⟨rfl, Text.isPrefix_trimEnd r⟩
    rw [same] at start
    obtain ⟨w, whole⟩ := start
    exact ⟨u ++ w, whole.symm, NoNewEnds.of_inside (List.prefix_append u w).isInfix⟩

theorem startsLike_collapse (raw : List Char) : StartsLike (Text.collapse raw) raw where
  solid _ _ same := Text.not_isBlank_of_collapse same
  head := by
    rintro c u rfl solid empty
    have kept := Text.respaced_collapse (c :: u)
    rw [empty] at kept
    obtain ⟨_, impossible, _⟩ := kept.solid solid
    cases impossible
  opening := by
    rintro c r rfl solid u same
    match r with
    | [] =>
      rw [Text.collapse_singleton solid] at same
      cases same
    | d :: r =>
      cases hd : Text.isBlank d with
      | true =>
        rcases Text.collapse_cons_cons_blank solid hd r with ⟨short, -⟩ | short <;>
          cases short.symm.trans same
      | false =>
        obtain ⟨rfl, rest⟩ := List.cons.inj ((Text.collapse_cons_cons solid hd r).symm.trans same)
        match r with
        | [] =>
          rw [Text.collapse_singleton hd] at rest
          cases rest
          exact ⟨[], rfl, NoNewEnds.nil []⟩
        | e :: r =>
          cases he : Text.isBlank e with
          | false =>
            obtain ⟨rfl, rfl⟩ := List.cons.inj ((Text.collapse_cons_cons hd he r).symm.trans rest)
            exact ⟨e :: r, rfl, NoNewEnds.collapse _⟩
          | true =>
            rcases Text.collapse_cons_cons_blank hd he r with ⟨short, -⟩ | long
            · cases short.symm.trans rest
              exact ⟨e :: r, rfl, NoNewEnds.nil _⟩
            · cases long.symm.trans rest
              refine ⟨e :: r, rfl, ((NoNewEnds.collapse r).cons rfl).mono ?_⟩
              exact (List.suffix_cons e r).isInfix

/-- The text that takes the place of another is not empty, and no gap starts there. -/
theorem StartsLike.gap {v raw t t' : List Char} {c : Char} (like : StartsLike v raw)
    (stop : gap (raw ++ t) = none) (nonempty : raw ≠ [])
    (plain : PlainSpaces raw ∨ v ≠ [] ∧ Grammar.gap (v ++ c :: t') = none)
    (joint : isJoint c = true) (ends : NoNewEnds (c :: t') t) :
    v ≠ [] ∧ Grammar.gap (v ++ c :: t') = none := by
  rcases plain with plain | plain
  · obtain ⟨d, r, rfl⟩ := List.exists_cons_of_ne_nil nonempty
    have solid : Text.isBlank d = false := by
      rw [← Bool.not_eq_true]
      intro blank
      have start := isSpace_head_of_gap stop d rfl
      rw [plain d List.mem_cons_self blank] at start
      cases start
    have some := like.head d r rfl solid
    obtain ⟨e, u, same⟩ := List.exists_cons_of_ne_nil some
    have first := Text.not_isSpace (like.solid e u same)
    exact ⟨some, gap_of_gap stop ⟨e, u, same, first⟩ (like.opening d r rfl solid) joint ends⟩
  · exact plain

/-! Declarations. -/

theorem withoutGaps_of_gaps {ns : List Node} (tags : ∀ n ∈ ns, n.tag = "s") :
    withoutGaps ns = [] :=
  List.filter_eq_nil_iff.2 fun n hn => by simp [tags n hn]

theorem filter_of_gaps {ns : List Node} (tags : ∀ n ∈ ns, n.tag = "s") :
    ns.filter (·.tag == "decl") = [] :=
  List.filter_eq_nil_iff.2 fun n hn => by simp [tags n hn]

theorem SayDecls.append {ns ms : List Node} {ds es : List Decl} (h : SayDecls ns ds)
    (more : SayDecls ms es) : SayDecls (ns ++ ms) (ds ++ es) := by
  intro o
  obtain ⟨ds', read, same⟩ := h o
  obtain ⟨es', read', same'⟩ := more o
  refine ⟨ds' ++ es', ?_, ?_⟩
  · rw [List.mapM_append, read, read']
    rfl
  · rw [List.map_append, List.map_append, same, same']

variable {s t : List Char} {ns : List Node} {l : Layout}

theorem sayDecls_pair {p v : List Char} {ms : List Node}
    (pair : withoutGaps ms = [.mk "property" 0 0 p [], .mk "value" 0 0 v []]) :
    SayDecls [.mk "decl" 0 0 s ms] [⟨.ofList p, .ofList (Text.trim v), none⟩] := by
  intro o
  refine ⟨[⟨.ofList p, .ofList (Text.trim v), some (o.position (.mk "decl" 0 0 s ms))⟩], ?_, rfl⟩
  rw [List.mapM_cons, List.mapM_nil, Decl.ofNode, children_mk, pair]
  rfl

theorem Reads.of_decl (read : Reads decl s t ns) :
    ∃ p u w v ms, s = p ++ u ++ [':'] ++ w ++ v ∧ ns = [.mk "decl" 0 0 s ms] ∧
      withoutGaps ms = [.mk "property" 0 0 p [], .mk "value" 0 0 v []] ∧ Entire propertyText p ∧
      valueText (v ++ t) = some (v, t) ∧ Grammar.gap (v ++ t) = none := by
  obtain ⟨ms, rfl, inner⟩ := Reads.of_node read
  obtain ⟨_, v, _, _, rfl, rfl, start, value⟩ := inner.split (keeps_leaf _ lossless_valueText)
  obtain ⟨_, w, _, ks, rfl, rfl, start, behind⟩ := start.split keeps_gap.star
  obtain ⟨_, colon, _, _, rfl, rfl, start, sign⟩ := start.split (keeps_sign ':')
  obtain ⟨p, u, _, ks', rfl, rfl, property, before⟩ := start.split keeps_gap.star
  obtain ⟨rfl, text⟩ := value.of_leaf
  obtain ⟨rfl, name⟩ := property.of_leaf
  obtain ⟨rfl, rfl⟩ := sign.of_sign
  refine ⟨p, u, w, v, _, rfl, rfl, ?_, entire_propertyText name, text, behind.of_gaps.1⟩
  simp only [withoutGaps_append, withoutGaps_of_gaps before.of_gaps.2,
    withoutGaps_of_gaps behind.of_gaps.2]
  rfl

theorem decl_of_reads (l : Layout) (read : Reads decl s t ns) :
    ∃ n d, ns = [n] ∧ n.tag = "decl" ∧ SayDecls [n] [d] ∧ l.declListing.Replaces d s t := by
  obtain ⟨p, u, w, v, ms, rfl, rfl, pair, name, text, stop⟩ := Reads.of_decl read
  refine ⟨_, ⟨.ofList p, .ofList (Text.trim v), none⟩, rfl, rfl, sayDecls_pair pair, ?_, ?_⟩
  · intro c t' joint ends plain
    obtain ⟨nonempty, items⟩ := pliant_valueItem.of_plus text
    have plain : PlainSpaces v ∨ Text.trim v ≠ [] ∧ Grammar.gap (Text.trim v ++ c :: t') = none :=
      plain.imp (·.mono (List.suffix_append _ v).isInfix) fun h => by
        simpa [Unskipped, Layout.declListing] using h
    obtain ⟨some, start⟩ := (startsLike_trim v).gap stop nonempty plain joint ends
    exact ⟨by simpa using name, by simpa using entire_trim text some,
      by simp [Text.trim_trim], by simpa using start⟩
  · have first : NoNewEnds p (p ++ u ++ [':'] ++ w ++ v) :=
      NoNewEnds.of_inside ⟨[], u ++ [':'] ++ w ++ v, by simp⟩
    have second : NoNewEnds (Text.trim v) (p ++ u ++ [':'] ++ w ++ v) :=
      (NoNewEnds.trim v).mono (List.suffix_append _ v).isInfix
    have whole := first.append_cons (c := ':') rfl (second.append_space l.isSpace_valueLead)
    simpa [Layout.declListing, toList_format] using whole

variable {ds : List Decl}

theorem replaceAll_no_decl (h : l.Readable) (t : List Char) :
    l.declListing.ReplaceAll [] [] t := by
  refine fun t' ends => ⟨?_, fun _ => trivial⟩
  have tail : l.declListing.more [] = l.tail := rfl
  rw [tail, List.nil_append]
  rcases Layout.tail_cases h with tail | tail <;> rw [tail]
  · exact ends
  · exact (ends.append_space l.isSpace_newline).cons rfl

theorem decls_of_opt (h : l.Readable) {u : List Char} {ms : List Node}
    (read : Reads decl.opt u (s ++ t) ms) (say : SayDecls (ns.filter (·.tag == "decl")) ds)
    (rest : l.declListing.ReplaceAll ds s t) :
    ∃ es, SayDecls ((ms ++ ns).filter (·.tag == "decl")) es ∧
      l.declListing.ReplaceAll es (u ++ s) t := by
  rcases read.of_opt with read | ⟨rfl, rfl⟩
  · obtain ⟨n, d, rfl, tag, single, first⟩ := decl_of_reads l read
    refine ⟨d :: ds, ?_, rest.cons (joined_declListing h) first⟩
    rw [List.filter_append, List.filter_cons_of_pos (by simp [tag])]
    exact single.append say
  · exact ⟨ds, say, rest⟩

theorem decls_of_star (h : l.Readable) (read : Reads (separator ';' ++ decl.opt).star s t ns) :
    ∃ ds, SayDecls (ns.filter (·.tag == "decl")) ds ∧ l.declListing.ReplaceAll ds s t := by
  refine Reads.star_induction (motive := fun s ns => ∃ ds, SayDecls (ns.filter (·.tag == "decl"))
    ds ∧ l.declListing.ReplaceAll ds s t) keeps_nextDecl ?_ ?_ read
  · exact ⟨[], fun o => ⟨[], rfl, rfl⟩, replaceAll_no_decl h t⟩
  · rintro u v ms ms' first - ⟨ds, say, rest⟩
    obtain ⟨w, x, ks, ks', rfl, rfl, apart, element⟩ := first.split keeps_decl.opt
    obtain ⟨es, say, more⟩ := decls_of_opt h element say rest
    refine ⟨es, ?_, ?_⟩
    · rw [List.append_assoc, List.filter_append, filter_of_gaps apart.of_separator.2]
      exact say
    · rw [List.append_assoc]
      exact more.behind w

theorem noNewEnds_blockChars {x t' : List Char} (h : l.Readable)
    (ends : NoNewEnds (l.declListing.more ds ++ '}' :: t') x) :
    NoNewEnds (blockChars l ds ++ t') x := by
  cases ds with
  | nil =>
    have closing := (NoNewEnds.of_inside (List.suffix_append l.tail ('}' :: t')).isInfix).trans ends
    have whole := (closing.append_space l.isSpace_newline).cons (c := '{') rfl
    simpa [blockChars_nil] using whole
  | cons d ds =>
    have inner : NoNewEnds (declsChars l d ds ++ '}' :: t') x := by
      refine (NoNewEnds.of_inside ?_).trans ends
      exact ⟨';' :: l.lead, [], by simp [Listing.more, Layout.declListing, declsChars]⟩
    have whole := (inner.append_space (Layout.isSpace_lead h)).cons (c := '{') rfl
    simpa [blockChars_cons] using whole

theorem find_behind_gaps {ns ms : List Node} (tags : ∀ n ∈ ns, n.tag = "s") {tag : String}
    (other : tag ≠ "s") : (ns ++ ms).find? (·.tag == tag) = ms.find? (·.tag == tag) := by
  have none : ns.find? (·.tag == tag) = none :=
    List.find?_eq_none.2 fun n hn => by simp [tags n hn, Ne.symm other]
  rw [List.find?_append, none, Option.none_or]

theorem block_of_reads (h : l.Readable) (read : Reads block s t ns) :
    ∃ n ds, ns = [n] ∧ HoldsDecls ds n ∧ ∀ t', NoNewEnds t' t →
      NoNewEnds (blockChars l ds ++ t') (s ++ t) ∧
        (PlainSpaces s ∨ l.declListing.AllUnskipped ds ('}' :: t') →
          DeclsFit l ds ('}' :: t')) := by
  obtain ⟨ms, rfl, inner⟩ := Reads.of_node read
  obtain ⟨_, _, _, _, rfl, rfl, start, closing⟩ := inner.split (keeps_sign '}')
  obtain ⟨_, w, _, ks, rfl, rfl, start, after⟩ := start.split keeps_gap.star
  obtain ⟨_, u, _, _, rfl, rfl, start, list⟩ := start.split keeps_decls
  obtain ⟨_, v, _, ks', rfl, rfl, opening, before⟩ := start.split keeps_gap.star
  obtain ⟨rfl, rfl⟩ := opening.of_sign
  obtain ⟨rfl, rfl⟩ := closing.of_sign
  obtain ⟨_, rfl, elements⟩ := Reads.of_node list
  obtain ⟨e, r, ms, ms', rfl, rfl, first, more⟩ := elements.split keeps_nextDecl.star
  obtain ⟨_, say, rest⟩ := decls_of_star h more
  obtain ⟨ds, say, rest⟩ := decls_of_opt h first say rest
  refine ⟨_, ds, rfl, ⟨rfl, .mk "decls" 0 0 (e ++ r) (ms ++ ms'), ?_, say⟩, fun t' ends => ?_⟩
  · rw [Node.find, children_mk, List.nil_append, List.append_nil, List.append_assoc,
      find_behind_gaps before.of_gaps.2 (by decide)]
    rfl
  · have behind : NoNewEnds ('}' :: t') (w ++ (['}'] ++ t)) :=
      (ends.mono ⟨w ++ ['}'], [], by simp⟩).cons rfl
    obtain ⟨text, fit⟩ := rest t' behind
    refine ⟨noNewEnds_blockChars h (text.mono ⟨'{' :: v, [], by simp⟩), fun plain => ?_⟩
    exact fit (plain.imp_left (·.mono ⟨'{' :: v, w ++ ['}'], by simp⟩))

/-! Selectors. -/

theorem replaceAll_no_selector (l : Layout) (t : List Char) : l.selListing.ReplaceAll [] [] t :=
  fun _ ends => ⟨ends.append_space l.isSpace_space, fun _ => trivial⟩

theorem sel_of_reads (l : Layout) (read : Reads sel s t ns) (stop : gap (s ++ t) = none) :
    ∃ name, (withoutGaps ns).map collapsed = [name] ∧ l.selListing.Replaces name s t := by
  obtain ⟨rfl, text⟩ := read.of_leaf
  refine ⟨.ofList (Text.collapse s), rfl, fun c t' joint ends plain => ?_, ?_⟩
  · obtain ⟨nonempty, items⟩ := pliant_selectorItem.of_plus text
    have plain : PlainSpaces s ∨ Text.collapse s ≠ [] ∧ gap (Text.collapse s ++ c :: t') = none :=
      plain.imp_right fun h => by simpa [Unskipped, Layout.selListing] using h
    obtain ⟨some, start⟩ := (startsLike_collapse s).gap stop nonempty plain joint ends
    have items := pliant_selectorItem.items items (Text.respaced_collapse s) ends.marks
    have again : selector (Text.collapse s ++ c :: t') = _ := items.plus some
    exact ⟨by simpa using some, by simp [Text.collapse_collapse], by simpa using again,
      by simpa using start⟩
  · simpa [Layout.selListing] using NoNewEnds.collapse s

theorem sels_of_star (l : Layout) (read : Reads (separator ',' ++ sel).star s t ns) :
    l.selListing.ReplaceAll ((withoutGaps ns).map collapsed) s t := by
  refine Reads.star_induction (motive := fun s ns =>
    l.selListing.ReplaceAll ((withoutGaps ns).map collapsed) s t) keeps_nextSel
    (replaceAll_no_selector l t) ?_ read
  rintro u v ms ms' first - rest
  obtain ⟨w, x, ks, ks', rfl, rfl, apart, element⟩ := first.split keeps_sel
  obtain ⟨stop, tags⟩ := apart.of_separator
  obtain ⟨name, same, here⟩ := sel_of_reads l element stop
  rw [withoutGaps_append, withoutGaps_append, withoutGaps_of_gaps tags, List.nil_append,
    List.map_append, same, List.append_assoc]
  exact (rest.cons (joined_selListing l) here).behind w

theorem sels_of_reads (l : Layout) (read : Reads sels s t ns) (stop : gap (s ++ t) = none) :
    ∃ ms name ss, ns = [.mk "sels" 0 0 s ms] ∧ (withoutGaps ms).map collapsed = name :: ss ∧
      l.selListing.ReplaceAll (name :: ss) s t := by
  obtain ⟨_, rfl, inner⟩ := Reads.of_node read
  obtain ⟨u, v, ms, ms', rfl, rfl, first, more⟩ := inner.split keeps_nextSel.star
  rw [List.append_assoc] at stop
  obtain ⟨name, same, here⟩ := sel_of_reads l first stop
  refine ⟨ms ++ ms', name, (withoutGaps ms').map collapsed, rfl, ?_,
    (sels_of_star l more).cons (joined_selListing l) here⟩
  rw [withoutGaps_append, List.map_append, same, List.singleton_append]

/-! Rules. -/

/-- In front of `t`, trimming has neither emptied a selector or a value of the rule nor uncovered a
comment that is skipped there. -/
structure Rule.Plain (l : Layout) (r : Rule) (t : List Char) : Prop where
  selectors : l.selListing.AllUnskipped r.selectors (blockChars l r.declarations ++ t)
  declarations : l.declListing.AllUnskipped r.declarations ('}' :: t)

/-- A list of selectors is written without the space at its end if nothing else would be there. -/
theorem suffix_selectors (l : Layout) (s : String) (ss : List String) :
    (l.selectors (s :: ss)).toList <:+ selsChars l s ss := by
  rw [Layout.selectors, ← intercalate_selsChars]
  split
  · simp
  · simp

theorem rule_of_reads (h : l.Readable) (read : Reads rule s t ns) (stop : gap (s ++ t) = none) :
    ∃ n r, ns = [n] ∧ Says n (.rule r) ∧ ∀ t', NoNewEnds t' t →
      NoNewEnds (ruleChars l r ++ t') (s ++ t) ∧ (PlainSpaces s ∨ r.Plain l t' → r.Fits l t') := by
  obtain ⟨_, rfl, inner⟩ := Reads.of_node read
  obtain ⟨u, v, _, _, rfl, rfl, list, body⟩ := inner.split keeps_block
  rw [List.append_assoc] at stop
  obtain ⟨ms, name, ss, rfl, found, selectors⟩ := sels_of_reads l list stop
  obtain ⟨n, ds, rfl, holds, declarations⟩ := block_of_reads h body
  refine ⟨_, ⟨name :: ss, ds, none⟩, rfl, says_rule _ rfl found holds, fun t' ends => ?_⟩
  obtain ⟨text, fitting⟩ := declarations t' ends
  obtain ⟨w, brace⟩ := blockChars_head l ds
  have opening : blockChars l ds ++ t' = '{' :: (w ++ t') := congrArg (· ++ t') brace
  rw [opening] at text
  obtain ⟨whole, fits⟩ := selectors (w ++ t') text
  constructor
  · obtain ⟨x, written⟩ := suffix_selectors l name ss
    have first : l.selListing.more (name :: ss) = ',' :: l.space.toList ++ selsChars l name ss := rfl
    have inside : ruleChars l ⟨name :: ss, ds, none⟩ ++ t' <:+
        l.selListing.more (name :: ss) ++ '{' :: (w ++ t') := by
      rw [first, ← written, ← opening]
      exact ⟨',' :: l.space.toList ++ x, by simp [ruleChars]⟩
    rw [List.append_assoc]
    exact (NoNewEnds.of_inside inside.isInfix).trans whole
  · intro plain
    have sels : PlainSpaces u ∨ l.selListing.AllUnskipped (name :: ss) ('{' :: (w ++ t')) :=
      plain.imp (·.mono (List.prefix_append u v).isInfix) fun p => opening ▸ p.selectors
    have decls : PlainSpaces v ∨ l.declListing.AllUnskipped ds ('}' :: t') :=
      plain.imp (·.mono (List.suffix_append u v).isInfix) (·.declarations)
    refine ⟨List.cons_ne_nil _ _, ?_, fitting decls⟩
    rw [opening]
    exact fits sels

end StyleFactor
