import StyleFactor.Proofs.Grouping.Extraction
import StyleFactor.Proofs.Merge.Cascade
import StyleFactor.Proofs.Merge.Shape
import StyleFactor.Proofs.Sheet.RoundTrip

/-!
From text to text. A well-formed sheet is refactored into one that is well-formed again, so that it
is read back from its text. Main statement: what is extracted from the text of a refactoring are its
groupings, and they bind what the groupings of the sheet bound (`groupings_of_rewritten`).
-/
namespace StyleFactor

open Grammar (entire_of_rest)

def Entry.isStatement : Entry → Bool
  | .atRule a => a.isStatement
  | _ => false

/-- The entries of a sheet that a refactoring takes over. -/
def Sheet.kept (d : Sheet) : List Entry :=
  d.rules.filter fun e => !(e.type == "rule" || e.type == "comment" || e.type == "whitespace")

/-- The sheet that a refactoring of `d` with these groupings writes. -/
def Sheet.rewritten (d : Sheet) (gs : List (Grouping String)) : Sheet :=
  ⟨d.kept.filter Entry.isStatement ++ gs.map (.rule ·.toRule) ++
    d.kept.filter (!·.isStatement), d.source⟩

theorem rebuilt_eq (d : Sheet) (gs : List (Grouping String)) (before after : Nat) :
    (⟨d.toDocument, gs, before, after⟩ : Refactoring).rebuilt = (d.rewritten gs).toDocument := by
  have kept : (⟨d.toDocument, gs, before, after⟩ : Refactoring).passThrough =
      d.kept.map Entry.toDraft := by
    simp only [Refactoring.passThrough, rules_toDocument, List.filter_map, Sheet.kept,
      Function.comp_def, isType_toDraft]
  have statement : ∀ e : Entry, e.toDraft.isStatement = e.isStatement := fun e => by
    cases e <;> rfl
  rw [Refactoring.rebuilt, kept]
  simp [Refactoring.rules, Sheet.toDocument, Sheet.rewritten, List.filter_map, Function.comp_def,
    statement]

theorem rule?_of_mem_kept {d : Sheet} {e : Entry} (h : e ∈ d.kept) : e.rule? = none := by
  cases e with
  | rule r => simp [Sheet.kept, Entry.type] at h
  | _ => rfl

theorem groupingsOf_toRule {gs : List (Grouping String)} (writable : ∀ g ∈ gs, g.Writable) :
    groupingsOf (gs.map (.rule ·.toRule)) = gs.map fun g => ⟨g.selectors, g.declarations⟩ := by
  induction gs with
  | nil => rfl
  | cons g gs ih =>
    obtain ⟨first, rest⟩ := List.forall_mem_cons.1 writable
    have resolves : (⟨g.selectors, g.declarations⟩ : Grouping String).declarations =
        g.declarations := g.resolve_declarations
    rw [List.map_cons, groupingsOf_cons_rule, grouping_toRule first.nodup, resolves, if_neg,
      ih rest, List.map_cons]
    simpa using first.declares

theorem groupingsOf_rewritten (d : Sheet) {gs : List (Grouping String)}
    (writable : ∀ g ∈ gs, g.Writable) :
    groupingsOf (d.rewritten gs).entries = gs.map fun g => ⟨g.selectors, g.declarations⟩ := by
  have none : ∀ keep : Entry → Bool, groupingsOf (d.kept.filter keep) = [] := fun keep =>
    groupingsOf_eq_nil fun e he => rule?_of_mem_kept (List.mem_filter.1 he).1
  rw [Sheet.rewritten, groupingsOf_append, groupingsOf_append, none, none,
    groupingsOf_toRule writable, List.nil_append, List.append_nil]

theorem wellFormed_rewritten {d : Sheet} (wf : ∀ e ∈ d.rules, e.WellFormed)
    {gs : List (Grouping String)} (rules : ∀ g ∈ gs, g.toRule.WellFormed) :
    (d.rewritten gs).WellFormed := by
  have kept : ∀ e ∈ d.kept, e.WellFormed := fun e he => wf e (List.mem_filter.1 he).1
  intro e he
  rcases List.mem_append.1 he with he | he
  · rcases List.mem_append.1 he with he | he
    · exact kept e (List.mem_filter.1 he).1
    · obtain ⟨g, hg, rfl⟩ := List.mem_map.1 he
      exact rules g hg
  · exact kept e (List.mem_filter.1 he).1

/-- Rules of a well-formed sheet give groupings that can be written. -/
theorem writable_groupingsOf {es : List Entry} (wf : ∀ e ∈ es, e.WellFormed) :
    ∀ g ∈ groupingsOf es, g.Writable := by
  intro g hg
  obtain ⟨declares, r, hr, rfl⟩ := mem_groupingsOf.1 hg
  have rule : r.WellFormed := wf _ hr
  obtain ⟨s, hs⟩ := List.exists_mem_of_ne_nil _ rule.nonempty
  have named : s ∈ r.grouping.selectors := Grouping.mem_insertSelectors.2 (Or.inr hs)
  exact ⟨⟨List.ne_nil_of_mem named, Grouping.nodup_insertSelectors List.nodup_nil _⟩, declares⟩

theorem wellFormed_of_binds {es : List Entry} (wf : ∀ e ∈ es, e.WellFormed) {s p v : String}
    (h : Binds (groupingsOf es) s p v) :
    WellFormedSelector s ∧ (Decl.mk p v none).WellFormed := by
  obtain ⟨g, hg, hs, hd⟩ := h
  obtain ⟨-, r, hr, rfl⟩ := mem_groupingsOf.1 hg
  have rule : r.WellFormed := wf _ hr
  refine ⟨rule.selectors s ?_, ?_⟩
  · exact (Grouping.mem_insertSelectors.1 hs).resolve_left List.not_mem_nil
  · rw [Rule.grouping, Grouping.declarations_ofLists] at hd
    obtain ⟨d, written, same⟩ := List.mem_map.1 (mem_of_mem_resolve hd)
    cases same
    obtain ⟨property, value, trimmed, plain⟩ := rule.declarations d written
    exact ⟨property, value, trimmed, plain⟩

theorem wellFormed_toRule {gs : List (Grouping String)}
    (texts : ∀ s p v, Binds gs s p v → WellFormedSelector s ∧ (Decl.mk p v none).WellFormed)
    {g : Grouping String} (hg : g ∈ gs) (writable : g.Writable) : g.toRule.WellFormed := by
  refine ⟨writable.nonempty, fun s hs => ?_, fun e he => ?_⟩
  · obtain ⟨d, hd⟩ := List.exists_mem_of_ne_nil _ writable.declares
    exact (texts s d.property d.value ⟨g, hg, hs, hd⟩).1
  · obtain ⟨s, hs⟩ := List.exists_mem_of_ne_nil _ writable.nonempty
    obtain ⟨d, hd, rfl⟩ := List.mem_map.1 he
    exact (texts s d.property d.value ⟨g, hg, hs, hd⟩).2

theorem extractable_of_wellFormed {e : Entry} (wf : e.WellFormed)
    (named : ∀ a, e = .atRule a → a.name ≠ "rule") : e.Extractable := by
  cases e with
  | rule r =>
    have rule : r.WellFormed := wf
    intro s hs empty
    have nonempty := (rule.selectors s hs).nonempty
    rw [empty] at nonempty
    exact nonempty rfl
  | atRule a => exact named a rfl
  | _ => trivial

/-- Reading the text of a sheet back does not change what is extracted. -/
theorem groupings_of_text {l : Layout} (readable : l.Readable) {d : Sheet} (wf : d.WellFormed)
    (fit : ∀ e ∈ d.rules, e.Extractable) (source : Option String) (strict : Bool) :
    ∃ d', Sheet.parse source (d.format l) = .ok d' ∧
      (d'.toDocument.groupings strict).value = .ok (groupingsOf d.entries) := by
  obtain ⟨d', parsed, same⟩ := parse_written readable wf source
  have again : ∀ e ∈ d'.rules, e.Extractable := by
    intro e he
    have member : e.unplaced ∈ d'.rules.map Entry.unplaced := List.mem_map_of_mem he
    rw [same] at member
    obtain ⟨x, hx, equal⟩ := List.mem_map.1 member
    rw [← extractable_unplaced, ← equal, extractable_unplaced]
    exact fit x (List.mem_filter.1 hx).1
  refine ⟨d', parsed, ?_⟩
  rw [value_groupings again, ← groupingsOf_rules, ← groupingsOf_unplaced, same,
    groupingsOf_unplaced, groupingsOf_filter fun _ => rfl, groupingsOf_rules]

theorem extractable_rewritten {d : Sheet} (fit : ∀ e ∈ d.rules, e.Extractable)
    {gs : List (Grouping String)} (rules : ∀ g ∈ gs, g.toRule.WellFormed) :
    ∀ e ∈ (d.rewritten gs).rules, e.Extractable := by
  have kept : ∀ e ∈ d.kept, e.Extractable := fun e he => fit e (List.mem_filter.1 he).1
  intro e he
  rcases List.mem_append.1 (List.mem_filter.1 he).1 with he | he
  · rcases List.mem_append.1 he with he | he
    · exact kept e (List.mem_filter.1 he).1
    · obtain ⟨g, hg, rfl⟩ := List.mem_map.1 he
      have wf : (Entry.rule g.toRule).WellFormed := rules g hg
      exact extractable_of_wellFormed wf fun a h => nomatch h
  · exact kept e (List.mem_filter.1 he).1

theorem binds_iff_outlines {gs : List (Grouping String)} {s p v : String} :
    Binds gs s p v ↔ ∃ o ∈ outlines gs, s ∈ o.1 ∧ ⟨p, v⟩ ∈ o.2 := by
  simp [Binds, outlines]

theorem value_ofDocument {o : Options} {d : Document} {hs : List (Grouping String)}
    (extracted : (d.groupings o.strict).value = .ok hs) :
    (Refactoring.ofDocument o d).value =
      .ok ⟨d, (Refactoring.merge o hs).value, totalSize hs,
        totalSize (Refactoring.merge o hs).value⟩ := by
  rw [Refactoring.ofDocument, Logged.value_bind, extracted]
  rfl

/-- All there is to a refactoring that goes through. -/
theorem exists_of_ofDocument {o : Options} {d : Document} {r : Refactoring}
    (completed : (Refactoring.ofDocument o d).value = .ok r) :
    ∃ hs, (d.groupings o.strict).value = .ok hs ∧
      r = ⟨d, (Refactoring.merge o hs).value, totalSize hs,
        totalSize (Refactoring.merge o hs).value⟩ := by
  cases extracted : (d.groupings o.strict).value with
  | error refusal =>
    rw [Refactoring.ofDocument, Logged.value_bind, extracted] at completed
    cases completed
  | ok hs =>
    rw [value_ofDocument extracted] at completed
    cases completed
    exact ⟨hs, rfl, rfl⟩

/-- The text of a refactoring, long or short, is read back, and what is extracted from it are the
groupings of the refactoring in their order. They bind what those of the sheet bind. -/
theorem groupings_of_rewritten {d : Sheet} (wf : ∀ e ∈ d.rules, e.WellFormed)
    (named : ∀ a, .atRule a ∈ d.entries → a.name ≠ "rule") (shared : Bool) (m : Mode)
    (source : Option String) :
    ∃ r text d' hs gs,
      (Refactoring.ofDocument ⟨shared, false, true⟩ d.toDocument).value = .ok r ∧
      r.rebuilt.format m.layout.toSettings = .ok text ∧ Sheet.parse source text = .ok d' ∧
      (d.toDocument.groupings true).value = .ok hs ∧
      (d'.toDocument.groupings true).value = .ok gs ∧ outlines gs = outlines r.groupings ∧
      ∀ s p v, Binds gs s p v ↔ Binds hs s p v := by
  let o : Options := ⟨shared, false, true⟩
  let hs := groupingsOf d.entries
  let merged := (Refactoring.merge o hs).value
  have fit : ∀ e ∈ d.rules, e.Extractable := by
    intro e he
    refine extractable_of_wellFormed (wf e he) fun a same => named a ?_
    exact same ▸ (List.mem_filter.1 he).1
  have extracted : (d.toDocument.groupings true).value = .ok hs := value_groupings fit true
  have kept : ∀ s p v, Binds merged s p v ↔ Binds hs s p v := fun s p v => binds_merge rfl hs
  have writable : ∀ g ∈ merged, g.Writable := by
    refine writable_merge rfl ?_
    rw [show hs = groupingsOf d.rules from (groupingsOf_rules d).symm]
    exact writable_groupingsOf wf
  have rules : ∀ g ∈ merged, g.toRule.WellFormed := by
    refine fun g hg => wellFormed_toRule (fun s p v bound => ?_) hg (writable g hg)
    refine wellFormed_of_binds wf ?_
    rw [groupingsOf_rules]
    exact (kept s p v).1 bound
  obtain ⟨d', parsed, again⟩ := groupings_of_text (readable_layout m) (wellFormed_rewritten wf rules)
    (extractable_rewritten fit rules) source true
  rw [groupingsOf_rewritten d writable] at again
  have same : outlines (merged.map fun g => ⟨g.selectors, g.declarations⟩) = outlines merged := by
    simp only [outlines, List.map_map]
    refine List.map_congr_left fun g _ => ?_
    exact congrArg (Prod.mk g.selectors) g.resolve_declarations
  refine ⟨_, _, d', hs, _, value_ofDocument extracted, ?_, parsed, extracted, again, same, ?_⟩
  · rw [rebuilt_eq]
    exact format_toDocument_toSettings m.layout _
  · intro s p v
    rw [binds_iff_outlines, same, ← binds_iff_outlines]
    exact kept s p v

/-- Two rules that say the same in another order, and a third that says more. -/
def commonSheet : Sheet where
  entries := [.comment ⟨" k ", none⟩,
    .rule ⟨["h1"], [⟨"color", "red", none⟩, ⟨"margin", "0", none⟩], none⟩,
    .rule ⟨["h2"], [⟨"margin", "0", none⟩, ⟨"color", "red", none⟩], none⟩,
    .atRule ⟨"charset", "\"u\"", none, none⟩,
    .rule ⟨["h3"], [⟨"color", "red", none⟩, ⟨"margin", "0", none⟩, ⟨"padding", "0", none⟩], none⟩]
  source := none

def commonDecls : List Decl :=
  [⟨"color", "red", none⟩, ⟨"margin", "0", none⟩, ⟨"padding", "0", none⟩]

theorem wellFormed_commonDecls : ∀ d ∈ commonDecls, d.WellFormed := by
  intro d hd
  simp only [commonDecls, List.mem_cons, List.not_mem_nil, or_false] at hd
  rcases hd with rfl | rfl | rfl <;>
    exact ⟨entire_of_rest (by cbv), entire_of_rest (by cbv), by cbv, by decide⟩

theorem wellFormed_commonSheet : commonSheet.WellFormed := by
  have rule {s : String} {ds : List Decl} (selector : WellFormedSelector s)
      (common : ∀ d ∈ ds, d ∈ commonDecls) : (Entry.rule ⟨[s], ds, none⟩).WellFormed :=
    ⟨List.cons_ne_nil _ _, List.forall_mem_singleton.2 selector,
      fun d hd => wellFormed_commonDecls d (common d hd)⟩
  intro e he
  simp only [commonSheet, List.mem_cons, List.not_mem_nil, or_false] at he
  rcases he with rfl | rfl | rfl | rfl | rfl
  · have noEnd : ¬['*', '/'] <:+: " k ".toList := by decide
    exact noEnd
  · exact rule ⟨entire_of_rest (by cbv), by cbv, by decide⟩ (by decide)
  · exact rule ⟨entire_of_rest (by cbv), by cbv, by decide⟩ (by decide)
  · exact ⟨entire_of_rest (by cbv), by decide, entire_of_rest (by cbv), by cbv,
      fun b hb => absurd hb (Option.not_mem_none b)⟩
  · exact rule ⟨entire_of_rest (by cbv), by cbv, by decide⟩ (by decide)

/-- The first two are merged, and then what the third shares with them is factored out of it. -/
def commonMerged : List Piece :=
  [⟨some 2, ⟨["h3"], [⟨"color", "red"⟩, ⟨"margin", "0"⟩, ⟨"padding", "0"⟩]⟩⟩,
    ⟨some 0, ⟨["h1", "h2"], [⟨"color", "red"⟩, ⟨"margin", "0"⟩]⟩⟩]

def commonGroupings : List (Grouping String) :=
  [⟨["h3"], [⟨"padding", "0"⟩]⟩, ⟨["h1", "h2", "h3"], [⟨"color", "red"⟩, ⟨"margin", "0"⟩]⟩]

theorem mergeEqual_commonSheet :
    (mergeEqual (Piece.ofGroupings (groupingsOf commonSheet.entries))).value.result =
      commonMerged := by
  have taken : (Piece.ofGroupings (groupingsOf commonSheet.entries)).reverse =
      [⟨some 2, ⟨["h3"], [⟨"color", "red"⟩, ⟨"margin", "0"⟩, ⟨"padding", "0"⟩]⟩⟩,
        ⟨some 1, ⟨["h2"], [⟨"margin", "0"⟩, ⟨"color", "red"⟩]⟩⟩,
        ⟨some 0, ⟨["h1"], [⟨"color", "red"⟩, ⟨"margin", "0"⟩]⟩⟩] := by
    decide
  have run : (mergeEqual (Piece.ofGroupings (groupingsOf commonSheet.entries))).value.result =
      (mergeEqualFrom (Piece.ofGroupings (groupingsOf commonSheet.entries)).reverse).value.1 := rfl
  rw [run, taken]
  simp +decide only [value_mergeEqualFrom_cons, value_mergeEqualFrom_nil, absorb, ↓reduceIte]

theorem factorShared_commonMerged :
    (factorShared commonMerged).value.result.map (·.grouping) = commonGroupings := by
  have sorted : Piece.largestFirst commonMerged = commonMerged :=
    List.mergeSort_of_pairwise (by decide)
  have run : (factorShared commonMerged).value.result =
      (factorFrom (Piece.largestFirst commonMerged)).value.filter
        (!·.declarations.isEmpty) := rfl
  rw [run, sorted, commonMerged]
  simp only [value_factorFrom_cons]
  cbv

theorem value_merge_commonSheet :
    (Refactoring.merge ⟨true, false, true⟩ (groupingsOf commonSheet.entries)).value =
      commonGroupings := by
  rw [← factorShared_commonMerged, ← mergeEqual_commonSheet]
  rfl

/-- The sheet with its rules merged and factored, written short. -/
theorem groupings_of_rewritten_commonSheet :
    (∀ e ∈ commonSheet.rules, e.WellFormed) ∧
      (∀ a, .atRule a ∈ commonSheet.entries → a.name ≠ "rule") ∧
      ∃ r text d' hs gs,
        (Refactoring.ofDocument ⟨true, false, true⟩ commonSheet.toDocument).value = .ok r ∧
        r.rebuilt.format Mode.minified.layout.toSettings = .ok text ∧
        Sheet.parse none text = .ok d' ∧ (commonSheet.toDocument.groupings true).value = .ok hs ∧
        (d'.toDocument.groupings true).value = .ok gs ∧ outlines gs = outlines r.groupings ∧
        (∀ s p v, Binds gs s p v ↔ Binds hs s p v) ∧ hs.length = 3 ∧
        r.groupings = commonGroupings ∧
        text = "@charset \"u\";h3\x7bpadding:0\x7dh1,h2,h3\x7bcolor:red;margin:0\x7d" := by
  have wf : ∀ e ∈ commonSheet.rules, e.WellFormed :=
    fun e he => wellFormed_commonSheet e (List.mem_filter.1 he).1
  have named : ∀ a, .atRule a ∈ commonSheet.entries → a.name ≠ "rule" := by
    intro a ha
    simp only [commonSheet, List.mem_cons, List.not_mem_nil, reduceCtorEq, Entry.atRule.injEq,
      false_or, or_false] at ha
    rw [ha]
    decide
  obtain ⟨r, text, d', hs, gs, completed, written, parsed, extracted, again, same, binds⟩ :=
    groupings_of_rewritten wf named true .minified none
  obtain ⟨hs', found, rfl⟩ := exists_of_ofDocument completed
  have fit : ∀ e ∈ commonSheet.rules, e.Extractable := fun e he =>
    extractable_of_wellFormed (wf e he) fun a same => named a (same ▸ (List.mem_filter.1 he).1)
  have all : hs' = groupingsOf commonSheet.entries :=
    Except.ok.inj (found.symm.trans (value_groupings fit true))
  have merged : (Refactoring.merge ⟨true, false, true⟩ hs').value = commonGroupings := by
    rw [all, value_merge_commonSheet]
  refine ⟨wf, named, _, text, d', hs, gs, completed, written, parsed, extracted, again, same, binds,
    ?_, merged, ?_⟩
  · rw [Except.ok.inj (extracted.symm.trans found), all]
    rfl
  · rw [merged] at written
    refine Except.ok.inj (written.symm.trans ?_)
    cbv

end StyleFactor
