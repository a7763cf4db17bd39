import StyleFactor.Proofs.Rewriting
import StyleFactor.Proofs.Sheet.Reformatting

/-!
Which sheets a strict refactoring refuses. A rule is malformed if trimming has left nothing of one
of its selectors, and an at-rule is if its name makes it pass for a rule; no other entry of a sheet
is. Main statement: the first malformed entry is what a refactoring ends with, and without any it
goes through; selectors stay what they are where all white space is the grammar's own
(`ofDocument_of_parse`).
-/
namespace StyleFactor

open Grammar Grammar.Reader

/-- What a strict extraction has against an entry. -/
def Entry.malformed? : Entry → Option Malformed
  | .rule r => if "" ∈ r.selectors then some (.badSelector (.text "")) else none
  | .atRule a => if a.name = "rule" then some .noSelectors else none
  | _ => none

theorem malformed?_eq_none {e : Entry} : e.malformed? = none ↔ e.Extractable := by
  cases e with
  | rule r =>
    simp only [Entry.malformed?, Entry.Extractable, ite_eq_right_iff, reduceCtorEq, imp_false]
    exact ⟨fun absent s hs empty => absent (empty ▸ hs), fun fit empty => fit "" empty rfl⟩
  | atRule a => simp [Entry.malformed?, Entry.Extractable]
  | _ => simp [Entry.malformed?, Entry.Extractable]

theorem mapM_checkSelector {ss : List String} (empty : "" ∈ ss) :
    (ss.map Value.text).mapM Value.checkSelector =
      .error (.malformed (.badSelector (.text ""))) := by
  induction ss with
  | nil => cases empty
  | cons s ss ih =>
    rw [List.map_cons, List.mapM_cons]
    by_cases here : s = ""
    · rw [here]
      rfl
    · rw [Value.checkSelector_eq_ok.2 ⟨rfl, here⟩, ih ((List.mem_cons.1 empty).resolve_left (Ne.symm here))]
      rfl

theorem ofDraft_malformed {e : Entry} {m : Malformed} (bad : e.malformed? = some m) :
    e.type = "rule" ∧ Grouping.ofDraft e.toDraft = .error (.malformed m) := by
  cases e with
  | rule r =>
    simp only [Entry.malformed?] at bad
    split at bad
    · next empty =>
      cases bad
      have checked := mapM_checkSelector empty
      have steps : Grouping.ofDraft (Entry.rule r).toDraft =
          ((r.selectors.map Value.text).mapM Value.checkSelector).bind fun ss =>
            ((r.declarations.map Decl.toValue).mapM Value.checkDeclaration).bind fun ds =>
              .ok (.ofLists ds ss) := rfl
      exact ⟨rfl, by rw [steps, checked]; rfl⟩
    · cases bad
  | atRule a =>
    simp only [Entry.malformed?] at bad
    split at bad
    · next named =>
      cases bad
      exact ⟨named, rfl⟩
    · cases bad
  | _ => cases bad

theorem value_groupingsFrom_malformed {es : List Entry} {m : Malformed}
    (bad : es.findSome? Entry.malformed? = some m) :
    (groupingsFrom true (es.map Entry.toDraft)).value = .error (.malformed m) := by
  induction es with
  | nil => cases bad
  | cons e es ih =>
    rw [List.findSome?_cons] at bad
    rw [List.map_cons]
    cases here : e.malformed? with
    | some m' =>
      rw [here] at bad
      cases bad
      obtain ⟨type, refused⟩ := ofDraft_malformed here
      rw [groupingsFrom_strict (by simp [isType_toDraft, type]) refused]
      rfl
    | none =>
      rw [here] at bad
      rw [value_groupingsFrom_cons (malformed?_eq_none.1 here), ih bad]
      rfl

theorem value_ofDocument_error {o : Options} {d : Document} {r : Refusal}
    (refused : (d.groupings o.strict).value = .error r) :
    (Refactoring.ofDocument o d).value = .error r := by
  rw [Refactoring.ofDocument, Logged.value_bind, refused]
  rfl

section

variable {l : Layout} {s t : List Char} {ns : List Node}

theorem Listing.exists_fits {α : Type} {k : Listing α} {as : List α} (fit : k.FitAll as t) :
    ∀ a ∈ as, ∃ u, k.Fits a u := by
  induction as with
  | nil => exact List.forall_mem_nil _
  | cons a as ih => exact List.forall_mem_cons.2 ⟨⟨_, fit.1⟩, ih fit.2⟩

/-- No selector of the entry is empty, if it has any. -/
def Entry.Solid (e : Entry) : Prop := ∀ r, e = .rule r → "" ∉ r.selectors

theorem solid_unplaced (e : Entry) : e.unplaced.Solid ↔ e.Solid := by
  cases e <;> simp [Entry.Solid, Entry.unplaced, Rule.unplaced]

theorem solid_of_replaces {e : Entry} (h : e.Replaces l s t) (plain : PlainSpaces s) :
    e.Solid := by
  rintro r rfl empty
  have fits : r.Fits l t := (h t (NoNewEnds.of_inside List.infix_rfl)).2 (Or.inl plain) trivial
  obtain ⟨u, fit⟩ := Listing.exists_fits fits.selectors "" empty
  exact SelectorFits.nonempty fit rfl

theorem solid_of_reads (read : Reads toplevel.star s [] ns) (plain : PlainSpaces s) :
    ∃ es, SayEntries ns es ∧ ∀ e ∈ es, e.Solid := by
  refine Reads.star_induction (motive := fun s ns => PlainSpaces s → ∃ es, SayEntries ns es ∧
    ∀ e ∈ es, e.Solid) keeps_toplevel
    (fun _ => ⟨[], fun o => ⟨[], rfl, rfl⟩, List.forall_mem_nil _⟩) ?_ read plain
  intro u v ms ms' first _ more plain
  obtain ⟨es, say, solid⟩ := more (plain.mono (List.suffix_append u v).isInfix)
  obtain ⟨n, e, rfl, entry, replaces⟩ := replaces_toplevel (readable_layout .canonical) first
  refine ⟨e :: es, sayEntries_cons u entry say, List.forall_mem_cons.2 ⟨?_, solid⟩⟩
  exact solid_of_replaces replaces (plain.mono (List.prefix_append u v).isInfix)

theorem solid_of_parse {source : Option String} {text : String} {d : Sheet}
    (parsed : Sheet.parse source text = .ok d) (plain : PlainSpaces text.toList) :
    ∀ e ∈ d.entries, e.Solid := by
  obtain ⟨ps, said, read, found, same⟩ := sketches_of_parse (.ofText [] source) parsed
  have whole : Reads toplevel.star text.toList [] (sketches ps) := by
    refine ⟨ps, ?_, ?_, rfl⟩
    · rw [List.append_nil]
      exact congrArg some read
    · simpa [read] using css_append text.toList
  obtain ⟨es, say, solid⟩ := solid_of_reads whole plain
  obtain ⟨es', again, equal⟩ := say (.ofText [] source)
  have link : d.entries.map Entry.unplaced = es.map Entry.unplaced := by
    rw [← same, ← equal, Except.ok.inj (found.symm.trans again)]
  exact forall_of_unplaced solid_unplaced link solid

end

/-- A strict refactoring of a sheet that was read goes through unless one of its selectors has come
out empty or one of its at-rules is called as a rule is; the first such entry is what is reported.
A selector can come out empty only where the text has white space that the grammar does not take for
any. -/
theorem ofDocument_of_parse {source : Option String} {text : String} {d : Sheet}
    (parsed : Sheet.parse source text = .ok d) (shared bySelector : Bool) :
    let run := (Refactoring.ofDocument ⟨shared, bySelector, true⟩ d.toDocument).value
    (∀ m, d.rules.findSome? Entry.malformed? = some m → run = .error (.malformed m)) ∧
      ((∃ r, run = .ok r) ↔ (∀ r, .rule r ∈ d.rules → "" ∉ r.selectors) ∧
        ∀ a, .atRule a ∈ d.rules → a.name ≠ "rule") ∧
      (PlainSpaces text.toList → ∀ r, .rule r ∈ d.rules → "" ∉ r.selectors) := by
  intro run
  have refused : ∀ m, d.rules.findSome? Entry.malformed? = some m →
      run = .error (.malformed m) := by
    intro m bad
    refine value_ofDocument_error ?_
    rw [Document.groupings, rules_toDocument]
    exact value_groupingsFrom_malformed bad
  have fit : (∀ e ∈ d.rules, e.Extractable) ↔ (∀ r, .rule r ∈ d.rules → "" ∉ r.selectors) ∧
      ∀ a, .atRule a ∈ d.rules → a.name ≠ "rule" := by
    constructor
    · intro all
      exact ⟨fun r hr empty => all _ hr "" empty rfl, fun a ha => all _ ha⟩
    · rintro ⟨rules, others⟩ e he
      cases e with
      | rule r => exact fun s hs empty => rules r he (empty ▸ hs)
      | atRule a => exact others a he
      | _ => trivial
  refine ⟨refused, ⟨?_, fun all => ?_⟩, fun plain r hr => ?_⟩
  · rintro ⟨r, completed⟩
    refine fit.1 fun e he => malformed?_eq_none.1 ?_
    cases bad : d.rules.findSome? Entry.malformed? with
    | none => exact List.findSome?_eq_none_iff.1 bad e he
    | some m => cases (refused m bad).symm.trans completed
  · exact ⟨_, value_ofDocument (value_groupings (fit.2 all) true)⟩
  · exact solid_of_parse parsed plain _ (List.mem_filter.1 hr).1 r rfl

theorem ofDocument_of_parse_untidySheet : ∃ d, Sheet.parse none untidySheet = .ok d ∧
    d.entries.map Entry.unplaced = untidyEntries ∧ PlainSpaces untidySheet.toList ∧
    let run := (Refactoring.ofDocument ⟨true, false, true⟩ d.toDocument).value
    (∀ m, d.rules.findSome? Entry.malformed? = some m → run = .error (.malformed m)) ∧
      ((∃ r, run = .ok r) ↔ (∀ r, .rule r ∈ d.rules → "" ∉ r.selectors) ∧
        ∀ a, .atRule a ∈ d.rules → a.name ≠ "rule") ∧
      (PlainSpaces untidySheet.toList → ∀ r, .rule r ∈ d.rules → "" ∉ r.selectors) := by
  obtain ⟨d, parsed, entries⟩ := exists_of_map_ok parse_untidySheet
  exact ⟨d, parsed, entries, plainSpaces_untidySheet, ofDocument_of_parse parsed true false⟩

/-- An at-rule that is called as a rule is taken for one. -/
theorem atRule_refused : ¬∀ text d, Sheet.parse none text = .ok d → ∀ shared bySelector,
    ∃ r, (Refactoring.ofDocument ⟨shared, bySelector, true⟩ d.toDocument).value = .ok r := by
  intro claim
  have read : (Sheet.parse none "@rule x;").map (·.entries.map Entry.unplaced) =
      .ok [.atRule ⟨"rule", "x", none, none⟩] := by
    cbv
  obtain ⟨d, parsed, entries⟩ := exists_of_map_ok read
  obtain ⟨a, whole, same⟩ := eq_of_unplaced_atRule entries
  have name : a.name = "rule" := congrArg AtRule.name same
  have rules : d.toDocument.rules = [(Entry.atRule a).toDraft] := by
    rw [rules_toDocument, Sheet.rules, whole]
    rfl
  have refused : (d.toDocument.groupings true).value = .error (.malformed .noSelectors) := by
    have bad : [Entry.atRule a].findSome? Entry.malformed? = some .noSelectors := by
      simp [Entry.malformed?, name]
    rw [Document.groupings, rules]
    exact value_groupingsFrom_malformed bad
  obtain ⟨r, completed⟩ := claim _ d parsed true false
  cases (value_ofDocument_error (o := ⟨true, false, true⟩) refused).symm.trans completed

end StyleFactor
