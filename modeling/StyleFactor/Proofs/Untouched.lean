import StyleFactor.Proofs.Rewriting
import StyleFactor.Proofs.Sheet.Places
import StyleFactor.Proofs.Sheet.Reformatting

/-!
At-rules and font faces go through a refactoring as they are. They are chosen by their type, which
an at-rule has from its name, so three names are lost. Main statement: the others stand around the
new rules, statements before them and blocks behind them, each of them once (`rebuilt_of_parse`).
-/
namespace StyleFactor

/-- Entries that a refactoring has no part in. -/
def Entry.isOther : Entry → Bool
  | .fontFace _ => true
  | .atRule _ => true
  | _ => false

/-- Types that are not taken over. -/
def lostTypes : List String := ["rule", "comment", "whitespace"]

/-- The at-rules and font faces that are taken over. -/
def Sheet.others (d : Sheet) : List Entry :=
  d.rules.filter fun e => e.isOther && !lostTypes.contains e.type

theorem kept_eq_others (d : Sheet) : d.kept = d.others := by
  refine List.filter_congr fun e he => Bool.eq_iff_iff.2 ?_
  cases e with
  | whitespace s => simp [Sheet.rules, Entry.isWhitespace] at he
  | _ => simp [Entry.type, Entry.isOther, lostTypes, and_assoc]

theorem count_others {d : Sheet} (distinct : d.rules.Nodup) {e : Entry} (he : e ∈ d.rules)
    (other : e.isOther) : d.others.count e = if e.type ∈ lostTypes then 0 else 1 := by
  by_cases lost : e.type ∈ lostTypes
  · rw [if_pos lost, List.count_eq_zero]
    simp [Sheet.others, lost]
  · rw [if_neg lost, Sheet.others, List.count_filter (by simp [other, lost])]
    exact List.nodup_iff_count_eq_one.1 distinct e he

theorem count_rewritten {d : Sheet} {e : Entry} (other : e.isOther) (gs : List (Grouping String)) :
    (d.rewritten gs).entries.count e = d.others.count e := by
  have made : (gs.map fun g => Entry.rule g.toRule).count e = 0 := by
    refine List.count_eq_zero.2 fun made => ?_
    obtain ⟨g, -, rfl⟩ := List.mem_map.1 made
    cases other
  have split := (List.filter_append_perm Entry.isStatement d.others).count_eq e
  rw [List.count_append] at split
  rw [Sheet.rewritten, List.count_append, List.count_append, made, kept_eq_others, ← split]
  omega

theorem rules_rewritten (d : Sheet) (gs : List (Grouping String)) :
    (d.rewritten gs).rules = (d.rewritten gs).entries := by
  have kept : ∀ e ∈ d.kept, !e.isWhitespace :=
    fun e he => (List.mem_filter.1 (List.mem_filter.1 he).1).2
  refine List.filter_eq_self.2 fun e he => ?_
  rcases List.mem_append.1 he with he | he
  · rcases List.mem_append.1 he with he | he
    · exact kept e (List.mem_filter.1 he).1
    · obtain ⟨g, -, rfl⟩ := List.mem_map.1 he
      rfl
  · exact kept e (List.mem_filter.1 he).1

theorem document_of_ofDocument {o : Options} {d : Document} {r : Refactoring}
    (completed : (Refactoring.ofDocument o d).value = .ok r) : r.document = d := by
  obtain ⟨hs, -, rfl⟩ := exists_of_ofDocument completed
  rfl

/-- A refactoring that goes through writes the statements of its sheet, a rule for each grouping,
and then the blocks and font faces, each kind in the order it was in. Of the at-rules and font faces
it writes each once, but those whose name is one of the lost types not at all. -/
theorem rebuilt_of_parse {source : Option String} {text : String} {d : Sheet}
    (parsed : Sheet.parse source text = .ok d) (o : Options) {r : Refactoring}
    (completed : (Refactoring.ofDocument o d.toDocument).value = .ok r) :
    let written := d.others.filter Entry.isStatement ++ r.groupings.map (.rule ·.toRule) ++
      d.others.filter (!·.isStatement)
    r.rebuilt.rules = written.map Entry.toDraft ∧
      ∀ e ∈ d.rules, e.isOther → written.count e = if e.type ∈ lostTypes then 0 else 1 := by
  intro written
  have sheet : d.rewritten r.groupings = ⟨written, d.source⟩ := by
    rw [Sheet.rewritten, kept_eq_others]
  have rebuilt : r.rebuilt = (d.rewritten r.groupings).toDocument := by
    obtain ⟨document, gs, before, after⟩ := r
    obtain rfl : document = d.toDocument := document_of_ofDocument completed
    exact rebuilt_eq d gs before after
  refine ⟨by rw [rebuilt, rules_toDocument, rules_rewritten, sheet], fun e he other => ?_⟩
  have same := count_rewritten other r.groupings (d := d)
  rw [sheet, count_others (nodup_rules parsed) he other] at same
  exact same

theorem rebuilt_of_parse_untidySheet : ∃ d r, Sheet.parse none untidySheet = .ok d ∧
    d.entries.map Entry.unplaced = untidyEntries ∧
    (Refactoring.ofDocument ⟨true, true, true⟩ d.toDocument).value = .ok r ∧
    let written := d.others.filter Entry.isStatement ++ r.groupings.map (.rule ·.toRule) ++
      d.others.filter (!·.isStatement)
    r.rebuilt.rules = written.map Entry.toDraft ∧
      ∀ e ∈ d.rules, e.isOther → written.count e = if e.type ∈ lostTypes then 0 else 1 := by
  obtain ⟨d, parsed, entries⟩ := exists_of_map_ok parse_untidySheet
  have link : d.entries.map Entry.unplaced = untidyEntries.map Entry.unplaced := entries
  have fit : ∀ e ∈ untidyEntries, e.Extractable := by
    intro e he
    simp only [untidyEntries, List.mem_cons, List.not_mem_nil, or_false] at he
    rcases he with rfl | rfl | rfl | rfl | rfl | rfl | rfl <;> simp [Entry.Extractable]
  have all := forall_of_unplaced extractable_unplaced link fit
  have completed := value_ofDocument (o := ⟨true, true, true⟩)
    (value_groupings (d := d) (fun e he => all e (List.mem_filter.1 he).1) true)
  exact ⟨d, _, parsed, entries, completed, rebuilt_of_parse parsed ⟨true, true, true⟩ completed⟩

/-- An at-rule that is called as comments are is lost with them. -/
theorem atRule_lost : ¬∀ text d, Sheet.parse none text = .ok d → ∀ o r,
    (Refactoring.ofDocument o d.toDocument).value = .ok r →
      let others := d.rules.filter Entry.isOther
      let written := others.filter Entry.isStatement ++ r.groupings.map (.rule ·.toRule) ++
        others.filter (!·.isStatement)
      r.rebuilt.rules = written.map Entry.toDraft := by
  intro claim
  have read : (Sheet.parse none "@comment x;").map (·.entries.map Entry.unplaced) =
      .ok [.atRule ⟨"comment", "x", none, none⟩] := by
    cbv
  obtain ⟨d, parsed, entries⟩ := exists_of_map_ok read
  obtain ⟨a, whole, same⟩ := eq_of_unplaced_atRule entries
  have name : a.name = "comment" := congrArg AtRule.name same
  have rules : d.rules = [.atRule a] := by
    rw [Sheet.rules, whole]
    rfl
  have fit : ∀ e ∈ d.rules, e.Extractable := by
    rw [rules]
    simp [Entry.Extractable, name]
  have completed := value_ofDocument (o := ⟨true, false, true⟩) (value_groupings fit true)
  have size := congrArg List.length (claim _ d parsed _ _ completed)
  have lost : d.kept = [] := by simp [Sheet.kept, rules, Entry.type, name]
  have statement : (Entry.atRule a).isStatement := by
    have body : a.body = none := congrArg AtRule.body same
    rw [Entry.isStatement, AtRule.isStatement, body]
    rfl
  rw [rebuilt_eq, rules_toDocument, rules_rewritten, Sheet.rewritten, lost, rules] at size
  simp [Entry.isOther, statement] at size

end StyleFactor
