import StyleFactor.Draft.Print
import StyleFactor.Grouping.OfDocument
import StyleFactor.Proofs.Grouping.Leniency
import StyleFactor.Proofs.Grouping.Resolution
import StyleFactor.Proofs.Grouping.Validation
import StyleFactor.Proofs.Sheet.Unplaced

/-!
The groupings of a sheet. Each rule has one, whatever stands around it and wherever it stands; it is
left out if it resolves to nothing. Main statement: extraction from a sheet whose selectors are not
empty succeeds, strict or not, with the groupings of its rules (`value_groupings`).
-/
namespace StyleFactor

def Entry.rule? : Entry → Option Rule
  | .rule r => some r
  | _ => none

def Rule.grouping (r : Rule) : Grouping String :=
  .ofLists (r.declarations.map fun d => ⟨d.property, d.value⟩) r.selectors

/-- The groupings of the rules among some entries. -/
def groupingsOf (es : List Entry) : List (Grouping String) :=
  ((es.filterMap Entry.rule?).map Rule.grouping).filter (!·.declarations.isEmpty)

/-- An entry that gives a grouping or is passed over, and is never malformed. -/
def Entry.Extractable : Entry → Prop
  | .rule r => ∀ s ∈ r.selectors, s ≠ ""
  | .atRule a => a.name ≠ "rule"
  | _ => True

theorem isType_toDraft (e : Entry) (t : String) : e.toDraft.isType t = (e.type == t) := by
  cases e <;> rfl

theorem ofDraft_rule {r : Rule} (nonempty : ∀ s ∈ r.selectors, s ≠ "") :
    Grouping.ofDraft (Entry.rule r).toDraft = .ok r.grouping := by
  have solid : "" ∉ r.selectors := fun empty => nonempty "" empty rfl
  have each : List.Forall₂ Value.Declares (r.declarations.map Decl.toValue)
      (r.declarations.map fun d => ⟨d.property, d.value⟩) := by
    rw [List.forall₂_map_left_iff, List.forall₂_map_right_iff, List.forall₂_same]
    exact fun _ _ => rfl
  exact Grouping.ofDraft_of_lists rfl solid rfl each

/-- What is extracted from the rule that a grouping is written as. -/
theorem grouping_toRule {g : Grouping String} (distinct : g.selectors.Nodup) :
    g.toRule.grouping = ⟨g.selectors, g.declarations⟩ := by
  have declarations : (g.toRule.declarations.map fun d => Declaration.mk d.property d.value) =
      g.declarations := by
    simp [Grouping.toRule, Function.comp_def]
  rw [Rule.grouping, declarations]
  exact Grouping.insertSelectors_of_distinct distinct

theorem groupingsOf_cons_rule (r : Rule) (es : List Entry) :
    groupingsOf (.rule r :: es) =
      if r.grouping.declarations.isEmpty then groupingsOf es else r.grouping :: groupingsOf es := by
  have first : (Entry.rule r :: es).filterMap Entry.rule? = r :: es.filterMap Entry.rule? :=
    List.filterMap_cons_some rfl
  rw [groupingsOf, first, List.map_cons, List.filter_cons]
  cases r.grouping.declarations.isEmpty <;> rfl

theorem groupingsOf_cons_of_none {e : Entry} (none : e.rule? = none) (es : List Entry) :
    groupingsOf (e :: es) = groupingsOf es := by
  rw [groupingsOf, List.filterMap_cons_none none]
  rfl

theorem groupingsOf_append (es fs : List Entry) :
    groupingsOf (es ++ fs) = groupingsOf es ++ groupingsOf fs := by
  simp [groupingsOf]

theorem groupingsOf_eq_nil {es : List Entry} (none : ∀ e ∈ es, e.rule? = none) :
    groupingsOf es = [] := by
  rw [groupingsOf, List.filterMap_eq_nil_iff.2 none]
  rfl

theorem type_ne_rule {e : Entry} (fit : e.Extractable) (none : e.rule? = none) :
    e.type ≠ "rule" := by
  cases e with
  | rule r => cases none
  | atRule a => exact fit
  | _ => simp [Entry.type]

theorem value_groupingsFrom_cons {e : Entry} (fit : e.Extractable) (strict : Bool)
    (ds : List Draft) : (groupingsFrom strict (e.toDraft :: ds)).value =
      (groupingsFrom strict ds).value.map (groupingsOf [e] ++ ·) := by
  cases rule : e.rule? with
  | none =>
    have kind : e.toDraft.isType "rule" = false := by
      simpa [isType_toDraft] using type_ne_rule fit rule
    rw [groupingsOf_cons_of_none rule, groupingsFrom_other kind]
    exact (congrFun Except.map_id _).symm
  | some r =>
    obtain rfl : e = .rule r := by
      cases e <;> cases rule
      rfl
    rw [groupingsOf_cons_rule, groupingsFrom_grouped rfl (ofDraft_rule fit), value_enter]
    split <;> rfl

theorem value_groupingsFrom {es : List Entry} (fit : ∀ e ∈ es, e.Extractable) (strict : Bool) :
    (groupingsFrom strict (es.map Entry.toDraft)).value = .ok (groupingsOf es) := by
  induction es with
  | nil => rfl
  | cons e es ih =>
    obtain ⟨first, rest⟩ := List.forall_mem_cons.1 fit
    rw [List.map_cons, value_groupingsFrom_cons first, ih rest]
    exact congrArg Except.ok (groupingsOf_append [e] es).symm

theorem rules_toDocument (d : Sheet) : d.toDocument.rules = d.rules.map Entry.toDraft := by
  have same : ∀ e : Entry, e.toDraft.isWhitespace = e.isWhitespace := fun e => by cases e <;> rfl
  simp [Document.rules, Sheet.toDocument, Sheet.rules, List.filter_map, Function.comp_def, same]

theorem groupingsOf_filter {keep : Entry → Bool} (rules : ∀ r, keep (.rule r) = true)
    (es : List Entry) : groupingsOf (es.filter keep) = groupingsOf es := by
  rw [groupingsOf, groupingsOf, List.filterMap_filter]
  congr 3
  funext e
  cases e with
  | rule r => rw [if_pos (rules r)]
  | _ => exact ite_self none

theorem groupingsOf_rules (d : Sheet) : groupingsOf d.rules = groupingsOf d.entries :=
  groupingsOf_filter (fun _ => rfl) d.entries

theorem grouping_unplaced (r : Rule) : r.unplaced.grouping = r.grouping := by
  simp [Rule.grouping, Rule.unplaced, Decl.unplaced, Function.comp_def]

theorem groupingsOf_unplaced (es : List Entry) :
    groupingsOf (es.map Entry.unplaced) = groupingsOf es := by
  have rule : ∀ e : Entry, e.unplaced.rule? = e.rule?.map Rule.unplaced := fun e => by
    cases e <;> rfl
  have same : (es.map Entry.unplaced).filterMap Entry.rule? =
      (es.filterMap Entry.rule?).map Rule.unplaced := by
    rw [List.filterMap_map, List.map_filterMap]
    exact congrArg (List.filterMap · es) (funext rule)
  rw [groupingsOf, same, List.map_map]
  exact congrArg (fun f => ((es.filterMap Entry.rule?).map f).filter (!·.declarations.isEmpty))
    (funext grouping_unplaced)

theorem extractable_unplaced (e : Entry) : e.unplaced.Extractable ↔ e.Extractable := by
  cases e <;> rfl

theorem mem_groupingsOf {es : List Entry} {g : Grouping String} :
    g ∈ groupingsOf es ↔ g.declarations ≠ [] ∧ ∃ r, .rule r ∈ es ∧ r.grouping = g := by
  have some : ∀ (e : Entry) (r : Rule), e.rule? = some r ↔ e = .rule r := by
    intro e r
    cases e <;> simp [Entry.rule?]
  simp only [groupingsOf, List.mem_filter, List.mem_map, List.mem_filterMap, some]
  rw [and_comm]
  refine and_congr ?_ ?_
  · cases g.declarations <;> simp
  · simp

theorem value_groupings {d : Sheet} (fit : ∀ e ∈ d.rules, e.Extractable) (strict : Bool) :
    (d.toDocument.groupings strict).value = .ok (groupingsOf d.entries) := by
  rw [Document.groupings, rules_toDocument, value_groupingsFrom fit, groupingsOf_rules]

end StyleFactor
