import StyleFactor.Proofs.Grouping.FirstOccurrence
import StyleFactor.Proofs.Merge.Partition

/-!
Regrouping by selector, said at once instead of step by step. There is one grouping for each
selector, in the order in which the selectors occur first; it declares the last value of each
property that any grouping with the selector declares, in the order in which these properties occur
first. Main statement: `regroup_outlines`.
-/
namespace StyleFactor

open Piece (groupings)

/-- All that groupings with a selector declare, one grouping after the other. -/
def declaredFor (gs : List (Grouping String)) (s : String) : List (Declaration String) :=
  (gs.filter (·.selectors.contains s)).flatMap (·.declarations)

theorem cascade_eq_lastWrites (gs : List (Grouping String)) (s : String) :
    cascade gs s = lastWrites (declaredFor gs s) := resolve_eq_lastWrites _

theorem selectorsOf_eq_eraseDups (gs : List (Grouping String)) :
    selectorsOf gs = (gs.flatMap (·.selectors)).eraseDups := Grouping.selectors_ofLists _ _

theorem outlines_bySelector (gs : List (Grouping String)) :
    outlines (bySelector gs) = (selectorsOf gs).map fun s => ([s], cascade gs s) := by
  rw [bySelector_eq, outlines, ofLogs, List.map_map]
  apply List.map_congr_left
  intro s _
  exact congrArg (Prod.mk [s]) (resolve_saidOf gs s)

/-! Regrouping what is regrouped. -/

theorem flatMap_selectors_ofLogs (ss : List String) (log : String → List (Declaration String)) :
    (ofLogs ss log).flatMap (·.selectors) = ss := by
  simp [ofLogs, List.flatMap_map]

theorem filter_ofLogs {ss : List String} (distinct : ss.Nodup) {s : String} (member : s ∈ ss)
    (log : String → List (Declaration String)) :
    (ofLogs ss log).filter (·.selectors.contains s) = [⟨[s], log s⟩] := by
  have here : ss.filter (· == s) = [s] := by
    rw [List.filter_beq, List.count_eq_one_of_mem distinct member]
    rfl
  have found : (ofLogs ss log).filter (·.selectors.contains s) = ofLogs (ss.filter (· == s)) log := by
    rw [ofLogs, List.filter_map, ofLogs]
    congr 1
    apply List.filter_congr
    intro t _
    have alone : [t].contains s = (s == t) := Bool.or_false _
    exact alone.trans BEq.comm
  rw [found, here]
  rfl

theorem selectorsOf_bySelector (gs : List (Grouping String)) :
    selectorsOf (bySelector gs) = selectorsOf gs := by
  rw [selectorsOf_eq_eraseDups, bySelector_eq, flatMap_selectors_ofLogs,
    eraseDups_of_nodup (nodup_selectorsOf gs)]

theorem cascade_bySelector (gs : List (Grouping String)) {s : String} (member : s ∈ selectorsOf gs) :
    cascade (bySelector gs) s = cascade gs s := by
  rw [cascade, bySelector_eq, filter_ofLogs (nodup_selectorsOf gs) member, List.flatMap_singleton]
  exact (resolve_resolve _).trans (resolve_saidOf gs s)

theorem outlines_bySelector_bySelector (gs : List (Grouping String)) :
    outlines (bySelector (bySelector gs)) = outlines (bySelector gs) := by
  rw [outlines_bySelector, outlines_bySelector gs, selectorsOf_bySelector]
  apply List.map_congr_left
  intro s member
  exact congrArg (Prod.mk [s]) (cascade_bySelector gs member)

/-- Regrouping makes one grouping for each selector, in the order in which they occur first. It
declares the last value of each property that a grouping with the selector declares, in the order in
which these properties occur first. The groupings that were given stay as they are, and regrouping
what was regrouped makes the same selectors and declarations once more. -/
theorem regroup_outlines (gs : List (Grouping String)) :
    let once := (regroup (Piece.ofGroupings gs)).value
    let twice := (regroup once.result).value
    outlines (groupings once.result) =
        (gs.flatMap (·.selectors)).eraseDups.map (fun s => ([s], lastWrites (declaredFor gs s))) ∧
      (groupings once.left = gs ∧ groupings once.dropped = gs) ∧
      outlines (groupings twice.result) = outlines (groupings once.result) := by
  intro once twice
  have made : groupings once.result = bySelector gs := groupings_regroup_ofGroupings gs
  have again : groupings twice.result = bySelector (bySelector gs) := by
    rw [← made]
    exact groupings_regroup once.result
  refine ⟨?_, ⟨Piece.groupings_ofGroupings gs, Piece.groupings_ofGroupings gs⟩, ?_⟩
  · rw [made, outlines_bySelector, selectorsOf_eq_eraseDups]
    simp only [cascade_eq_lastWrites]
  · rw [again, made]
    exact outlines_bySelector_bySelector gs

end StyleFactor
