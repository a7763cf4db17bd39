import StyleFactor.Proofs.Grouping.Measure
import StyleFactor.Proofs.Rewriting

/-!
What merging equal groupings saves. A piece that is absorbed hands on its selectors, for one comma
more at most, and leaves its declarations behind, which take two characters at least. So every
absorption saves something, and a run of the pass saves as much as it absorbs (`size_merge_equal`).
-/
namespace StyleFactor

open Piece (groupings)

/-- What an absorption saves. -/
theorem size_absorb {c host : Piece} {ps qs : List Piece} (h : absorb c ps = some (host, qs)) :
    totalSize (groupings qs) + 1 ≤ totalSize (groupings (c :: ps)) := by
  induction ps generalizing qs with
  | nil => cases h
  | cons first rest ih =>
    simp only [Piece.groupings_cons, totalSize_cons] at ih ⊢
    unfold absorb at h
    -- the host is further back if any piece there agrees, and else it is the first piece
    split at h
    · next found =>
      cases h
      have others := ih found
      rw [Piece.groupings_cons, totalSize_cons]
      omega
    · split at h
      · next agree =>
        cases h
        obtain ⟨same, d, hd⟩ := Grouping.agrees_iff.1 agree
        have declares : 0 < c.grouping.declarations.length := List.length_pos_of_mem hd
        have declared := length_le_declarationsSize c.grouping.declarations
        have handed := host.grouping.selectorSize_insertSelectors_le c.grouping
        have whole : (host.insertSelectors c.selectors).grouping.size =
            host.grouping.declarationSize +
              (host.grouping.insertSelectors c.grouping.selectors).selectorSize :=
          host.grouping.size_insertSelectors _
        rw [Piece.groupings_cons, totalSize_cons, whole]
        unfold Grouping.size Grouping.declarationSize
        omega
      · cases h

/-- What a run saves, and how many pieces it leaves. -/
theorem size_mergeEqualFrom (ps : List Piece) :
    (mergeEqualFrom ps).value.1.length + (mergeEqualFrom ps).value.2.length = ps.length ∧
      totalSize (groupings (mergeEqualFrom ps).value.1) + (mergeEqualFrom ps).value.2.length ≤
        totalSize (groupings ps) := by
  match ps with
  | [] =>
    rw [value_mergeEqualFrom_nil]
    exact ⟨rfl, Nat.le_refl _⟩
  | c :: rest =>
    rw [value_mergeEqualFrom_cons]
    cases taken : absorb c rest with
    | none =>
      obtain ⟨count, saving⟩ := size_mergeEqualFrom rest
      simp only [Piece.groupings_cons, totalSize_cons, List.length_cons]
      omega
    | some result =>
      obtain ⟨host, qs⟩ := result
      have shorter := length_of_absorb taken
      have step := size_absorb taken
      obtain ⟨count, saving⟩ := size_mergeEqualFrom qs
      simp only [List.length_cons]
      omega
termination_by ps.length

theorem size_mergeEqual (ps : List Piece) :
    (mergeEqual ps).value.result.length ≤ ps.length ∧
      totalSize (groupings (mergeEqual ps).value.result) +
          (ps.length - (mergeEqual ps).value.result.length) ≤ totalSize (groupings ps) := by
  have result : (mergeEqual ps).value.result = (mergeEqualFrom ps.reverse).value.1 := rfl
  obtain ⟨count, saving⟩ := size_mergeEqualFrom ps.reverse
  have turned : totalSize (groupings ps.reverse) = totalSize (groupings ps) :=
    totalSize_perm ((List.reverse_perm ps).map _)
  rw [List.length_reverse] at count
  rw [turned] at saving
  rw [result]
  omega

/-- Merging equal groupings saves a character at least for each grouping that is absorbed. A
refactoring that does nothing else does not make a document larger. -/
theorem size_merge_equal :
    (∀ gs : List (Grouping String),
      let out := groupings (mergeEqual (Piece.ofGroupings gs)).value.result
      out.length ≤ gs.length ∧ totalSize out + (gs.length - out.length) ≤ totalSize gs) ∧
    ∀ (strict : Bool) (d : Document) (r : Refactoring),
      (Refactoring.ofDocument ⟨false, false, strict⟩ d).value = .ok r → r.after ≤ r.before := by
  have saving : ∀ gs : List (Grouping String),
      let out := groupings (mergeEqual (Piece.ofGroupings gs)).value.result
      out.length ≤ gs.length ∧ totalSize out + (gs.length - out.length) ≤ totalSize gs := by
    intro gs out
    have count : (Piece.ofGroupings gs).length = gs.length := by simp [Piece.ofGroupings]
    have pieces := size_mergeEqual (Piece.ofGroupings gs)
    rw [count, Piece.groupings_ofGroupings] at pieces
    simpa [out, groupings] using pieces
  refine ⟨saving, fun strict d r completed => ?_⟩
  obtain ⟨gs, -, rfl⟩ := exists_of_ofDocument completed
  have bound := (saving gs).2
  exact Nat.le_trans (Nat.le_add_right _ _) bound

/-- Three rules of one style; one of them has the selectors of the others, and one has none. -/
def alikeSheet : Sheet where
  entries := [.rule ⟨["a", "b"], [⟨"x", "1", none⟩, ⟨"y", "", none⟩], none⟩,
    .rule ⟨["b", "c"], [⟨"y", "", none⟩, ⟨"x", "2", none⟩, ⟨"x", "1", none⟩], none⟩,
    .rule ⟨[], [⟨"x", "1", none⟩, ⟨"y", "", none⟩], none⟩]
  source := none

theorem mergeEqual_alikeSheet :
    groupings (mergeEqual (Piece.ofGroupings (groupingsOf alikeSheet.entries))).value.result =
      [⟨["a", "b", "c"], [⟨"x", "1"⟩, ⟨"y", ""⟩]⟩] := by
  have taken : (Piece.ofGroupings (groupingsOf alikeSheet.entries)).reverse =
      [⟨some 2, ⟨[], [⟨"x", "1"⟩, ⟨"y", ""⟩]⟩⟩,
        ⟨some 1, ⟨["b", "c"], [⟨"y", ""⟩, ⟨"x", "2"⟩, ⟨"x", "1"⟩]⟩⟩,
        ⟨some 0, ⟨["a", "b"], [⟨"x", "1"⟩, ⟨"y", ""⟩]⟩⟩] := by
    decide
  have run : (mergeEqual (Piece.ofGroupings (groupingsOf alikeSheet.entries))).value.result =
      (mergeEqualFrom (Piece.ofGroupings (groupingsOf alikeSheet.entries)).reverse).value.1 := rfl
  rw [run, taken]
  simp +decide only [value_mergeEqualFrom_cons, value_mergeEqualFrom_nil, absorb, ↓reduceIte]

theorem size_merge_equal_alikeSheet :
    let gs := groupingsOf alikeSheet.entries
    let out := groupings (mergeEqual (Piece.ofGroupings gs)).value.result
    (out.length ≤ gs.length ∧ totalSize out + (gs.length - out.length) ≤ totalSize gs) ∧
      (gs.length = 3 ∧ totalSize gs = 27) ∧ (out.length = 1 ∧ totalSize out = 12) ∧
      ∃ r, (Refactoring.ofDocument ⟨false, false, true⟩ alikeSheet.toDocument).value = .ok r ∧
        r.after ≤ r.before ∧ r.before = 27 ∧ r.after = 12 := by
  intro gs out
  have fit : ∀ e ∈ alikeSheet.entries, e.Extractable := by
    intro e he
    simp only [alikeSheet, List.mem_cons, List.not_mem_nil, or_false] at he
    rcases he with rfl | rfl | rfl <;> simp [Entry.Extractable]
  have extracted := value_groupings (d := alikeSheet)
    (fun e he => fit e (List.mem_filter.1 he).1) true
  have completed := value_ofDocument (o := ⟨false, false, true⟩) extracted
  have given : gs.length = 3 ∧ totalSize gs = 27 := by decide
  have left : out.length = 1 ∧ totalSize out = 12 := by
    rw [show out = _ from mergeEqual_alikeSheet]
    decide
  exact ⟨size_merge_equal.1 gs, given, left, _, completed, size_merge_equal.2 true _ _ completed,
    given.2, left.2⟩

end StyleFactor
