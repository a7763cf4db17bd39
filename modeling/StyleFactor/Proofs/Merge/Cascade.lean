import Mathlib
import StyleFactor.Refactoring
import StyleFactor.Proofs.Merge.Regrouping

/-!
Computed style before and after a refactoring. Merging keeps what groupings bind, so it keeps the
cascade wherever groupings agree; where they do not, their order decides, and merging changes it
(`cascade_clash`). Regrouping first settles every disagreement the way the cascade does, so that no
order can matter afterwards.
-/
namespace StyleFactor

open Refactoring (merge)

variable {s p v : String}

theorem binds_merge {o : Options} (plain : o.bySelector = false) (gs : List (Grouping String)) :
    Binds (merge o gs).value s p v ↔ Binds gs s p v := by
  have merges := Options.bySelector_notMem_passes plain
  have kept := binds_runPasses (s := s) (p := p) (v := v) merges (Piece.ofGroupings gs)
  rwa [Piece.groupings_ofGroupings] at kept

theorem groupings_regroup (ps : List Piece) :
    Piece.groupings (regroup ps).value.result = bySelector (Piece.groupings ps) := by
  simp [regroup, Piece.groupings, List.map_map, Function.comp_def]

theorem binds_merge_bySelector {o : Options} (regroups : o.bySelector = true)
    (gs : List (Grouping String)) :
    Binds (merge o gs).value s p v ↔ ⟨p, v⟩ ∈ cascade gs s := by
  let after : List PassKind := [.equal] ++ if o.shared then [.shared] else []
  have merges : PassKind.bySelector ∉ after := by
    cases h : o.shared <;> simp [after, h]
  have first : o.passes = .bySelector :: after := by simp [Options.passes, regroups, after]
  have run : (merge o gs).value =
      Piece.groupings (runPasses after (regroup (Piece.ofGroupings gs)).value.result).value := by
    rw [merge, first]
    rfl
  rw [run, binds_runPasses merges, groupings_regroup, Piece.groupings_ofGroupings,
    binds_bySelector]

/-- Two groupings give one property of a selector different values; the second one wins. -/
def clash : List (Grouping String) :=
  [⟨["a"], [⟨"color", "red"⟩]⟩, ⟨["a"], [⟨"color", "blue"⟩]⟩]

/-- Merging turns the two around, so that the first one wins. -/
theorem cascade_clash :
    lookup (cascade clash "a") "color" = some "blue" ∧
      lookup (cascade (merge ⟨true, false, true⟩ clash).value "a") "color" = some "red" := by
  have turned : (merge ⟨true, false, true⟩ clash).value = clash.reverse := by cbv
  rw [turned]
  decide

/-- Merging keeps the value of a property that no two groupings dispute. Of one that is disputed it
keeps one of the values in dispute. -/
theorem cascade_merge (strict : Bool) (gs : List (Grouping String)) (s p : String) :
    let out := (merge ⟨true, false, strict⟩ gs).value
    ((∀ v w, Binds gs s p v → Binds gs s p w → v = w) →
      lookup (cascade out s) p = lookup (cascade gs s) p) ∧
    ((lookup (cascade out s) p).isSome ↔ (lookup (cascade gs s) p).isSome) ∧
    ∀ v, lookup (cascade out s) p = some v → Binds gs s p v := by
  intro out
  have kept : ∀ v, Binds out s p v ↔ Binds gs s p v := fun v => binds_merge rfl gs
  refine ⟨fun undisputed => ?_, ?_, fun v found => ?_⟩
  · have undisputed' : ∀ v w, Binds out s p v → Binds out s p w → v = w := by
      intro v w hv hw
      exact undisputed v w ((kept v).1 hv) ((kept w).1 hw)
    apply Option.ext
    intro v
    rw [lookup_cascade_iff undisputed', lookup_cascade_iff undisputed, kept]
  · simp only [isSome_cascade_iff, kept]
  · exact (kept v).1 (binds_of_mem_cascade (mem_of_lookup found))

theorem cascade_merge_agreeing :
    let gs : List (Grouping String) :=
      [⟨["a"], [⟨"color", "red"⟩]⟩, ⟨["a", "b"], [⟨"margin", "0"⟩, ⟨"color", "red"⟩]⟩]
    (∀ v w, Binds gs "a" "color" v → Binds gs "a" "color" w → v = w) ∧
      lookup (cascade (merge ⟨true, false, true⟩ gs).value "a") "color" =
        lookup (cascade gs "a") "color" := by
  intro gs
  have red : ∀ v, Binds gs "a" "color" v → v = "red" := by
    rintro v ⟨g, hg, _, hd⟩
    have written := mem_of_mem_resolve hd
    simp only [gs, List.mem_cons, List.not_mem_nil, or_false] at hg
    rcases hg with rfl | rfl <;> simpa using written
  have undisputed : ∀ v w, Binds gs "a" "color" v → Binds gs "a" "color" w → v = w :=
    fun v w hv hw => (red v hv).trans (red w hw).symm
  exact ⟨undisputed, (cascade_merge true gs "a" "color").1 undisputed⟩

/-- Regrouping by selector and merging afterwards keeps the cascade of every selector, and leaves no
property of a selector with two values, so that the groupings may be put in any order. -/
theorem cascade_merge_bySelector (shared strict : Bool) (gs : List (Grouping String)) :
    let out := (merge ⟨shared, true, strict⟩ gs).value
    (∀ s p, lookup (cascade out s) p = lookup (cascade gs s) p) ∧
    (∀ s p v w, Binds out s p v → Binds out s p w → v = w) ∧
    ∀ out', out'.Perm out → ∀ s p, lookup (cascade out' s) p = lookup (cascade out s) p := by
  intro out
  have settled : ∀ s p v, Binds out s p v ↔ ⟨p, v⟩ ∈ cascade gs s :=
    fun s p v => binds_merge_bySelector rfl gs
  have single : ∀ s p v w, Binds out s p v → Binds out s p w → v = w := by
    intro s p v w hv hw
    exact value_unique ((settled s p v).1 hv) ((settled s p w).1 hw)
  refine ⟨fun s p => ?_, single, fun out' perm s p => ?_⟩
  · apply Option.ext
    intro v
    rw [lookup_cascade_iff (single s p), settled]
    exact lookup_resolve_iff.symm
  · have same : ∀ v, Binds out' s p v ↔ Binds out s p v :=
      fun v => binds_congr fun g => perm.mem_iff
    have single' : ∀ v w, Binds out' s p v → Binds out' s p w → v = w := by
      intro v w hv hw
      exact single s p v w ((same v).1 hv) ((same w).1 hw)
    apply Option.ext
    intro v
    rw [lookup_cascade_iff single', lookup_cascade_iff (single s p), same]

end StyleFactor
