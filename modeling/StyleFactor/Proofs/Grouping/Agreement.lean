import StyleFactor.Merge.Equal
import StyleFactor.Merge.Cluster
import StyleFactor.Proofs.Grouping.Resolution

/-!
Comparisons as statements about declarations. A declaration is on one side only if the other side
does not resolve to it, whatever value the property has there.
-/
namespace StyleFactor

theorem Comparison.gives_eq_true {log : List (Declaration String)} {d : Declaration String} :
    gives (fun _ => false) (resolve log) d = true ↔ d ∈ resolve log := by
  have found : lookup (resolve log) d.property = some d.value ↔ d ∈ resolve log :=
    lookup_resolve_iff
  rw [← found, gives]
  cases lookup (resolve log) d.property with
  | none => simp
  | some v => simp

namespace Grouping

variable {a b : Grouping String} {d : Declaration String}

theorem mem_firstOnly :
    d ∈ (a.compare b).firstOnly ↔ d ∈ a.declarations ∧ d ∉ b.declarations := by
  have given : Comparison.gives (fun _ => false) b.declarations d = true ↔ d ∈ b.declarations :=
    Comparison.gives_eq_true
  simp [compare, Comparison.ofResolved, ← given]

theorem mem_secondOnly :
    d ∈ (a.compare b).secondOnly ↔ d ∈ b.declarations ∧ d ∉ a.declarations := by
  have given : Comparison.gives (fun _ => false) a.declarations d = true ↔ d ∈ a.declarations :=
    Comparison.gives_eq_true
  simp [compare, Comparison.ofResolved, ← given]

theorem secondOnly_eq (a b : Grouping String) :
    (a.compare b).secondOnly = b.declarations.filter (· ∉ a.declarations) := by
  apply List.filter_congr
  intro d _
  have given : Comparison.gives (fun _ => false) a.declarations d = true ↔ d ∈ a.declarations :=
    Comparison.gives_eq_true
  by_cases old : d ∈ a.declarations
  · simp [old, given.2 old]
  · simp [old, Bool.eq_false_iff.2 (mt given.1 old)]

theorem mem_both :
    d ∈ (a.compare b).both ↔ d ∈ a.declarations ∧ d ∈ b.declarations := by
  have given : Comparison.gives (fun _ => false) b.declarations d = true ↔ d ∈ b.declarations :=
    Comparison.gives_eq_true
  simp [compare, Comparison.ofResolved, ← given]

theorem agrees_iff :
    a.agrees b = true ↔
      (∀ d, d ∈ a.declarations ↔ d ∈ b.declarations) ∧ ∃ d, d ∈ a.declarations := by
  simp only [agrees, Bool.and_eq_true, Bool.not_eq_true', List.isEmpty_iff,
    List.isEmpty_eq_false_iff_exists_mem, List.eq_nil_iff_forall_not_mem, mem_firstOnly,
    mem_secondOnly, mem_both]
  constructor
  · rintro ⟨⟨first, second⟩, d, hd, _⟩
    refine ⟨fun e => ⟨fun h => ?_, fun h => ?_⟩, d, hd⟩
    · exact Decidable.not_not.1 fun hb => first e ⟨h, hb⟩
    · exact Decidable.not_not.1 fun ha => second e ⟨h, ha⟩
  · rintro ⟨same, d, hd⟩
    refine ⟨⟨fun e h => ?_, fun e h => ?_⟩, d, hd, (same d).1 hd⟩
    · exact h.2 ((same e).1 h.1)
    · exact h.2 ((same e).2 h.1)

theorem isPartOf_iff {g target : Grouping String} :
    g.isPartOf target = true ↔
      (∃ d, d ∈ g.declarations) ∧ ∀ d ∈ g.declarations, d ∈ target.declarations := by
  simp only [isPartOf, Bool.and_eq_true, Bool.not_eq_true', List.isEmpty_iff,
    List.isEmpty_eq_false_iff_exists_mem, List.eq_nil_iff_forall_not_mem, mem_secondOnly]
  refine and_congr_right fun _ => forall_congr' fun d => ?_
  constructor
  · intro h hd
    exact Decidable.not_not.1 fun new => h ⟨hd, new⟩
  · rintro h ⟨hd, new⟩
    exact new (h hd)

end Grouping

end StyleFactor
