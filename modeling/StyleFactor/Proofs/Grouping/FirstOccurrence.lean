import StyleFactor.Proofs.Grouping.Resolution

/-!
Selectors and properties stand in the order in which they occur first. Main statements: inserting
selectors adds those that are new, each once (`selectors_insertSelectors`), and a log resolves to
the last value of each property (`resolve_eq_lastWrites`).
-/
namespace StyleFactor

variable {α : Type} [BEq α] [LawfulBEq α]

theorem removeAll_nil (as : List α) : as.removeAll [] = as := by
  simp [List.removeAll]

theorem foldl_concat_new (l as : List α) :
    as.foldl (fun l a => if l.contains a then l else l ++ [a]) l =
      l ++ (as.removeAll l).eraseDups := by
  induction as generalizing l with
  | nil => simp [List.removeAll]
  | cons a as ih =>
    rw [List.foldl_cons, ih]
    by_cases old : a ∈ l
    · simp [List.removeAll, old]
    · -- what comes after `a` is new if it is new to `l` and not `a`
      have rest : as.removeAll (l ++ [a]) = (as.removeAll l).filter fun b => !b == a := by
        simp only [List.removeAll, List.filter_filter]
        apply List.filter_congr
        intro b _
        by_cases same : b = a <;> simp [same]
      have first : (a :: as).removeAll l = a :: as.removeAll l := by simp [List.removeAll, old]
      rw [first, List.eraseDups_cons, ← rest]
      simp [old]

theorem eraseDups_of_nodup {as : List α} (distinct : as.Nodup) : as.eraseDups = as := by
  induction as with
  | nil => rfl
  | cons a as ih =>
    obtain ⟨new, rest⟩ := List.nodup_cons.1 distinct
    have others : (as.filter fun b => !b == a) = as := by
      apply List.filter_eq_self.2
      intro b hb
      have differs : b ≠ a := fun same => new (same ▸ hb)
      simp [differs]
    rw [List.eraseDups_cons, others, ih rest]

namespace Grouping

theorem selectors_insertSelectors (g : Grouping α) (ss : List α) :
    (g.insertSelectors ss).selectors = g.selectors ++ (ss.removeAll g.selectors).eraseDups := by
  rw [← foldl_concat_new, insertSelectors]
  apply (List.foldl_hom Grouping.selectors _).symm
  intro g s
  unfold insertSelector
  split <;> rfl

theorem selectors_ofLists (ds : List (Declaration α)) (ss : List α) :
    (ofLists ds ss).selectors = ss.eraseDups := by
  rw [ofLists, selectors_insertSelectors, removeAll_nil, List.nil_append]

end Grouping

/-- The last declaration of each property, in the order in which the properties occur first. -/
def lastWrites (log : List (Declaration α)) : List (Declaration α) :=
  (log.map (·.property)).eraseDups.filterMap fun p => log.reverse.find? (·.property == p)

theorem properties_resolve (log : List (Declaration α)) :
    (resolve log).map (·.property) = (log.map (·.property)).eraseDups := by
  have folded : ∀ m : List (Declaration α),
      (log.foldl (fun m d => upsert d m) m).map (·.property) =
        (log.map (·.property)).foldl (fun l p => if l.contains p then l else l ++ [p])
          (m.map (·.property)) := by
    induction log with
    | nil => exact fun _ => rfl
    | cons d log ih =>
      intro m
      rw [List.foldl_cons, ih, properties_upsert, List.map_cons, List.foldl_cons]
  rw [resolve, folded, foldl_concat_new, List.map_nil, removeAll_nil, List.nil_append]

theorem lookup_resolve_eq (log : List (Declaration α)) (p : α) :
    lookup (resolve log) p = (log.reverse.find? (·.property == p)).map (·.value) := by
  induction log with
  | nil => rfl
  | cons d log ih =>
    rw [lookup_resolve_cons, ih, List.reverse_cons, List.find?_append, Option.map_or,
      List.find?_singleton]
    cases d.property == p <;> rfl

/-- What a log resolves to are the last declarations of their properties. -/
theorem find_reverse_of_mem_resolve {log : List (Declaration α)} {d : Declaration α}
    (h : d ∈ resolve log) : log.reverse.find? (·.property == d.property) = some d := by
  have value : lookup (resolve log) d.property = some d.value := lookup_resolve_iff.2 h
  rw [lookup_resolve_eq] at value
  obtain ⟨e, found, sameValue⟩ := Option.map_eq_some_iff.1 value
  have sameProperty : e.property = d.property := by simpa using List.find?_some found
  have same : e = d := by
    cases e
    cases d
    cases sameValue
    cases sameProperty
    rfl
  rw [found, same]

theorem resolve_eq_lastWrites (log : List (Declaration α)) : resolve log = lastWrites log := by
  have found : ∀ ds : List (Declaration α), (∀ d ∈ ds, d ∈ resolve log) →
      (ds.map (·.property)).filterMap (fun p => log.reverse.find? (·.property == p)) = ds := by
    intro ds within
    induction ds with
    | nil => rfl
    | cons d ds ih =>
      obtain ⟨first, rest⟩ := List.forall_mem_cons.1 within
      rw [List.map_cons, List.filterMap_cons, find_reverse_of_mem_resolve first]
      exact congrArg (d :: ·) (ih rest)
  rw [lastWrites, ← properties_resolve]
  exact (found (resolve log) fun _ hd => hd).symm

end StyleFactor
