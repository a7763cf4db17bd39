import StyleFactor.Refactoring
import StyleFactor.Proofs.Merge.Conservation

/-!
What merging does to single groupings: it adds selectors to them and takes declarations away from
them, and nothing else. Main statements: a property that these two keep is kept by a merging pass
(`mergeEqual_forall`, `factorShared_forall`), so that merged groupings have selectors, each of them
once, and declarations if the given ones do (`writable_merge`).
-/
namespace StyleFactor

variable {P : Piece → Prop} {ps : List Piece}

theorem mem_absorb {c host : Piece} {qs : List Piece} (h : absorb c ps = some (host, qs)) :
    ∀ q ∈ qs, q ∈ ps ∨ ∃ p ∈ ps, q = p.insertSelectors c.selectors := by
  induction ps generalizing qs with
  | nil => cases h
  | cons first rest ih =>
    unfold absorb at h
    split at h
    · next found =>
      cases h
      refine List.forall_mem_cons.2 ⟨Or.inl List.mem_cons_self, fun q hq => ?_⟩
      rcases ih found q hq with old | ⟨p, hp, same⟩
      · exact Or.inl (List.mem_cons_of_mem _ old)
      · exact Or.inr ⟨p, List.mem_cons_of_mem _ hp, same⟩
    · split at h
      · cases h
        refine List.forall_mem_cons.2 ⟨Or.inr ⟨_, List.mem_cons_self, rfl⟩, fun q hq => ?_⟩
        exact Or.inl (List.mem_cons_of_mem _ hq)
      · cases h

section

variable (insert : ∀ p ss, P p → P (p.insertSelectors ss))
include insert

theorem mergeEqualFrom_forall (ps : List Piece) (h : ∀ p ∈ ps, P p) :
    ∀ p ∈ (mergeEqualFrom ps).value.1, P p := by
  match ps with
  | [] =>
    rw [value_mergeEqualFrom_nil]
    exact h
  | c :: rest =>
    obtain ⟨first, others⟩ := List.forall_mem_cons.1 h
    rw [value_mergeEqualFrom_cons]
    cases taken : absorb c rest with
    | none => exact List.forall_mem_cons.2 ⟨first, mergeEqualFrom_forall rest others⟩
    | some result =>
      obtain ⟨host, qs⟩ := result
      have shorter := length_of_absorb taken
      refine mergeEqualFrom_forall qs fun q hq => ?_
      rcases mem_absorb taken q hq with old | ⟨p, hp, rfl⟩
      · exact others q old
      · exact insert p _ (others p hp)
termination_by ps.length

theorem mergeEqual_forall (h : ∀ p ∈ ps, P p) : ∀ p ∈ (mergeEqual ps).value.result, P p :=
  mergeEqualFrom_forall insert ps.reverse fun p hp => h p (List.mem_reverse.1 hp)

theorem handOver_forall (ss : List String) (places : List Nat) (h : ∀ p ∈ ps, P p) :
    ∀ p ∈ Piece.handOver ss places ps, P p := by
  intro q hq
  obtain ⟨i, hi, rfl⟩ := List.mem_mapIdx.1 hq
  have old := h _ (List.getElem_mem hi)
  split
  · exact insert _ ss old
  · exact old

variable (without : ∀ p c, P p → P (p.without c))
include without

theorem factorFrom_forall (ps : List Piece) (h : ∀ p ∈ ps, P p) :
    ∀ p ∈ (factorFrom ps).value, P p := by
  match ps with
  | [] =>
    rw [factorFrom]
    exact h
  | t :: rest =>
    obtain ⟨first, others⟩ := List.forall_mem_cons.1 h
    rw [value_factorFrom_cons]
    cases t.chosen rest with
    | none => exact List.forall_mem_cons.2 ⟨first, factorFrom_forall rest others⟩
    | some c =>
      have given := handOver_forall insert t.selectors c.members others
      exact List.forall_mem_cons.2 ⟨without t c first, factorFrom_forall _ given⟩
termination_by ps.length
decreasing_by all_goals simp [Piece.length_handOver]

theorem factorShared_forall (h : ∀ p ∈ ps, P p) :
    ∀ p ∈ (factorShared ps).value.result, P p ∧ p.declarations ≠ [] := by
  intro p hp
  obtain ⟨made, some⟩ := List.mem_filter.1 hp
  have sorted : ∀ q ∈ Piece.largestFirst ps, P q := fun q hq => h q (List.mem_mergeSort.1 hq)
  refine ⟨factorFrom_forall insert without _ sorted p made, fun empty => ?_⟩
  rw [empty] at some
  cases some

end

namespace Grouping

/-- It has selectors, and each of them once. -/
structure Named (g : Grouping String) : Prop where
  nonempty : g.selectors ≠ []
  nodup : g.selectors.Nodup

/-- It can be written as a rule that resolves to something. -/
structure Writable (g : Grouping String) : Prop extends Named g where
  declares : g.declarations ≠ []

theorem Named.insertSelectors {g : Grouping String} (h : g.Named) (ss : List String) :
    (g.insertSelectors ss).Named := by
  obtain ⟨s, hs⟩ := List.exists_mem_of_ne_nil _ h.nonempty
  exact ⟨List.ne_nil_of_mem (mem_insertSelectors.2 (Or.inl hs)), nodup_insertSelectors h.nodup ss⟩

theorem Writable.insertSelectors {g : Grouping String} (h : g.Writable) (ss : List String) :
    (g.insertSelectors ss).Writable :=
  ⟨h.toNamed.insertSelectors ss, by rw [declarations_insertSelectors]; exact h.declares⟩

end Grouping

theorem writable_run {k : PassKind} (merges : k ≠ .bySelector)
    (h : ∀ p ∈ ps, p.grouping.Writable) : ∀ p ∈ (k.run ps).value.result, p.grouping.Writable := by
  cases k with
  | bySelector => exact absurd rfl merges
  | equal => exact mergeEqual_forall (fun _ ss hp => hp.insertSelectors ss) h
  | shared =>
    -- a target may lose all its declarations, so only the names last through the pass
    have named : ∀ p ∈ (factorShared ps).value.result,
        p.grouping.Named ∧ p.declarations ≠ [] :=
      factorShared_forall (P := fun p => p.grouping.Named) (fun _ ss hp => hp.insertSelectors ss)
        (fun _ _ hp => ⟨hp.nonempty, hp.nodup⟩) fun p hp => (h p hp).toNamed
    exact fun p hp => ⟨(named p hp).1, (named p hp).2⟩

theorem writable_runPasses {ks : List PassKind} (merge : .bySelector ∉ ks)
    (h : ∀ p ∈ ps, p.grouping.Writable) :
    ∀ p ∈ (runPasses ks ps).value, p.grouping.Writable := by
  induction ks generalizing ps with
  | nil => exact h
  | cons k ks ih =>
    obtain ⟨first, rest⟩ := not_or.1 (mt List.mem_cons.2 merge)
    exact ih rest (writable_run (Ne.symm first) h)

theorem writable_merge {o : Options} (plain : o.bySelector = false) {gs : List (Grouping String)}
    (h : ∀ g ∈ gs, g.Writable) : ∀ g ∈ (Refactoring.merge o gs).value, g.Writable := by
  intro g hg
  obtain ⟨p, hp, rfl⟩ := List.mem_map.1 hg
  refine writable_runPasses (Options.bySelector_notMem_passes plain) (fun q hq => ?_) p hp
  have given : q.grouping ∈ Piece.groupings (Piece.ofGroupings gs) := List.mem_map_of_mem hq
  rw [Piece.groupings_ofGroupings] at given
  exact h q.grouping given

end StyleFactor
