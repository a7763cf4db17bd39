import StyleFactor.Merge.Cluster
import StyleFactor.Proofs.Grouping.Agreement

/-!
What a cluster owes to its members. Growing clusters gathers each from a candidate and some that
come after it (`exists_gather_of_mem_grow`). Main statements: the clusters that are grown for a
target have only candidates as members, and no declaration that is not a member's
(`covered_of_mem_clusters`), and they have all declarations of their members
(`mem_total_of_mem_clusters`).
-/
namespace StyleFactor

namespace Cluster

variable {cs : List (Grouping String × Nat)} {c : Cluster}

/-- The cluster of a candidate that others join, one after the other. -/
def gather (g : Grouping String × Nat) (gs : List (Grouping String × Nat)) : Cluster :=
  gs.foldl add (seed g)

theorem members_gather (g : Grouping String × Nat) (gs : List (Grouping String × Nat)) :
    (gather g gs).members = (g :: gs).map (·.2) := by
  have more : ∀ c : Cluster, (gs.foldl add c).members = c.members ++ gs.map (·.2) := by
    induction gs with
    | nil => simp
    | cons g gs ih => simp [ih, add]
  exact more (seed g)

theorem log_gather (g : Grouping String × Nat) (gs : List (Grouping String × Nat)) :
    (gather g gs).total.log = (g :: gs).flatMap (·.1.declarations) := by
  have more : ∀ c : Cluster,
      (gs.foldl add c).total.log = c.total.log ++ gs.flatMap (·.1.declarations) := by
    induction gs with
    | nil => simp
    | cons g gs ih => simp [ih, add, Grouping.declare, Grouping.log_insertSelectors]
  have first : (seed g).total.log = g.1.declarations := Grouping.log_insertSelectors _ _
  rw [gather, more, first, List.flatMap_cons]

/-- The offers that a cluster accepts, each with what it is worth to the cluster at that time. -/
def accepted (cost : Nat) (c : Cluster) :
    List (Grouping String × Nat) → List ((Grouping String × Nat) × Int)
  | [] => []
  | g :: gs =>
    if 0 < c.gain cost g.1 then (g, c.gain cost g.1) :: accepted cost (c.add g) gs
    else accepted cost c gs

theorem foldl_offer_eq (cost : Nat) (c : Cluster) (cs : List (Grouping String × Nat)) :
    cs.foldl (offer cost) c = ((accepted cost c cs).map (·.1)).foldl add c := by
  induction cs generalizing c with
  | nil => rfl
  | cons g cs ih =>
    rw [List.foldl_cons, ih, offer, accepted]
    split <;> rfl

theorem sublist_accepted (cost : Nat) (c : Cluster) (cs : List (Grouping String × Nat)) :
    ((accepted cost c cs).map (·.1)).Sublist cs := by
  induction cs generalizing c with
  | nil => exact .slnil
  | cons g cs ih =>
    rw [accepted]
    split
    · exact (ih _).cons_cons g
    · exact (ih _).cons g

theorem exists_gather_of_mem_grow {cost : Nat} (h : c ∈ grow cost cs) :
    ∃ g gs, (g :: gs).Sublist cs ∧ c = gather g gs := by
  induction cs with
  | nil => cases h
  | cons g gs ih =>
    rcases List.mem_cons.1 h with rfl | h
    · exact ⟨g, _, (sublist_accepted cost (seed g) gs).cons_cons g, foldl_offer_eq cost (seed g) gs⟩
    · obtain ⟨first, ms, later, same⟩ := ih h
      exact ⟨first, ms, later.cons g, same⟩

/-- Every member is a candidate, and every declaration in the total is declared by a member. -/
structure Covered (cs : List (Grouping String × Nat)) (c : Cluster) : Prop where
  members : ∀ i ∈ c.members, ∃ g, (g, i) ∈ cs
  declarations : ∀ d ∈ c.total.declarations,
    ∃ g i, (g, i) ∈ cs ∧ i ∈ c.members ∧ d ∈ g.declarations

theorem covered_of_mem_grow {cost : Nat} (h : c ∈ grow cost cs) : c.Covered cs := by
  obtain ⟨g, gs, part, rfl⟩ := exists_gather_of_mem_grow h
  constructor
  · intro i hi
    rw [members_gather] at hi
    obtain ⟨m, hm, rfl⟩ := List.mem_map.1 hi
    exact ⟨m.1, part.subset hm⟩
  · intro d hd
    have written := mem_of_mem_resolve hd
    rw [log_gather] at written
    obtain ⟨m, hm, declares⟩ := List.mem_flatMap.1 written
    refine ⟨m.1, m.2, part.subset hm, ?_, declares⟩
    rw [members_gather]
    exact List.mem_map_of_mem hm

theorem members_ne_nil_of_mem_grow {cost : Nat} (h : c ∈ grow cost cs) : c.members ≠ [] := by
  obtain ⟨g, gs, _, rfl⟩ := exists_gather_of_mem_grow h
  rw [members_gather]
  exact List.cons_ne_nil _ _

theorem grow_eq_nil {cost : Nat} : grow cost cs = [] ↔ cs = [] := by
  cases cs <;> simp [grow]

theorem best_eq_none {cost : Nat} {clusters : List Cluster} :
    best cost clusters = none ↔ clusters = [] := by
  cases clusters <;> simp [best]

theorem mem_of_best {cost : Nat} {clusters : List Cluster} (h : best cost clusters = some c) :
    c ∈ clusters := by
  have kept : ∀ (b : Cluster) (cs : List Cluster),
      cs.foldl (fun b c => if b.score cost < c.score cost then c else b) b ∈ b :: cs := by
    intro b cs
    induction cs generalizing b with
    | nil => exact List.mem_singleton_self b
    | cons x cs ih =>
      rw [List.foldl_cons]
      rcases List.mem_cons.1 (ih (if b.score cost < x.score cost then x else b)) with h | h
      · rw [h]
        split <;> simp
      · exact List.mem_cons_of_mem _ (List.mem_cons_of_mem _ h)
  cases clusters with
  | nil => cases h
  | cons b cs =>
    cases Option.some.inj h
    exact kept b cs

end Cluster

namespace Grouping

variable {target : Grouping String} {gs : List (Grouping String)}

theorem mem_candidates {g : Grouping String} {i : Nat} :
    (g, i) ∈ target.candidates gs ↔ gs[i]? = some g ∧ g.isPartOf target = true := by
  rw [candidates, List.mem_filter, List.mem_zipIdx_iff_getElem?]

theorem covered_of_mem_clusters {c : Cluster} (h : c ∈ target.clusters gs) :
    c.Covered (target.candidates gs) :=
  Cluster.covered_of_mem_grow h

theorem subset_of_mem_candidates :
    ∀ g ∈ target.candidates gs, g.1.declarations ⊆ target.declarations := by
  intro g candidate
  exact (isPartOf_iff.1 (mem_candidates.1 candidate).2).2

theorem log_subset_of_mem_clusters {c : Cluster} (h : c ∈ target.clusters gs) :
    c.total.log ⊆ target.declarations := by
  obtain ⟨first, ms, part, rfl⟩ := Cluster.exists_gather_of_mem_grow h
  intro d hd
  rw [Cluster.log_gather] at hd
  obtain ⟨m, hm, declares⟩ := List.mem_flatMap.1 hd
  exact subset_of_mem_candidates m (part.subset hm) declares

/-- No two candidates differ on a property, since the target has one value for it. -/
theorem mem_total_of_mem_clusters {c : Cluster} (h : c ∈ target.clusters gs)
    {g : Grouping String} {i : Nat} (found : gs[i]? = some g) (member : i ∈ c.members)
    {d : Declaration String} (hd : d ∈ g.declarations) : d ∈ c.total.declarations := by
  have within := log_subset_of_mem_clusters h
  obtain ⟨first, ms, part, rfl⟩ := Cluster.exists_gather_of_mem_grow h
  rw [Cluster.members_gather] at member
  obtain ⟨m, hm, rfl⟩ := List.mem_map.1 member
  have same : m.1 = g := Option.some.inj ((mem_candidates.1 (part.subset hm)).1.symm.trans found)
  apply (mem_resolve_of_subset within).2
  rw [Cluster.log_gather]
  exact List.mem_flatMap.2 ⟨m, hm, same ▸ hd⟩

end Grouping

end StyleFactor
