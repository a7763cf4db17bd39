import Mathlib
import StyleFactor.Proofs.Grouping.FirstOccurrence
import StyleFactor.Proofs.Merge.Conservation
import StyleFactor.Proofs.Merge.Gains
import StyleFactor.Proofs.Merge.Turns

/-!
What clusters score. The score is worked out from all that a cluster declares, and a gain only from
what a candidate adds; they come to the same, since no two candidates differ on a property
(`score_add`). Main statement: an account of every cluster that is grown for a target, and of the
one that is taken out of it (`clusters_account`).
-/
namespace StyleFactor

open Piece (groupings)

namespace Cluster

section

variable {target : Grouping String} {g : Grouping String × Nat} {c : Cluster} {cost : Nat}
  {cs : List (Grouping String × Nat)}

theorem pos_of_mem_accepted : ∀ m ∈ accepted cost c cs, 0 < m.2 := by
  induction cs generalizing c with
  | nil => exact fun _ hm => nomatch hm
  | cons g cs ih =>
    rw [accepted]
    split
    · next worth => exact List.forall_mem_cons.2 ⟨worth, ih⟩
    · exact ih

theorem score_seed (cost : Nat) (g : Grouping String × Nat) :
    (seed g).score cost = (g.1.declarationSize : Int) - cost := by
  have declares : (seed g).total.declarations = g.1.declarations := by simp [seed]
  rw [score, Grouping.declarationSize, declares]
  simp [seed, Grouping.declarationSize]

theorem score_add (within : c.Within target) (part : g.1.declarations ⊆ target.declarations) :
    (c.add g).score cost = c.score cost + c.gain cost g.1 := by
  have size : (c.add g).total.declarationSize =
      c.total.declarationSize + declarationsSize (c.total.compare g.1).secondOnly := by
    rw [Grouping.declarationSize, declarations_add within part, declarationsSize_append]
    rfl
  have count : (c.add g).members.length = c.members.length + 1 := by simp [add]
  rw [score, score, gain, size, count]
  push_cast
  ring

/-- Each offer that a cluster accepts adds to its score what it is worth. -/
theorem score_foldl_offer (within : c.Within target)
    (parts : ∀ g ∈ cs, g.1.declarations ⊆ target.declarations) :
    (cs.foldl (offer cost) c).score cost =
      c.score cost + ((accepted cost c cs).map (·.2)).sum := by
  induction cs generalizing c with
  | nil => simp [accepted]
  | cons g cs ih =>
    obtain ⟨first, rest⟩ := List.forall_mem_cons.1 parts
    rw [List.foldl_cons, offer, accepted]
    split
    · rw [ih (within.add first) rest, score_add within first, List.map_cons, List.sum_cons,
        Int.add_assoc]
    · exact ih within rest

theorem selectors_gather (g : Grouping String × Nat) (gs : List (Grouping String × Nat)) :
    (gather g gs).total.selectors = ((g :: gs).flatMap (·.1.selectors)).eraseDups := by
  have more : ∀ c : Cluster, (gs.foldl add c).total.selectors =
      (c.total.insertSelectors (gs.flatMap (·.1.selectors))).selectors := by
    induction gs with
    | nil => exact fun _ => rfl
    | cons g gs ih =>
      intro c
      have together : (c.total.insertSelectors ((g :: gs).flatMap (·.1.selectors))) =
          (c.total.insertSelectors g.1.selectors).insertSelectors (gs.flatMap (·.1.selectors)) :=
        List.foldl_append
      rw [List.foldl_cons, ih, together, Grouping.selectors_insertSelectors,
        Grouping.selectors_insertSelectors]
      rfl
  have whole : (seed g).total.insertSelectors (gs.flatMap (·.1.selectors)) =
      .ofLists g.1.declarations ((g :: gs).flatMap (·.1.selectors)) :=
    List.foldl_append.symm
  rw [gather, more, whole, Grouping.selectors_ofLists]

end

theorem best_eq_argmax (cost : Nat) (cs : List Cluster) : best cost cs = cs.argmax (score cost) := by
  cases cs with
  | nil => rfl
  | cons c cs =>
    have scanned : ∀ b : Cluster,
        some (cs.foldl (fun b c => if b.score cost < c.score cost then c else b) b) =
          cs.foldl (List.argAux fun b c => score cost c < score cost b) (some b) := by
      induction cs with
      | nil => exact fun _ => rfl
      | cons c cs ih =>
        intro b
        rw [List.foldl_cons, List.foldl_cons, ih]
        by_cases higher : b.score cost < c.score cost <;> simp [List.argAux, higher]
    exact scanned c

/-- All there is to the cluster that a candidate started and that others joined, each for what it
was worth to the cluster then. -/
structure Account (target : Grouping String) (g : Grouping String × Nat)
    (joined : List ((Grouping String × Nat) × Int)) (c : Cluster) : Prop where
  members : c.members = (g :: joined.map (·.1)).map (·.2)
  declarations : ∀ d, d ∈ c.total.declarations ↔ ∃ m ∈ g :: joined.map (·.1), d ∈ m.1.declarations
  part : c.total.declarations ⊆ target.declarations
  selectors : c.total.selectors = ((g :: joined.map (·.1)).flatMap (·.1.selectors)).eraseDups
  score : c.score target.selectorSize =
    ((g.1.declarationSize : Int) - target.selectorSize) + (joined.map (·.2)).sum
  worth : ∀ m ∈ joined, 0 < m.2

theorem account_foldl_offer {target : Grouping String} {g : Grouping String × Nat}
    {cs : List (Grouping String × Nat)}
    (parts : ∀ m ∈ g :: cs, m.1.declarations ⊆ target.declarations) :
    Account target g (accepted target.selectorSize (seed g) cs)
      (cs.foldl (offer target.selectorSize) (seed g)) := by
  obtain ⟨first, rest⟩ := List.forall_mem_cons.1 parts
  let joined := (accepted target.selectorSize (seed g) cs).map (·.1)
  have gathered : cs.foldl (offer target.selectorSize) (seed g) = gather g joined :=
    foldl_offer_eq _ _ _
  have within : (cs.foldl (offer target.selectorSize) (seed g)).Within target :=
    (within_seed first).foldl_offer rest
  have score : (cs.foldl (offer target.selectorSize) (seed g)).score target.selectorSize = _ :=
    score_foldl_offer (within_seed first) rest
  rw [score_seed] at score
  rw [gathered] at within score ⊢
  refine ⟨members_gather g joined, fun d => ?_, fun d hd => ?_, selectors_gather g joined, score,
    pos_of_mem_accepted⟩
  · -- nothing that a member declares is written over
    have kept : d ∈ (gather g joined).total.declarations ↔ d ∈ (gather g joined).total.log :=
      mem_resolve_of_subset within
    rw [kept, log_gather, List.mem_flatMap]
  · exact within (mem_of_mem_resolve hd)

theorem getElem?_clusters {target : Grouping String} {gs : List (Grouping String)} {i : Nat}
    {g : Grouping String × Nat} (candidate : (target.candidates gs)[i]? = some g) :
    (target.clusters gs)[i]? = some
      (((target.candidates gs).drop (i + 1)).foldl (offer target.selectorSize) (seed g)) := by
  rw [Grouping.clusters, getElem?_grow, met, candidate, List.take_length]
  rfl

theorem length_grow (cost : Nat) (cs : List (Grouping String × Nat)) :
    (grow cost cs).length = cs.length := by
  induction cs with
  | nil => rfl
  | cons g cs ih => rw [grow, List.length_cons, ih, List.length_cons]

end Cluster

/-- Every candidate starts a cluster, and those that join it come behind it. The cluster declares what
its members declare, all of which the target declares, and has their selectors, each of them once. It
scores what the target saves by the first candidate and what each of the others was worth when it
joined, which was something. The cluster that is taken out of the target is the first one of those
with the highest score, so that no candidate alone would save more. -/
theorem clusters_account (target : Grouping String) (gs : List (Grouping String)) :
    let cost := target.selectorSize
    let offers := target.candidates gs
    let clusters := target.clusters gs
    clusters.length = offers.length ∧
      (∀ (i : Nat) g, offers[i]? = some g → ∃ c, clusters[i]? = some c ∧
        let joined := Cluster.accepted cost (.seed g) (offers.drop (i + 1))
        (g :: joined.map (·.1)).Sublist (offers.drop i) ∧ c.Account target g joined) ∧
      ∀ t : Turn, t.target.grouping = target → groupings t.rest = gs →
        t.cluster = clusters.argmax (Cluster.score cost) ∧
          ∀ c, t.cluster = some c →
            ∀ g ∈ offers, (g.1.declarationSize : Int) - cost ≤ c.score cost := by
  intro cost offers clusters
  have parts : ∀ g ∈ offers, g.1.declarations ⊆ target.declarations :=
    Grouping.subset_of_mem_candidates
  have accounts : ∀ (i : Nat) g, offers[i]? = some g → ∃ c, clusters[i]? = some c ∧
      let joined := Cluster.accepted cost (.seed g) (offers.drop (i + 1))
      (g :: joined.map (·.1)).Sublist (offers.drop i) ∧ c.Account target g joined := by
    intro i g candidate
    obtain ⟨short, rfl⟩ := List.getElem?_eq_some_iff.1 candidate
    refine ⟨_, Cluster.getElem?_clusters candidate, ?_, ?_⟩
    · rw [List.drop_eq_getElem_cons short]
      exact (Cluster.sublist_accepted _ _ _).cons_cons _
    · apply Cluster.account_foldl_offer
      rw [← List.drop_eq_getElem_cons short]
      exact fun m offered => parts m (List.mem_of_mem_drop offered)
  refine ⟨Cluster.length_grow _ _, accounts, ?_⟩
  rintro t rfl rfl
  have best : t.cluster = clusters.argmax (Cluster.score cost) := Cluster.best_eq_argmax _ _
  refine ⟨best, fun c taken g offered => ?_⟩
  obtain ⟨i, candidate⟩ := List.mem_iff_getElem?.1 offered
  obtain ⟨started, found, -, account⟩ := accounts i g candidate
  have highest : started.score cost ≤ c.score cost :=
    List.le_of_mem_argmax (List.mem_of_getElem? found) (best.symm.trans taken)
  have gained : 0 ≤ ((Cluster.accepted cost (.seed g) (offers.drop (i + 1))).map (·.2)).sum := by
    apply List.sum_nonneg
    intro n hn
    obtain ⟨m, joined, rfl⟩ := List.mem_map.1 hn
    exact (account.worth m joined).le
  rw [account.score] at highest
  omega

end StyleFactor
