import StyleFactor.Merge.Sequence
import StyleFactor.Proofs.Merge.Coverage

/-!
Merging moves style between groupings and neither loses nor invents any. What is kept is which
selector resolves which property to which value in any grouping at all; the order of the groupings
does not count here. Main statements: one pass keeps it, by an argument for each step of the pass,
and so does any sequence of passes that merge (`binds_runPasses`). Regrouping by selector is left
out: it lets later values win.
-/
namespace StyleFactor

/-- A grouping of the list has the selector and resolves the property to the value. -/
def Binds (gs : List (Grouping String)) (s p v : String) : Prop :=
  ∃ g ∈ gs, s ∈ g.selectors ∧ ⟨p, v⟩ ∈ g.declarations

variable {s p v : String}

theorem binds_cons {g : Grouping String} {gs : List (Grouping String)} :
    Binds (g :: gs) s p v ↔ (s ∈ g.selectors ∧ ⟨p, v⟩ ∈ g.declarations) ∨ Binds gs s p v := by
  simp [Binds]

theorem binds_congr {gs hs : List (Grouping String)} (same : ∀ g, g ∈ gs ↔ g ∈ hs) :
    Binds gs s p v ↔ Binds hs s p v := by
  simp only [Binds, same]

theorem binds_filter_nonempty (gs : List (Grouping String)) :
    Binds (gs.filter (!·.declarations.isEmpty)) s p v ↔ Binds gs s p v := by
  constructor
  · rintro ⟨g, hg, bound⟩
    exact ⟨g, (List.mem_filter.1 hg).1, bound⟩
  · rintro ⟨g, hg, hs, hd⟩
    refine ⟨g, List.mem_filter.2 ⟨hg, ?_⟩, hs, hd⟩
    rw [Bool.not_eq_true', List.isEmpty_eq_false_iff_exists_mem]
    exact ⟨_, hd⟩

/-- What can be told of groupings: their selectors and what they resolve to. -/
def outlines (gs : List (Grouping String)) : List (List String × List (Declaration String)) :=
  gs.map fun g => (g.selectors, g.declarations)

namespace Piece

def groupings (ps : List Piece) : List (Grouping String) := ps.map (·.grouping)

theorem groupings_cons (q : Piece) (ps : List Piece) :
    groupings (q :: ps) = q.grouping :: groupings ps := rfl

theorem binds_groupings {ps : List Piece} :
    Binds (groupings ps) s p v ↔ ∃ q ∈ ps, s ∈ q.selectors ∧ ⟨p, v⟩ ∈ q.declarations := by
  constructor
  · rintro ⟨g, hg, bound⟩
    obtain ⟨q, hq, rfl⟩ := List.mem_map.1 hg
    exact ⟨q, hq, bound⟩
  · rintro ⟨q, hq, bound⟩
    exact ⟨q.grouping, List.mem_map_of_mem hq, bound⟩

theorem groupings_ofGroupings (gs : List (Grouping String)) : groupings (ofGroupings gs) = gs := by
  simp [groupings, ofGroupings, List.map_map, Function.comp_def]

end Piece

open Piece (groupings)

theorem binds_absorb {c host : Piece} {ps qs : List Piece} (h : absorb c ps = some (host, qs)) :
    Binds (groupings qs) s p v ↔ Binds (groupings (c :: ps)) s p v := by
  induction ps generalizing qs with
  | nil => cases h
  | cons first rest ih =>
    simp only [Piece.groupings_cons, binds_cons] at ih ⊢
    unfold absorb at h
    split at h
    · next eq =>
      cases h
      rw [Piece.groupings_cons, binds_cons, ih eq]
      exact or_left_comm
    · split at h
      · next agree =>
        cases h
        obtain ⟨same, _⟩ := Grouping.agrees_iff.1 agree
        have joined : s ∈ (host.insertSelectors c.selectors).grouping.selectors ↔
            s ∈ c.grouping.selectors ∨ s ∈ host.grouping.selectors :=
          Grouping.mem_insertSelectors.trans or_comm
        have kept : (host.insertSelectors c.selectors).grouping.declarations =
            host.grouping.declarations :=
          Grouping.declarations_insertSelectors _ _
        rw [Piece.groupings_cons, binds_cons, joined, kept, same ⟨p, v⟩, or_and_right, or_assoc]
      · cases h

theorem binds_mergeEqualFrom (ps : List Piece) :
    Binds (groupings (mergeEqualFrom ps).value.1) s p v ↔ Binds (groupings ps) s p v := by
  match ps with
  | [] => rw [value_mergeEqualFrom_nil]
  | c :: rest =>
    rw [value_mergeEqualFrom_cons]
    cases h : absorb c rest with
    | none =>
      have := binds_mergeEqualFrom rest
      simp only [Piece.groupings_cons, binds_cons] at this ⊢
      rw [this]
    | some taken =>
      obtain ⟨host, qs⟩ := taken
      have shorter := length_of_absorb h
      exact (binds_mergeEqualFrom qs).trans (binds_absorb h)
termination_by ps.length

theorem binds_mergeEqual (ps : List Piece) :
    Binds (groupings (mergeEqual ps).value.result) s p v ↔ Binds (groupings ps) s p v := by
  have taken : Binds (groupings (mergeEqual ps).value.result) s p v ↔
      Binds (groupings ps.reverse) s p v :=
    binds_mergeEqualFrom ps.reverse
  exact taken.trans (binds_congr fun g => by simp [groupings])

theorem binds_handOver {ss : List String} {places : List Nat} {ps : List Piece} :
    Binds (groupings (Piece.handOver ss places ps)) s p v ↔
      ∃ i q, ps[i]? = some q ∧ (s ∈ q.selectors ∨ i ∈ places ∧ s ∈ ss) ∧
        ⟨p, v⟩ ∈ q.declarations := by
  have image : ∀ (i : Nat) (q : Piece),
      let q' := if places.contains i then q.insertSelectors ss else q
      (s ∈ q'.selectors ↔ s ∈ q.selectors ∨ i ∈ places ∧ s ∈ ss) ∧
        q'.declarations = q.declarations := by
    intro i q
    by_cases member : i ∈ places
    · simp [member, Piece.selectors, Piece.declarations, Piece.insertSelectors,
        Grouping.mem_insertSelectors]
    · simp [member]
  rw [Piece.binds_groupings]
  constructor
  · rintro ⟨q', hq', bound⟩
    obtain ⟨i, hi, rfl⟩ := List.mem_mapIdx.1 hq'
    rw [(image i ps[i]).1, (image i ps[i]).2] at bound
    exact ⟨i, ps[i], List.getElem?_eq_getElem hi, bound⟩
  · rintro ⟨i, q, hq, bound⟩
    obtain ⟨hi, rfl⟩ := List.getElem?_eq_some_iff.1 hq
    rw [← (image i ps[i]).1, ← (image i ps[i]).2] at bound
    exact ⟨_, List.mem_mapIdx.2 ⟨i, hi, rfl⟩, bound⟩

/-- What a target loses to a cluster the members get, and nothing else. All that the members declare
is the target's too, and all that the target loses is declared by a member. -/
theorem binds_without {t : Piece} {rest : List Piece} {c : Cluster}
    (h : t.chosen rest = some c) :
    Binds (groupings (t.without c :: Piece.handOver t.selectors c.members rest)) s p v ↔
      Binds (groupings (t :: rest)) s p v := by
  have covered := Grouping.covered_of_mem_clusters (Cluster.mem_of_best h)
  have candidate : ∀ g i, (g, i) ∈ t.grouping.candidates (groupings rest) →
      ∃ q, rest[i]? = some q ∧ q.grouping = g ∧ ∀ d ∈ g.declarations, d ∈ t.declarations := by
    intro g i member
    obtain ⟨found, isPart⟩ := Grouping.mem_candidates.1 member
    rw [groupings, List.getElem?_map, Option.map_eq_some_iff] at found
    obtain ⟨q, hq, same⟩ := found
    exact ⟨q, hq, same, (Grouping.isPartOf_iff.1 isPart).2⟩
  have left : ⟨p, v⟩ ∈ (t.without c).declarations ↔
      ⟨p, v⟩ ∈ t.declarations ∧ ⟨p, v⟩ ∉ c.total.declarations :=
    Grouping.mem_declarations_retract
  rw [Piece.groupings_cons, Piece.groupings_cons, binds_cons, binds_cons]
  refine Iff.trans (or_congr (and_congr_right fun _ => left) binds_handOver) ?_
  rw [Piece.binds_groupings]
  constructor
  · rintro (⟨hs, hd, _⟩ | ⟨i, q, hq, hs | ⟨hi, hs⟩, hd⟩)
    · exact Or.inl ⟨hs, hd⟩
    · exact Or.inr ⟨q, List.mem_of_getElem? hq, hs, hd⟩
    · obtain ⟨g, member⟩ := covered.members i hi
      obtain ⟨q', hq', rfl, part⟩ := candidate g i member
      cases hq.symm.trans hq'
      exact Or.inl ⟨hs, part _ hd⟩
  · rintro (⟨hs, hd⟩ | ⟨q, hq, hs, hd⟩)
    · by_cases taken : ⟨p, v⟩ ∈ c.total.declarations
      · obtain ⟨g, i, member, hi, hg⟩ := covered.declarations _ taken
        obtain ⟨q, hq, rfl, _⟩ := candidate g i member
        exact Or.inr ⟨i, q, hq, Or.inr ⟨hi, hs⟩, hg⟩
      · exact Or.inl ⟨hs, hd, taken⟩
    · obtain ⟨i, hi⟩ := List.mem_iff_getElem?.1 hq
      exact Or.inr ⟨i, q, hi, Or.inl hs, hd⟩

theorem binds_factorFrom (ps : List Piece) :
    Binds (groupings (factorFrom ps).value) s p v ↔ Binds (groupings ps) s p v := by
  match ps with
  | [] => rw [factorFrom]; rfl
  | t :: rest =>
    rw [value_factorFrom_cons]
    cases h : t.chosen rest with
    | none =>
      have := binds_factorFrom rest
      simp only [Piece.groupings_cons, binds_cons] at this ⊢
      rw [this]
    | some c =>
      have := binds_factorFrom (Piece.handOver t.selectors c.members rest)
      rw [← binds_without h]
      simp only [Piece.groupings_cons, binds_cons] at this ⊢
      rw [this]
termination_by ps.length
decreasing_by all_goals simp [Piece.length_handOver]

theorem binds_factorShared (ps : List Piece) :
    Binds (groupings (factorShared ps).value.result) s p v ↔ Binds (groupings ps) s p v := by
  have kept : groupings (factorShared ps).value.result =
      (groupings (factorFrom (Piece.largestFirst ps)).value).filter
        (!·.declarations.isEmpty) := by
    rw [groupings, groupings, List.filter_map]
    rfl
  have sorted : Binds (groupings (Piece.largestFirst ps)) s p v ↔ Binds (groupings ps) s p v :=
    binds_congr fun g => by simp [groupings, Piece.largestFirst]
  rw [kept, binds_filter_nonempty, binds_factorFrom, sorted]

theorem binds_run {k : PassKind} (merges : k ≠ .bySelector) (ps : List Piece) :
    Binds (groupings (k.run ps).value.result) s p v ↔ Binds (groupings ps) s p v := by
  cases k with
  | bySelector => exact absurd rfl merges
  | equal => exact binds_mergeEqual ps
  | shared => exact binds_factorShared ps

theorem binds_runPasses {ks : List PassKind} (merge : .bySelector ∉ ks) (ps : List Piece) :
    Binds (groupings (runPasses ks ps).value) s p v ↔ Binds (groupings ps) s p v := by
  induction ks generalizing ps with
  | nil => rfl
  | cons k ks ih =>
    obtain ⟨first, rest⟩ := not_or.1 (mt List.mem_cons.2 merge)
    exact (ih rest _).trans (binds_run (Ne.symm first) ps)

/-- Whatever merging passes are run on groupings, and in whatever order, no selector loses a
declaration and none gains one. -/
theorem style_conserved (gs : List (Grouping String)) (ks : List PassKind)
    (merge : .bySelector ∉ ks) (s p v : String) :
    Binds (groupings (runPasses ks (Piece.ofGroupings gs)).value) s p v ↔ Binds gs s p v := by
  rw [binds_runPasses merge, Piece.groupings_ofGroupings]

/-- The first pass merges the two small groupings, the second hands them what they share with the
large one. -/
theorem style_conserved_shared :
    let gs : List (Grouping String) :=
      [⟨["a"], [⟨"x", "1"⟩, ⟨"y", "2"⟩]⟩, ⟨["b"], [⟨"x", "1"⟩]⟩, ⟨["c"], [⟨"x", "1"⟩]⟩]
    PassKind.bySelector ∉ [PassKind.equal, .shared, .equal] ∧
      (Binds (groupings (runPasses [.equal, .shared, .equal] (Piece.ofGroupings gs)).value)
        "a" "x" "1" ↔ Binds gs "a" "x" "1") :=
  ⟨by decide, style_conserved _ _ (by decide) _ _ _⟩

end StyleFactor
