import StyleFactor.Proofs.Merge.Cascade
import StyleFactor.Proofs.Merge.Shape

/-!
Selectors by what they come to. Merging groupings with equal declarations leaves none that agree,
and hands the selectors on as they are. Main statement: after a regrouping by selector this makes
one grouping for each style that selectors come to (`partition_bySelector`).
-/
namespace StyleFactor

open Piece (groupings)
open Refactoring (merge)

/-! Which groupings are left. -/

theorem absorb_eq_none {c : Piece} {ps : List Piece} :
    absorb c ps = none ↔ ∀ p ∈ ps, c.grouping.agrees p.grouping = false := by
  induction ps with
  | nil => simp [absorb]
  | cons p ps ih =>
    rw [absorb, List.forall_mem_cons, ← ih]
    cases absorb c ps with
    | some taken => simp
    | none => simp

theorem agrees_comm (g h : Grouping String) : g.agrees h = h.agrees g := by
  have turn : ∀ a b : Grouping String, a.agrees b = true → b.agrees a = true := by
    intro a b agree
    obtain ⟨same, d, hd⟩ := Grouping.agrees_iff.1 agree
    exact Grouping.agrees_iff.2 ⟨fun e => (same e).symm, d, (same d).1 hd⟩
  exact Bool.eq_iff_iff.2 ⟨turn g h, turn h g⟩

theorem agrees_insertSelectors (g : Grouping String) (p : Piece) (ss : List String) :
    g.agrees (p.insertSelectors ss).grouping = g.agrees p.grouping := by
  rw [Bool.eq_iff_iff, Grouping.agrees_iff, Grouping.agrees_iff, Piece.insertSelectors,
    Grouping.declarations_insertSelectors]

/-- No two of the finished pieces agree. -/
theorem pairwise_mergeEqualFrom (ps : List Piece) :
    (mergeEqualFrom ps).value.1.Pairwise fun p q => p.grouping.agrees q.grouping = false := by
  match ps with
  | [] =>
    rw [value_mergeEqualFrom_nil]
    exact .nil
  | c :: rest =>
    rw [value_mergeEqualFrom_cons]
    cases taken : absorb c rest with
    | none =>
      -- the pieces behind `c` only gain selectors, so that none comes to agree with it
      refine .cons ?_ (pairwise_mergeEqualFrom rest)
      refine mergeEqualFrom_forall (P := fun p => c.grouping.agrees p.grouping = false) ?_ rest
        (absorb_eq_none.1 taken)
      exact fun p ss h => (agrees_insertSelectors _ p ss).trans h
    | some result =>
      obtain ⟨host, qs⟩ := result
      have shorter := length_of_absorb taken
      exact pairwise_mergeEqualFrom qs
termination_by ps.length

/-! Where the selectors are left. -/

def selectorsIn (ps : List Piece) : List String := ps.flatMap Piece.selectors

theorem perm_absorb {c host : Piece} {ps qs : List Piece} (h : absorb c ps = some (host, qs))
    (distinct : (selectorsIn (c :: ps)).Nodup) : (selectorsIn qs).Perm (selectorsIn (c :: ps)) := by
  induction ps generalizing qs with
  | nil => cases h
  | cons first rest ih =>
    have turned : (selectorsIn (c :: first :: rest)).Perm
        (first.selectors ++ selectorsIn (c :: rest)) := by
      simp only [selectorsIn, List.flatMap_cons, ← List.append_assoc]
      exact List.perm_append_comm.append_right _
    unfold absorb at h
    -- the host is further back if any piece there agrees, and else it is the first piece
    split at h
    · next found =>
      cases h
      have others := (List.nodup_append.1 (turned.nodup_iff.1 distinct)).2.1
      exact ((ih found others).append_left first.selectors).trans turned.symm
    · split at h
      · cases h
        have whole : (host.selectors ++ c.selectors).Nodup := by
          have both := turned.nodup_iff.1 distinct
          rw [selectorsIn, List.flatMap_cons, ← List.append_assoc] at both
          exact (List.nodup_append.1 both).1
        have joined : (host.insertSelectors c.selectors).selectors =
            host.selectors ++ c.selectors :=
          congrArg Grouping.selectors (Grouping.insertSelectors_of_distinct whole)
        rw [selectorsIn, List.flatMap_cons, joined, List.append_assoc]
        exact turned.symm
      · cases h

theorem perm_mergeEqualFrom (ps : List Piece) (distinct : (selectorsIn ps).Nodup) :
    (selectorsIn (mergeEqualFrom ps).value.1).Perm (selectorsIn ps) := by
  match ps with
  | [] =>
    rw [value_mergeEqualFrom_nil]
  | c :: rest =>
    rw [value_mergeEqualFrom_cons]
    cases taken : absorb c rest with
    | none =>
      have others : (selectorsIn rest).Nodup := (List.nodup_append.1 distinct).2.1
      exact (perm_mergeEqualFrom rest others).append_left c.selectors
    | some result =>
      obtain ⟨host, qs⟩ := result
      have shorter := length_of_absorb taken
      have step := perm_absorb taken distinct
      exact (perm_mergeEqualFrom qs (step.nodup_iff.2 distinct)).trans step
termination_by ps.length

theorem perm_mergeEqual {ps : List Piece} (distinct : (selectorsIn ps).Nodup) :
    (selectorsIn (mergeEqual ps).value.result).Perm (selectorsIn ps) := by
  have turned : (selectorsIn ps.reverse).Perm (selectorsIn ps) :=
    (List.reverse_perm ps).flatMap_right _
  exact (perm_mergeEqualFrom ps.reverse (turned.nodup_iff.2 distinct)).trans turned

/-! What is left of groupings that have one selector each. -/

theorem eq_of_selector {gs : List (Grouping String)} (distinct : (gs.flatMap (·.selectors)).Nodup)
    {g h : Grouping String} (hg : g ∈ gs) (hh : h ∈ gs) {s : String} (first : s ∈ g.selectors)
    (second : s ∈ h.selectors) : g = h := by
  by_contra other
  have apart := (List.nodup_flatMap.1 distinct).2
  have symmetric : Std.Symm (Function.onFun List.Disjoint fun k : Grouping String => k.selectors) :=
    ⟨fun _ _ disjoint => disjoint.symm⟩
  exact apart.forall hg hh other first second

theorem eq_of_agrees {gs : List (Grouping String)}
    (apart : gs.Pairwise fun g h => g.agrees h = false) {g h : Grouping String} (hg : g ∈ gs)
    (hh : h ∈ gs) (agree : g.agrees h = true) : g = h := by
  by_contra other
  have symmetric : Std.Symm fun g h : Grouping String => g.agrees h = false :=
    ⟨fun g h differ => (agrees_comm h g).trans differ⟩
  rw [apart.forall hg hh other] at agree
  cases agree

theorem nodup_selectorsOf (gs : List (Grouping String)) : (selectorsOf gs).Nodup :=
  Grouping.nodup_insertSelectors List.nodup_nil _

theorem selectorsIn_eq (ps : List Piece) :
    selectorsIn ps = (groupings ps).flatMap (·.selectors) := by
  rw [selectorsIn, groupings, List.flatMap_map]
  rfl

theorem groupings_regroup_ofGroupings (gs : List (Grouping String)) :
    groupings (regroup (Piece.ofGroupings gs)).value.result = bySelector gs := by
  rw [groupings_regroup, Piece.groupings_ofGroupings]

theorem selectorsIn_regroup (gs : List (Grouping String)) :
    selectorsIn (regroup (Piece.ofGroupings gs)).value.result = selectorsOf gs := by
  rw [selectorsIn_eq, groupings_regroup_ofGroupings, bySelector_eq, ofLogs, List.flatMap_map]
  simp

theorem lookup_cascade_congr {gs : List (Grouping String)} {s t : String} :
    (∀ p, lookup (cascade gs s) p = lookup (cascade gs t) p) ↔
      ∀ d, d ∈ cascade gs s ↔ d ∈ cascade gs t :=
  lookup_resolve_congr

section

variable (strict : Bool) (gs : List (Grouping String))

theorem merge_bySelector_eq : (merge ⟨false, true, strict⟩ gs).value =
    groupings (mergeEqual (regroup (Piece.ofGroupings gs)).value.result).value.result := rfl

theorem perm_merge_bySelector :
    ((merge ⟨false, true, strict⟩ gs).value.flatMap (·.selectors)).Perm (selectorsOf gs) := by
  rw [merge_bySelector_eq, ← selectorsIn_eq, ← selectorsIn_regroup]
  apply perm_mergeEqual
  rw [selectorsIn_regroup]
  exact nodup_selectorsOf gs

theorem pairwise_merge_bySelector :
    (merge ⟨false, true, strict⟩ gs).value.Pairwise fun g h => g.agrees h = false :=
  List.pairwise_map.2 (pairwise_mergeEqualFrom _)

variable {strict gs}

theorem mem_declarations_merge_bySelector {g : Grouping String}
    (hg : g ∈ (merge ⟨false, true, strict⟩ gs).value) {s : String} (hs : s ∈ g.selectors)
    (d : Declaration String) : d ∈ g.declarations ↔ d ∈ cascade gs s := by
  have distinct := (perm_merge_bySelector strict gs).nodup_iff.2 (nodup_selectorsOf gs)
  have settled : Binds (merge ⟨false, true, strict⟩ gs).value s d.property d.value ↔
      d ∈ cascade gs s :=
    binds_merge_bySelector rfl gs
  rw [← settled]
  constructor
  · exact fun hd => ⟨g, hg, hs, hd⟩
  · rintro ⟨h, hh, has, hd⟩
    rwa [eq_of_selector distinct hg hh hs has]

/-- Every selector comes to something where every grouping declares something. -/
theorem exists_mem_cascade (declares : ∀ g ∈ gs, g.declarations ≠ []) {s : String}
    (occurs : ∃ g ∈ gs, s ∈ g.selectors) : ∃ d, d ∈ cascade gs s := by
  obtain ⟨g, hg, hs⟩ := occurs
  obtain ⟨d, hd⟩ := List.exists_mem_of_ne_nil _ (declares g hg)
  have found := isSome_cascade_iff.2 ⟨d.value, g, hg, hs, hd⟩
  obtain ⟨v, hv⟩ := Option.isSome_iff_exists.1 found
  exact ⟨_, mem_of_lookup hv⟩

end

/-- Regrouping by selector and merging what is equal then puts each selector into one grouping, once,
and invents none. Two selectors are together exactly if they came to the same style, in whatever
order their properties were set. -/
theorem partition_bySelector (strict : Bool) {gs : List (Grouping String)}
    (declares : ∀ g ∈ gs, g.declarations ≠ []) :
    let out := (merge ⟨false, true, strict⟩ gs).value
    (out.flatMap (·.selectors)).Nodup ∧
      (∀ s, s ∈ out.flatMap (·.selectors) ↔ ∃ g ∈ gs, s ∈ g.selectors) ∧
      ∀ s t, (∃ g ∈ gs, s ∈ g.selectors) → (∃ g ∈ gs, t ∈ g.selectors) →
        ((∃ g ∈ out, s ∈ g.selectors ∧ t ∈ g.selectors) ↔
          ∀ p, lookup (cascade gs s) p = lookup (cascade gs t) p) := by
  intro out
  have perm := perm_merge_bySelector strict gs
  have occurs : ∀ s, s ∈ out.flatMap (·.selectors) ↔ ∃ g ∈ gs, s ∈ g.selectors :=
    fun s => perm.mem_iff.trans mem_selectorsOf
  refine ⟨perm.nodup_iff.2 (nodup_selectorsOf gs), occurs, fun s t hs ht => ?_⟩
  rw [lookup_cascade_congr]
  constructor
  · rintro ⟨g, hg, first, second⟩ d
    rw [← mem_declarations_merge_bySelector hg first, ← mem_declarations_merge_bySelector hg second]
  · intro same
    obtain ⟨g, hg, first⟩ := List.mem_flatMap.1 ((occurs s).2 hs)
    obtain ⟨h, hh, second⟩ := List.mem_flatMap.1 ((occurs t).2 ht)
    have equal : ∀ d, d ∈ g.declarations ↔ d ∈ h.declarations := by
      intro d
      rw [mem_declarations_merge_bySelector hg first, same,
        mem_declarations_merge_bySelector hh second]
    obtain ⟨d, hd⟩ := exists_mem_cascade declares hs
    have some : d ∈ g.declarations := (mem_declarations_merge_bySelector hg first d).2 hd
    have together : g = h :=
      eq_of_agrees (pairwise_merge_bySelector strict gs) hg hh
        (Grouping.agrees_iff.2 ⟨equal, d, some⟩)
    exact ⟨g, hg, first, together ▸ second⟩

/-- Two selectors come to the same style in different orders, one of them by an override. -/
def overlapping : List (Grouping String) :=
  [⟨["a", "b"], [⟨"x", "1"⟩, ⟨"y", "2"⟩]⟩, ⟨["b"], [⟨"x", "3"⟩]⟩,
    ⟨["c"], [⟨"y", "2"⟩, ⟨"x", "3"⟩]⟩]

theorem partition_bySelector_overlapping : (∀ g ∈ overlapping, g.declarations ≠ []) ∧
    let out := (merge ⟨false, true, true⟩ overlapping).value
    (out.flatMap (·.selectors)).Nodup ∧
      (∀ s, s ∈ out.flatMap (·.selectors) ↔ ∃ g ∈ overlapping, s ∈ g.selectors) ∧
      ∀ s t, (∃ g ∈ overlapping, s ∈ g.selectors) → (∃ g ∈ overlapping, t ∈ g.selectors) →
        ((∃ g ∈ out, s ∈ g.selectors ∧ t ∈ g.selectors) ↔
          ∀ p, lookup (cascade overlapping s) p = lookup (cascade overlapping t) p) := by
  have declares : ∀ g ∈ overlapping, g.declarations ≠ [] := by decide
  exact ⟨declares, partition_bySelector true declares⟩

end StyleFactor
