import Mathlib
import StyleFactor.Proofs.Grouping.Measure
import StyleFactor.Proofs.Merge.Coverage

/-!
What candidates are worth to clusters. All candidates agree with the target, so that a cluster keeps
its declarations when one joins it and gets those that are new behind them (`declarations_add`).
What a candidate is worth is the size of these, so it falls while a cluster grows. Main statement:
no candidate is worth anything to a finished cluster (`gain_settled`).
-/
namespace StyleFactor

/-- Where all that is written is in force elsewhere, a log adds what is new to what is in force. -/
theorem resolve_append_of_subset {log ds other : List (Declaration String)}
    (within : log ⊆ resolve other) (also : ds ⊆ resolve other)
    (distinct : (ds.map (·.property)).Nodup) :
    resolve (log ++ ds) = resolve log ++ ds.filter (· ∉ resolve log) := by
  induction ds generalizing log with
  | nil => simp
  | cons d ds ih =>
    obtain ⟨hd, hds⟩ := List.cons_subset.1 also
    obtain ⟨single, rest⟩ := List.nodup_cons.1 distinct
    have written : resolve (log ++ [d]) = upsert d (resolve log) := by simp [resolve]
    have wider : log ++ [d] ⊆ resolve other :=
      List.append_subset.2 ⟨within, List.cons_subset.2 ⟨hd, List.nil_subset _⟩⟩
    rw [List.append_cons, ih wider hds rest, written]
    by_cases old : d ∈ resolve log
    · rw [upsert_of_mem (nodup_resolve log) old]
      simp [old]
    · have absent : d.property ∉ (resolve log).map (·.property) := by
        intro there
        obtain ⟨e, he, same⟩ := List.mem_map.1 there
        exact old (eq_of_property (within (mem_of_mem_resolve he)) hd same ▸ he)
      have others : ds.filter (· ∉ resolve log ++ [d]) = ds.filter (· ∉ resolve log) := by
        apply List.filter_congr
        intro e he
        have differs : e ≠ d := fun same => single (same ▸ List.mem_map_of_mem he)
        simp [differs]
      rw [upsert_of_absent absent, others]
      simp [old]

namespace Cluster

/-- All that the cluster declares is declared by the target. -/
def Within (target : Grouping String) (c : Cluster) : Prop := c.total.log ⊆ target.declarations

section

variable {target h : Grouping String} {g : Grouping String × Nat} {c : Cluster} {cost : Nat}
  {cs : List (Grouping String × Nat)}

theorem within_seed (part : g.1.declarations ⊆ target.declarations) : (seed g).Within target := by
  have log : (seed g).total.log = g.1.declarations := Grouping.log_insertSelectors _ _
  rw [Within, log]
  exact part

theorem log_add (c : Cluster) (g : Grouping String × Nat) :
    (c.add g).total.log = c.total.log ++ g.1.declarations := by
  simp [add, Grouping.declare, Grouping.log_insertSelectors]

theorem Within.add (within : c.Within target) (part : g.1.declarations ⊆ target.declarations) :
    (c.add g).Within target := by
  rw [Within, log_add]
  exact List.append_subset.2 ⟨within, part⟩

theorem Within.offer (within : c.Within target) (part : g.1.declarations ⊆ target.declarations) :
    (c.offer cost g).Within target := by
  unfold Cluster.offer
  split
  · exact within.add part
  · exact within

/-! One candidate joins. -/

theorem declarations_add (within : c.Within target)
    (part : g.1.declarations ⊆ target.declarations) :
    (c.add g).total.declarations = c.total.declarations ++ (c.total.compare g.1).secondOnly := by
  rw [Grouping.secondOnly_eq, Grouping.declarations, log_add]
  exact resolve_append_of_subset within part (nodup_resolve g.1.log)

theorem gain_le_of_subset {c' : Cluster} (grown : c.total.declarations ⊆ c'.total.declarations) :
    c'.gain cost h ≤ c.gain cost h := by
  have fewer : ((c'.total.compare h).secondOnly).Sublist (c.total.compare h).secondOnly := by
    rw [Grouping.secondOnly_eq, Grouping.secondOnly_eq]
    apply List.monotone_filter_right
    intro d new
    simp only [decide_eq_true_eq] at new ⊢
    exact fun old => new (grown old)
  have smaller := declarationsSize_le_of_sublist fewer
  unfold gain
  omega

theorem subset_offer (within : c.Within target) (part : g.1.declarations ⊆ target.declarations) :
    c.total.declarations ⊆ (c.offer cost g).total.declarations := by
  unfold offer
  split
  · rw [declarations_add within part]
    exact List.subset_append_left _ _
  · exact List.Subset.refl _

theorem members_offer : c.members ⊆ (c.offer cost g).members := by
  unfold offer
  split
  · exact List.subset_append_left _ _
  · exact List.Subset.refl _

/-! Candidates are offered one after the other. -/

theorem subset_foldl_offer (within : c.Within target)
    (parts : ∀ g ∈ cs, g.1.declarations ⊆ target.declarations) :
    c.total.declarations ⊆ (cs.foldl (offer cost) c).total.declarations := by
  induction cs generalizing c with
  | nil => exact List.Subset.refl _
  | cons g cs ih =>
    obtain ⟨first, rest⟩ := List.forall_mem_cons.1 parts
    exact List.Subset.trans (subset_offer within first) (ih (within.offer first) rest)

theorem Within.foldl_offer (within : c.Within target)
    (parts : ∀ g ∈ cs, g.1.declarations ⊆ target.declarations) :
    (cs.foldl (Cluster.offer cost) c).Within target := by
  induction cs generalizing c with
  | nil => exact within
  | cons g cs ih =>
    obtain ⟨first, rest⟩ := List.forall_mem_cons.1 parts
    exact ih (within.offer first) rest

theorem members_foldl_offer : c.members ⊆ (cs.foldl (offer cost) c).members := by
  induction cs generalizing c with
  | nil => exact List.Subset.refl _
  | cons g cs ih => exact List.Subset.trans members_offer ih

/-- A candidate that did not join was worth nothing when it was offered. -/
theorem gain_of_notMem (out : g.2 ∉ ((g :: cs).foldl (offer cost) c).members) :
    c.gain cost g.1 ≤ 0 := by
  by_contra worth
  have joins : c.offer cost g = c.add g := if_pos (not_le.1 worth)
  apply out
  rw [List.foldl_cons, joins]
  exact members_foldl_offer (List.mem_append_right _ (List.mem_singleton_self _))

end

/-- The cluster that the candidate at place `i` started, as the one at place `j` is offered to it. -/
def met (cost : Nat) (cs : List (Grouping String × Nat)) (i j : Nat) : Option Cluster :=
  cs[i]?.map fun g => ((cs.take j).drop (i + 1)).foldl (offer cost) (seed g)

theorem getElem?_grow (cost : Nat) (cs : List (Grouping String × Nat)) (i : Nat) :
    (grow cost cs)[i]? = met cost cs i cs.length := by
  induction cs generalizing i with
  | nil => simp [grow, met]
  | cons g cs ih =>
    cases i with
    | zero => simp [grow, met]
    | succ i =>
      rw [grow, List.getElem?_cons_succ, ih]
      simp [met]

/-- What a cluster meets from a place on. -/
theorem met_length_of_lt {cost : Nat} {cs : List (Grouping String × Nat)} {i j : Nat}
    {h : Grouping String × Nat} (place : cs[j]? = some h) (before : i < j) :
    met cost cs i cs.length =
      (met cost cs i j).map ((h :: cs.drop (j + 1)).foldl (offer cost)) := by
  obtain ⟨short, rfl⟩ := List.getElem?_eq_some_iff.1 place
  have split : cs.drop (i + 1) = (cs.take j).drop (i + 1) ++ cs[j] :: cs.drop (j + 1) := by
    rw [← List.drop_eq_getElem_cons short, ← List.drop_append_of_le_length, List.take_append_drop]
    rw [List.length_take]
    omega
  simp only [met, List.take_length, split, List.foldl_append, Option.map_map]
  rfl

section

variable {target : Grouping String} {gs : List (Grouping String)} {cost i j : Nat} {c : Cluster}
  {h : Grouping String × Nat}

theorem within_met (found : met cost (target.candidates gs) i j = some c) : c.Within target := by
  obtain ⟨g, start, rfl⟩ := Option.map_eq_some_iff.1 found
  have parts : ∀ g ∈ target.candidates gs, g.1.declarations ⊆ target.declarations :=
    Grouping.subset_of_mem_candidates
  apply (within_seed (parts g (List.mem_of_getElem? start))).foldl_offer
  intro g' offered
  exact parts g' (List.mem_of_mem_take (List.mem_of_mem_drop offered))

/-- A candidate is worth nothing more to a cluster that has it. -/
theorem gain_of_mem (started : c ∈ target.clusters gs) (candidate : h ∈ target.candidates gs)
    (member : h.2 ∈ c.members) : c.gain cost h.1 = -cost := by
  have found := (Grouping.mem_candidates.1 candidate).1
  have nothing : (c.total.compare h.1).secondOnly = [] := by
    rw [Grouping.secondOnly_eq, List.filter_eq_nil_iff]
    intro d hd
    simpa using Grouping.mem_total_of_mem_clusters started found member hd
  rw [gain, nothing]
  exact Int.zero_sub _

/-- A finished cluster gains nothing by any candidate from its seed on. One that is a member would
only cost it the selectors once more; one that is not was worth nothing when the cluster met it, and
is not worth more since others joined. -/
theorem gain_settled (started : (target.clusters gs)[i]? = some c)
    (candidate : (target.candidates gs)[j]? = some h) (behind : i ≤ j) :
    let cost := target.selectorSize
    c.gain cost h.1 ≤ 0 ∧
      (h.2 ∈ c.members → c.gain cost h.1 = -cost) ∧
      (h.2 ∉ c.members → ∃ c', met cost (target.candidates gs) i j = some c' ∧
        c'.gain cost h.1 ≤ 0 ∧ c.gain cost h.1 ≤ c'.gain cost h.1) := by
  intro cost
  let offers := target.candidates gs
  have finished : met cost offers i offers.length = some c := (getElem?_grow _ _ _).symm.trans started
  have inside : h.2 ∈ c.members → c.gain cost h.1 = -cost :=
    gain_of_mem (List.mem_of_getElem? started) (List.mem_of_getElem? candidate)
  have outside : h.2 ∉ c.members → ∃ c', met cost offers i j = some c' ∧
      c'.gain cost h.1 ≤ 0 ∧ c.gain cost h.1 ≤ c'.gain cost h.1 := by
    intro out
    have later : i < j := by
      apply Nat.lt_of_le_of_ne behind
      rintro rfl
      -- the seed of a cluster is a member of it
      obtain ⟨g, start, rfl⟩ := Option.map_eq_some_iff.1 finished
      cases start.symm.trans candidate
      exact out (members_foldl_offer (List.mem_singleton_self _))
    rw [met_length_of_lt candidate later] at finished
    obtain ⟨c', meeting, rfl⟩ := Option.map_eq_some_iff.1 finished
    refine ⟨c', meeting, gain_of_notMem out, ?_⟩
    apply gain_le_of_subset
    apply subset_foldl_offer (within_met meeting)
    intro g offered
    apply Grouping.subset_of_mem_candidates
    rcases List.mem_cons.1 offered with rfl | offered
    · exact List.mem_of_getElem? candidate
    · exact List.mem_of_mem_drop offered
  refine ⟨?_, inside, outside⟩
  by_cases member : h.2 ∈ c.members
  · rw [inside member]
    omega
  · obtain ⟨c', -, nothing, fell⟩ := outside member
    exact fell.trans nothing

/-- The second candidate shares a declaration with each of the others; it is worth less than the
selectors it costs when the first cluster meets it, and nothing at all once the third one joined. -/
theorem gain_settled_overlapping :
    let target : Grouping String :=
      ⟨["abcde"], [⟨"v", "1"⟩, ⟨"w", "2"⟩, ⟨"x", "3"⟩, ⟨"y", "4"⟩, ⟨"z", "5"⟩]⟩
    let gs : List (Grouping String) := [⟨["p"], [⟨"v", "1"⟩, ⟨"w", "2"⟩]⟩,
      ⟨["q"], [⟨"w", "2"⟩, ⟨"x", "3"⟩]⟩, ⟨["r"], [⟨"z", "5"⟩, ⟨"x", "3"⟩, ⟨"y", "4"⟩]⟩]
    let c : Cluster := ⟨⟨["p", "r"],
      [⟨"v", "1"⟩, ⟨"w", "2"⟩, ⟨"z", "5"⟩, ⟨"x", "3"⟩, ⟨"y", "4"⟩]⟩, [0, 2]⟩
    let h : Grouping String × Nat := (⟨["q"], [⟨"w", "2"⟩, ⟨"x", "3"⟩]⟩, 1)
    let cost := target.selectorSize
    ((target.clusters gs)[0]? = some c ∧ (target.candidates gs)[1]? = some h ∧ 0 ≤ 1) ∧
      c.gain cost h.1 ≤ 0 ∧
      (h.2 ∈ c.members → c.gain cost h.1 = -cost) ∧
      (h.2 ∉ c.members → ∃ c', met cost (target.candidates gs) 0 1 = some c' ∧
        c'.gain cost h.1 ≤ 0 ∧ c.gain cost h.1 ≤ c'.gain cost h.1) := by
  intro target gs c h cost
  have started : (target.clusters gs)[0]? = some c := by decide
  have candidate : (target.candidates gs)[1]? = some h := by decide
  exact ⟨⟨started, candidate, Nat.zero_le 1⟩, gain_settled started candidate (Nat.zero_le 1)⟩

end

end Cluster

end StyleFactor
