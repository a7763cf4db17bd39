import Mathlib
import StyleFactor.Proofs.Grouping.FirstOccurrence
import StyleFactor.Proofs.Merge.Conservation
import StyleFactor.Proofs.Merge.Gains
import StyleFactor.Proofs.Merge.Turns

/-!
What factoring out shared declarations saves. A turn takes the declarations of a cluster out of the
target and hands its selectors to the members, one after the other; the score counts the selectors
that are written once more for each member, but not the comma in front of them. Main statement: the
pass saves what its clusters score less one character for each member, or more
(`saving_of_scores`).
-/
namespace StyleFactor

open Piece (groupings)

theorem declarationsSize_perm {ds es : List (Declaration String)} (h : ds.Perm es) :
    declarationsSize ds = declarationsSize es := total_perm (h.map Declaration.size)

/-- What is taken out of declarations and what is left of them make up their size. -/
theorem declarationsSize_filter_notMem {ds es : List (Declaration String)} (distinct : ds.Nodup)
    (distinct' : es.Nodup) (part : es ⊆ ds) :
    declarationsSize (ds.filter (· ∉ es)) + declarationsSize es = declarationsSize ds := by
  have taken : (ds.filter (· ∈ es)).Perm es := by
    apply (List.perm_ext_iff_of_nodup (distinct.filter _) distinct').2
    intro d
    have given : d ∈ es → d ∈ ds := fun hd => part hd
    simpa using given
  have left : ds.filter (fun d => !decide (d ∈ es)) = ds.filter (· ∉ es) :=
    List.filter_congr fun d _ => decide_not.symm
  have both := declarationsSize_perm (List.filter_append_perm (· ∈ es) ds)
  rw [declarationsSize_append, declarationsSize_perm taken, left] at both
  omega

namespace Piece

/-- What it costs to hand selectors to a piece. -/
def growth (ss : List String) (p : Piece) : Int :=
  (p.insertSelectors ss).grouping.size - p.grouping.size

theorem growth_eq (ss : List String) (p : Piece) :
    growth ss p = ((p.insertSelectors ss).grouping.selectorSize : Int) - p.grouping.selectorSize := by
  have handed : (p.insertSelectors ss).grouping.size =
      p.grouping.declarationSize + (p.insertSelectors ss).grouping.selectorSize :=
    p.grouping.size_insertSelectors ss
  rw [growth, handed, Grouping.size]
  omega

theorem growth_le (t p : Piece) : growth t.selectors p ≤ t.grouping.selectorSize + 1 := by
  have handed : (p.insertSelectors t.selectors).grouping.selectorSize ≤
      p.grouping.selectorSize + t.grouping.selectorSize + 1 :=
    p.grouping.selectorSize_insertSelectors_le t.grouping
  rw [growth_eq]
  omega

/-- Selectors that are new to a piece that has some cost one comma more than they take alone. -/
theorem growth_of_disjoint {t p : Piece} (distinct : t.selectors.Nodup) (some : t.selectors ≠ [])
    (named : p.selectors ≠ []) (apart : t.selectors.Disjoint p.selectors) :
    growth t.selectors p = t.grouping.selectorSize + 1 := by
  have fresh : t.selectors.removeAll p.selectors = t.selectors := by
    apply List.filter_eq_self.2
    intro s hs
    simpa using apart hs
  have joined : (p.insertSelectors t.selectors).grouping.selectors = p.selectors ++ t.selectors := by
    rw [insertSelectors, Grouping.selectors_insertSelectors]
    exact congrArg (p.selectors ++ ·) ((congrArg _ fresh).trans (eraseDups_of_nodup distinct))
  have first := List.length_pos_iff.2 named
  have second := List.length_pos_iff.2 some
  rw [growth_eq, Grouping.selectorSize, joined, List.map_append, total_append, List.length_append]
  unfold Grouping.selectorSize
  unfold selectors at first second ⊢
  omega

/-! Selectors are handed to one piece after the other. -/

theorem handOver_cons {ss : List String} {i : Nat} {places : List Nat} (new : i ∉ places)
    (ps : List Piece) :
    handOver ss (i :: places) ps = (handOver ss places ps).modify i (insertSelectors · ss) := by
  apply List.ext_getElem?
  intro j
  rw [List.getElem?_modify, getElem?_handOver, getElem?_handOver]
  cases ps[j]? with
  | none => rfl
  | some p =>
    by_cases here : i = j
    · subst here
      simp [new]
    · simp [here, Ne.symm here]

theorem totalSize_modify (f : Piece → Piece) (i : Nat) (ps : List Piece) :
    (totalSize (groupings (ps.modify i f)) : Int) =
      totalSize (groupings ps) +
        ps[i]?.elim 0 fun p => ((f p).grouping.size : Int) - p.grouping.size := by
  induction ps generalizing i with
  | nil => simp
  | cons p ps ih =>
    cases i with
    | zero =>
      simp only [List.modify_zero_cons, groupings_cons, totalSize_cons, List.getElem?_cons_zero,
        Option.elim_some]
      omega
    | succ i =>
      have others := ih i
      simp only [List.modify_succ_cons, groupings_cons, totalSize_cons, List.getElem?_cons_succ]
      omega

/-- Handing selectors over costs what it costs at each of the places. -/
theorem totalSize_handOver (ss : List String) {places : List Nat} (distinct : places.Nodup)
    (ps : List Piece) :
    (totalSize (groupings (handOver ss places ps)) : Int) =
      totalSize (groupings ps) + (places.map fun i => ps[i]?.elim 0 (growth ss)).sum := by
  induction places with
  | nil =>
    have nobody : handOver ss [] ps = ps := by
      apply List.ext_getElem?
      intro i
      simp [getElem?_handOver]
    simp [nobody]
  | cons i places ih =>
    obtain ⟨new, rest⟩ := List.nodup_cons.1 distinct
    have untouched : (handOver ss places ps)[i]? = ps[i]? := by
      rw [getElem?_handOver]
      simp [new]
    have others := ih rest
    rw [handOver_cons new, totalSize_modify, untouched, List.map_cons, List.sum_cons]
    unfold growth at others ⊢
    omega

end Piece

theorem Grouping.nodup_places (target : Grouping String) (gs : List (Grouping String)) :
    ((target.candidates gs).map (·.2)).Nodup := by
  have all : (gs.zipIdx.map (·.2)).Nodup := by
    rw [List.zipIdx_map_snd]
    exact List.nodup_range'
  exact all.sublist (List.filter_sublist.map _)

namespace Turn

variable (t : Turn) {c : Cluster}

theorem nodup_members (h : t.cluster = some c) : c.members.Nodup := by
  obtain ⟨g, gs, part, rfl⟩ := Cluster.exists_gather_of_mem_grow (t.mem_clusters h)
  rw [Cluster.members_gather]
  exact (Grouping.nodup_places _ _).sublist (part.map _)

theorem exists_of_member (h : t.cluster = some c) {i : Nat} (member : i ∈ c.members) :
    ∃ p, t.rest[i]? = some p := by
  obtain ⟨g, candidate⟩ := (Grouping.covered_of_mem_clusters (t.mem_clusters h)).members i member
  have found := (Grouping.mem_candidates.1 candidate).1
  rw [List.getElem?_map, Option.map_eq_some_iff] at found
  obtain ⟨p, hp, -⟩ := found
  exact ⟨p, hp⟩

theorem total_subset (h : t.cluster = some c) : c.total.declarations ⊆ t.target.declarations :=
  fun _ hd => Grouping.log_subset_of_mem_clusters (t.mem_clusters h) (mem_of_mem_resolve hd)

/-- The target loses the size of what its cluster declares. -/
theorem size_finished (h : t.cluster = some c) :
    t.finished.grouping.size + c.total.declarationSize = t.target.grouping.size := by
  have nodup : ∀ g : Grouping String, g.declarations.Nodup :=
    fun g => (nodup_resolve g.log).of_map _
  have left : t.finished.grouping.declarations =
      t.target.grouping.declarations.filter (· ∉ c.total.declarations) :=
    t.declarations_finished_of_some h
  have split := declarationsSize_filter_notMem (nodup _) (nodup _) (t.total_subset h)
  have selectors : t.finished.grouping.selectors = t.target.grouping.selectors :=
    t.selectors_finished
  rw [← left] at split
  unfold Grouping.size Grouping.declarationSize Grouping.selectorSize
  rw [selectors]
  omega

/-- What a turn does to the size of the target and the pieces behind it. -/
theorem size_turn (h : t.cluster = some c) :
    (totalSize (groupings (t.finished :: t.others)) : Int) + c.total.declarationSize =
      totalSize (groupings (t.target :: t.rest)) +
        (c.members.map fun i => t.rest[i]?.elim 0 (Piece.growth t.target.selectors)).sum := by
  have target := t.size_finished h
  have members : t.members = c.members := by simp [members, h]
  have others := Piece.totalSize_handOver t.target.selectors (t.nodup_members h) t.rest
  rw [← members] at others ⊢
  simp only [Piece.groupings_cons, totalSize_cons, Turn.others]
  omega

/-- What a turn saves by the score of its cluster, if all selectors that it hands over are new to
pieces that have some; it never saves less. -/
def worth : Int :=
  t.cluster.elim 0 fun c => c.score t.target.grouping.selectorSize - c.members.length

theorem worth_le_saving : t.worth ≤
    (totalSize (groupings (t.target :: t.rest)) : Int) -
      totalSize (groupings (t.finished :: t.others)) := by
  cases h : t.cluster with
  | none => simp [worth, h, finished, t.others_of_none h]
  | some c =>
    have cheap : ∀ n ∈ c.members.map fun i => t.rest[i]?.elim 0 (Piece.growth t.target.selectors),
        n ≤ (t.target.grouping.selectorSize + 1 : Int) := by
      intro n hn
      obtain ⟨i, member, rfl⟩ := List.mem_map.1 hn
      obtain ⟨p, found⟩ := t.exists_of_member h member
      rw [found]
      exact Piece.growth_le t.target p
    have handed := List.sum_le_card_nsmul _ _ cheap
    have turn := t.size_turn h
    rw [List.length_map, nsmul_eq_mul] at handed
    simp only [worth, h, Option.elim_some, Cluster.score]
    linarith

theorem worth_eq_saving (h : t.cluster = some c) (distinct : t.target.selectors.Nodup)
    (some : t.target.selectors ≠ [])
    (apart : ∀ i ∈ c.members, ∀ p, t.rest[i]? = .some p →
      p.selectors ≠ [] ∧ t.target.selectors.Disjoint p.selectors) :
    t.worth = (totalSize (groupings (t.target :: t.rest)) : Int) -
      totalSize (groupings (t.finished :: t.others)) := by
  have cost : ∀ n ∈ c.members.map fun i => t.rest[i]?.elim 0 (Piece.growth t.target.selectors),
      n = (t.target.grouping.selectorSize + 1 : Int) := by
    intro n hn
    obtain ⟨i, member, rfl⟩ := List.mem_map.1 hn
    obtain ⟨p, found⟩ := t.exists_of_member h member
    obtain ⟨named, disjoint⟩ := apart i member p found
    rw [found]
    exact Piece.growth_of_disjoint distinct some named disjoint
  have handed := List.sum_eq_card_nsmul _ _ cost
  have turn := t.size_turn h
  rw [List.length_map, nsmul_eq_mul] at handed
  simp only [worth, h, Option.elim_some, Cluster.score]
  linarith

end Turn

/-- The list after some turns of the pass: the targets of these are finished, and the pieces behind
them are as they are then. -/
def afterTurns : Nat → List Piece → List Piece
  | 0, ps => ps
  | _ + 1, [] => []
  | n + 1, p :: ps => Turn.finished ⟨p, ps⟩ :: afterTurns n (Turn.others ⟨p, ps⟩)

theorem afterTurns_length (ps : List Piece) :
    afterTurns ps.length ps = (turns ps).map Turn.finished := by
  match ps with
  | [] => rw [turns_nil]; rfl
  | p :: ps =>
    have later := afterTurns_length (Turn.others ⟨p, ps⟩)
    rw [Turn.length_others] at later
    rw [turns_cons, List.map_cons, ← later]
    rfl
termination_by ps.length
decreasing_by simp [Turn.length_others]

/-- What one turn changes in the list. -/
theorem exists_afterTurns {ps : List Piece} {i : Nat} {t : Turn} (h : (turns ps)[i]? = some t) :
    ∃ done, afterTurns i ps = done ++ t.target :: t.rest ∧
      afterTurns (i + 1) ps = done ++ t.finished :: t.others := by
  induction i generalizing ps with
  | zero =>
    cases ps with
    | nil => simp [turns_nil] at h
    | cons p ps =>
      rw [turns_cons, List.getElem?_cons_zero] at h
      cases Option.some.inj h
      exact ⟨[], rfl, rfl⟩
  | succ i ih =>
    cases ps with
    | nil => simp [turns_nil] at h
    | cons p ps =>
      rw [turns_cons, List.getElem?_cons_succ] at h
      obtain ⟨done, start, stop⟩ := ih h
      refine ⟨Turn.finished ⟨p, ps⟩ :: done, ?_, ?_⟩
      · rw [afterTurns, start]; rfl
      · rw [afterTurns, stop]; rfl

theorem groupings_append (ps qs : List Piece) :
    groupings (ps ++ qs) = groupings ps ++ groupings qs := List.map_append

/-- A run saves at least what its turns are worth. -/
theorem sum_worth_le (ps : List Piece) :
    ((turns ps).map Turn.worth).sum ≤
      (totalSize (groupings ps) : Int) - totalSize (groupings ((turns ps).map Turn.finished)) := by
  match ps with
  | [] => simp [turns_nil, groupings]
  | p :: ps =>
    have first := Turn.worth_le_saving ⟨p, ps⟩
    have later := sum_worth_le (Turn.others ⟨p, ps⟩)
    simp only [turns_cons, List.map_cons, List.sum_cons, Piece.groupings_cons, totalSize_cons,
      Nat.cast_add] at first later ⊢
    linarith
termination_by ps.length
decreasing_by simp [Turn.length_others]

/-- The pass makes groupings smaller by at least what the clusters that it takes out of targets score,
less one character for each of their members. Where a target hands selectors to members that have
some, and have none of these, its turn makes the whole list smaller by just as much. -/
theorem saving_of_scores (gs : List (Grouping String)) :
    let given := Piece.largestFirst (Piece.ofGroupings gs)
    let out := (factorShared (Piece.ofGroupings gs)).value
    ((turns given).map Turn.worth).sum ≤ (totalSize gs : Int) - totalSize (groupings out.result) ∧
      (afterTurns 0 given = given ∧ afterTurns given.length given = out.left) ∧
      ((∀ g ∈ gs, g.selectors.Nodup) → ∀ (i : Nat) t c, (turns given)[i]? = some t →
        t.cluster = some c → t.target.selectors ≠ [] →
        (∀ k ∈ c.members, ∀ p, t.rest[k]? = some p →
          p.selectors ≠ [] ∧ t.target.selectors.Disjoint p.selectors) →
        (totalSize (groupings (afterTurns i given)) : Int) -
            totalSize (groupings (afterTurns (i + 1) given)) =
          c.score t.target.grouping.selectorSize - c.members.length) := by
  intro given out
  have left : out.left = (turns given).map Turn.finished := value_factorFrom given
  refine ⟨?_, ⟨rfl, (afterTurns_length given).trans left.symm⟩, ?_⟩
  · have run := sum_worth_le given
    have sorted : totalSize (groupings given) = totalSize gs := by
      have perm : (groupings given).Perm (groupings (Piece.ofGroupings gs)) :=
        (Piece.largestFirst_perm _).map _
      rw [totalSize_perm perm, Piece.groupings_ofGroupings]
    have dropped : totalSize (groupings out.result) ≤ totalSize (groupings out.left) :=
      totalSize_le_of_sublist (List.filter_sublist.map _)
    rw [sorted, ← left] at run
    omega
  · intro nodup i t c turn taken some apart
    have distinct : t.target.selectors.Nodup := by
      have target := target_turns given i
      rw [turn, Option.map_some] at target
      obtain ⟨p, found, same⟩ := Option.map_eq_some_iff.1 target.symm
      have member : p.grouping ∈ groupings (Piece.ofGroupings gs) :=
        List.mem_map_of_mem ((Piece.largestFirst_perm _).subset (List.mem_of_getElem? found))
      rw [Piece.groupings_ofGroupings] at member
      rw [← same]
      exact Grouping.nodup_insertSelectors (nodup _ member) _
    obtain ⟨done, start, stop⟩ := exists_afterTurns turn
    have saved := t.worth_eq_saving taken distinct some apart
    simp only [Turn.worth, taken, Option.elim_some] at saved
    rw [start, stop, groupings_append, groupings_append, totalSize_append, totalSize_append]
    omega

/-- The first grouping declares what the two others declare together. -/
def covered : List (Grouping String) :=
  [⟨["b"], [⟨"x", "1"⟩, ⟨"y", "2"⟩]⟩, ⟨["a", "d"], [⟨"x", "1"⟩, ⟨"y", "2"⟩, ⟨"z", "3"⟩]⟩,
    ⟨["c"], [⟨"z", "3"⟩]⟩]

/-- Both others take over the selectors of the large grouping, which loses all its declarations. -/
theorem saving_of_scores_covered :
    let given := Piece.largestFirst (Piece.ofGroupings covered)
    let t : Turn := ⟨⟨some 1, ⟨["a", "d"], [⟨"x", "1"⟩, ⟨"y", "2"⟩, ⟨"z", "3"⟩]⟩⟩,
      [⟨some 0, ⟨["b"], [⟨"x", "1"⟩, ⟨"y", "2"⟩]⟩⟩, ⟨some 2, ⟨["c"], [⟨"z", "3"⟩]⟩⟩]⟩
    let c : Cluster := ⟨⟨["b", "c"], [⟨"x", "1"⟩, ⟨"y", "2"⟩, ⟨"z", "3"⟩]⟩, [0, 1]⟩
    ((∀ g ∈ covered, g.selectors.Nodup) ∧ (turns given)[0]? = some t ∧ t.cluster = some c ∧
      t.target.selectors ≠ [] ∧ ∀ k ∈ c.members, ∀ p, t.rest[k]? = some p →
        p.selectors ≠ [] ∧ t.target.selectors.Disjoint p.selectors) ∧
      (totalSize (groupings (afterTurns 0 given)) : Int) -
          totalSize (groupings (afterTurns 1 given)) =
        c.score t.target.grouping.selectorSize - c.members.length := by
  intro given t c
  have nodup : ∀ g ∈ covered, g.selectors.Nodup := by decide
  have sorted : given = t.target :: t.rest := by
    dsimp only [given, t]
    cbv
  have turn : (turns given)[0]? = some t := by
    rw [sorted, turns_cons]
    rfl
  have taken : t.cluster = some c := by decide
  have named : t.target.selectors ≠ [] := by decide
  have apart : ∀ k ∈ c.members, ∀ p, t.rest[k]? = some p →
      p.selectors ≠ [] ∧ t.target.selectors.Disjoint p.selectors := by
    intro k hk p hp
    simp only [c, List.mem_cons, List.not_mem_nil, or_false] at hk
    rcases hk with rfl | rfl
    · cases hp
      simp [t, Piece.selectors]
    · cases hp
      simp [t, Piece.selectors]
  exact ⟨⟨nodup, turn, taken, named, apart⟩,
    (saving_of_scores covered).2.2 nodup 0 t c turn taken named apart⟩

end StyleFactor
