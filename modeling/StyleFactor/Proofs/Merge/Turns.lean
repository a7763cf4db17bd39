import StyleFactor.Merge.Shared
import StyleFactor.Proofs.Grouping.Table
import StyleFactor.Proofs.Merge.Coverage

/-!
Factoring out shared declarations, one turn for each piece. A turn changes the declarations of its
target only, and the selectors of later pieces only; so each target comes to its turn with the
declarations it was given with, and leaves it as it will be in the end (`target_turns`,
`declarations_turns`). Main statement: what the whole pass does, said of the places in the sorted
list (`factorShared_turns`).
-/
namespace StyleFactor

/-- What the piece at a place declares; nothing if there is none. -/
def Piece.declarationsAt (ps : List Piece) (i : Nat) : List (Declaration String) :=
  ps[i]?.elim [] declarations

def Piece.selectorsAt (ps : List Piece) (i : Nat) : List String := ps[i]?.elim [] selectors

theorem Piece.declarationsAt_eq {ps : List Piece} {i : Nat} {p : Piece} (found : ps[i]? = some p) :
    declarationsAt ps i = p.declarations := by
  rw [declarationsAt, found, Option.elim_some]

theorem Piece.mem_declarationsAt {ps : List Piece} {i : Nat} {d : Declaration String} :
    d ∈ declarationsAt ps i ↔ ∃ p, ps[i]? = some p ∧ d ∈ p.declarations := by
  cases found : ps[i]? with
  | none => simp [declarationsAt, found]
  | some p => simp [declarationsAt, found]

theorem Piece.getElem?_handOver (ss : List String) (places : List Nat) (ps : List Piece) (i : Nat) :
    (handOver ss places ps)[i]? =
      ps[i]?.map fun p => if i ∈ places then p.insertSelectors ss else p := by
  simp [handOver]

/-- A piece as the target, and the pieces after it, as they are when its turn comes. -/
structure Turn where
  target : Piece
  rest : List Piece
  deriving DecidableEq, Repr

namespace Turn

variable (t : Turn)

/-- The places of the pieces that are part of the target, counted from behind it. -/
def candidates : List Nat :=
  (t.target.grouping.candidates (t.rest.map (·.grouping))).map (·.2)

/-- What is taken out of the target. -/
def cluster : Option Cluster := t.target.chosen t.rest

/-- The places of the members of the cluster, counted from behind the target. -/
def members : List Nat := t.cluster.elim [] (·.members)

/-- The target after its turn. -/
def finished : Piece := t.cluster.elim t.target t.target.without

/-- The pieces behind the target after its turn. -/
def others : List Piece := Piece.handOver t.target.selectors t.members t.rest

theorem length_others : t.others.length = t.rest.length := Piece.length_handOver _ _ _

end Turn

/-- All turns of the pass, in their order. -/
def turns : List Piece → List Turn
  | [] => []
  | p :: ps => ⟨p, ps⟩ :: turns (Turn.others ⟨p, ps⟩)
termination_by ps => ps.length
decreasing_by simp [Turn.length_others]

/-- The places of the pieces considered as members in the turn of the piece at a place. -/
def candidatesAt (ps : List Piece) (i : Nat) : List Nat :=
  ((turns ps)[i]?.elim [] Turn.candidates).map (i + 1 + ·)

/-- The places of the members of the cluster that is taken out of the piece at a place. -/
def membersAt (ps : List Piece) (i : Nat) : List Nat :=
  ((turns ps)[i]?.elim [] Turn.members).map (i + 1 + ·)

/-- The places of the targets that hand their selectors to the piece at a place. -/
def giversTo (ps : List Piece) (j : Nat) : List Nat :=
  (List.range j).filter fun i => j ∈ membersAt ps i

/-! What one turn does. -/

namespace Turn

variable (t : Turn)

theorem selectors_finished : t.finished.selectors = t.target.selectors := by
  unfold finished
  cases t.cluster <;> rfl

theorem origin_finished : t.finished.origin = t.target.origin := by
  unfold finished
  cases t.cluster <;> rfl

theorem getElem?_others (i : Nat) :
    t.others[i]? = t.rest[i]?.map fun p =>
      if i ∈ t.members then p.insertSelectors t.target.selectors else p :=
  Piece.getElem?_handOver _ _ _ i

theorem others_of_none (h : t.cluster = none) : t.others = t.rest := by
  apply List.ext_getElem?
  intro i
  simp [getElem?_others, members, h]

theorem declarationsAt_others (i : Nat) :
    Piece.declarationsAt t.others i = Piece.declarationsAt t.rest i := by
  unfold Piece.declarationsAt
  rw [getElem?_others]
  cases t.rest[i]? with
  | none => rfl
  | some p =>
    by_cases member : i ∈ t.members
    · simp only [member, Option.map_some, if_true]
      exact Grouping.declarations_insertSelectors _ _
    · simp [member]

theorem mem_candidates {i : Nat} :
    i ∈ t.candidates ↔ Piece.declarationsAt t.rest i ≠ [] ∧
      Piece.declarationsAt t.rest i ⊆ t.target.declarations := by
  simp only [candidates, List.mem_map, Prod.exists, Grouping.mem_candidates, List.getElem?_map,
    Option.map_eq_some_iff, Grouping.isPartOf_iff]
  constructor
  · rintro ⟨_, _, ⟨⟨p, found, rfl⟩, ⟨d, hd⟩, part⟩, rfl⟩
    rw [Piece.declarationsAt_eq found]
    exact ⟨List.ne_nil_of_mem hd, part⟩
  · rintro ⟨declares, part⟩
    obtain ⟨d, hd⟩ := List.exists_mem_of_ne_nil _ declares
    obtain ⟨p, found, hd⟩ := Piece.mem_declarationsAt.1 hd
    rw [Piece.declarationsAt_eq found] at part
    exact ⟨p.grouping, i, ⟨⟨p, found, rfl⟩, ⟨d, hd⟩, part⟩, rfl⟩

theorem mem_clusters {c : Cluster} (h : t.cluster = some c) :
    c ∈ t.target.grouping.clusters (t.rest.map (·.grouping)) := Cluster.mem_of_best h

theorem members_subset_candidates : t.members ⊆ t.candidates := by
  intro i member
  cases h : t.cluster with
  | none => simp [members, h] at member
  | some c =>
    simp only [members, h, Option.elim_some] at member
    obtain ⟨g, candidate⟩ := (Grouping.covered_of_mem_clusters (t.mem_clusters h)).members i member
    exact List.mem_map_of_mem candidate

theorem members_eq_nil_iff : t.members = [] ↔ t.candidates = [] := by
  constructor
  · intro none
    cases h : t.cluster with
    | none =>
      have nothing := Cluster.grow_eq_nil.1 (Cluster.best_eq_none.1 h)
      simp [candidates, nothing]
    | some c =>
      simp only [members, h, Option.elim_some] at none
      exact absurd none (Cluster.members_ne_nil_of_mem_grow (t.mem_clusters h))
  · intro none
    apply List.subset_nil.1
    rw [← none]
    exact t.members_subset_candidates

/-- A cluster declares what its members declare. -/
theorem mem_total {c : Cluster} (h : t.cluster = some c) {d : Declaration String} :
    d ∈ c.total.declarations ↔ ∃ i ∈ c.members, d ∈ Piece.declarationsAt t.rest i := by
  have clusters := t.mem_clusters h
  simp only [Piece.mem_declarationsAt]
  constructor
  · intro hd
    obtain ⟨g, i, candidate, member, declares⟩ :=
      (Grouping.covered_of_mem_clusters clusters).declarations d hd
    have found := (Grouping.mem_candidates.1 candidate).1
    rw [List.getElem?_map, Option.map_eq_some_iff] at found
    obtain ⟨p, found, rfl⟩ := found
    exact ⟨i, member, p, found, declares⟩
  · rintro ⟨i, member, p, found, hd⟩
    have place : (t.rest.map (·.grouping))[i]? = some p.grouping := by simp [found]
    exact Grouping.mem_total_of_mem_clusters clusters place member hd

theorem declarations_finished_of_some {c : Cluster} (h : t.cluster = some c) :
    t.finished.declarations = t.target.declarations.filter (· ∉ c.total.declarations) := by
  simp only [finished, h, Option.elim_some]
  exact Table.declarations_retract _ _

/-- The target loses what the members of its cluster declare. -/
theorem declarations_finished :
    t.finished.declarations =
      t.target.declarations.filter fun d => ∀ i ∈ t.members, d ∉ Piece.declarationsAt t.rest i := by
  cases h : t.cluster with
  | none =>
    have kept : t.finished.declarations = t.target.declarations := by simp [finished, h]
    rw [kept]
    apply (List.filter_eq_self.2 _).symm
    simp [members, h]
  | some c =>
    rw [t.declarations_finished_of_some h]
    apply List.filter_congr
    intro d _
    simp [t.mem_total h, members, h]

end Turn

/-! What the turns do together. -/

theorem turns_nil : turns [] = [] := by rw [turns]

theorem turns_cons (p : Piece) (ps : List Piece) :
    turns (p :: ps) = ⟨p, ps⟩ :: turns (Turn.others ⟨p, ps⟩) := by
  rw [turns]

theorem value_factorFrom (ps : List Piece) :
    (factorFrom ps).value = (turns ps).map Turn.finished := by
  match ps with
  | [] => rw [factorFrom, turns_nil]; rfl
  | p :: ps =>
    have later := value_factorFrom (Turn.others ⟨p, ps⟩)
    rw [value_factorFrom_cons, turns_cons, List.map_cons, ← later]
    cases h : p.chosen ps with
    | none =>
      have nobody : Turn.others ⟨p, ps⟩ = ps := Turn.others_of_none ⟨p, ps⟩ h
      simp [Turn.finished, Turn.cluster, h, nobody]
    | some c => simp [Turn.finished, Turn.others, Turn.members, Turn.cluster, h]
termination_by ps.length
decreasing_by simp [Turn.length_others]

theorem length_turns (ps : List Piece) : (turns ps).length = ps.length := by
  match ps with
  | [] => rw [turns_nil]; rfl
  | p :: ps =>
    have later := length_turns (Turn.others ⟨p, ps⟩)
    rw [turns_cons, List.length_cons, later, Turn.length_others, List.length_cons]
termination_by ps.length
decreasing_by simp [Turn.length_others]

theorem membersAt_zero (p : Piece) (ps : List Piece) :
    membersAt (p :: ps) 0 = (Turn.members ⟨p, ps⟩).map (· + 1) := by
  rw [membersAt, turns_cons, List.getElem?_cons_zero, Option.elim_some]
  apply List.map_congr_left
  intro k _
  omega

theorem membersAt_succ (p : Piece) (ps : List Piece) (i : Nat) :
    membersAt (p :: ps) (i + 1) = (membersAt (Turn.others ⟨p, ps⟩) i).map (· + 1) := by
  simp only [membersAt, turns_cons, List.getElem?_cons_succ, List.map_map]
  apply List.map_congr_left
  intro k _
  dsimp only [Function.comp_apply]
  omega

theorem giversTo_succ (p : Piece) (ps : List Piece) (j : Nat) :
    giversTo (p :: ps) (j + 1) =
      (if j ∈ Turn.members ⟨p, ps⟩ then [0] else []) ++
        (giversTo (Turn.others ⟨p, ps⟩) j).map (· + 1) := by
  have first : j + 1 ∈ membersAt (p :: ps) 0 ↔ j ∈ Turn.members ⟨p, ps⟩ := by
    simp [membersAt_zero]
  have later : ∀ i, j + 1 ∈ membersAt (p :: ps) (i + 1) ↔
      j ∈ membersAt (Turn.others ⟨p, ps⟩) i := by
    intro i
    simp [membersAt_succ]
  simp only [giversTo, List.range_succ_eq_map, List.filter_cons, List.filter_map, first,
    Function.comp_def, Nat.succ_eq_add_one, later, decide_eq_true_eq]
  split <;> rfl

/-- A target comes to its turn as it was given, but for the selectors that were handed to it. -/
theorem target_turns (ps : List Piece) (j : Nat) :
    (turns ps)[j]?.map (·.target) = ps[j]?.map fun p =>
      p.insertSelectors ((giversTo ps j).flatMap (Piece.selectorsAt ((turns ps).map (·.target)))) := by
  induction j generalizing ps with
  | zero =>
    cases ps with
    | nil => simp [turns_nil]
    | cons p ps =>
      rw [turns_cons]
      rfl
  | succ j ih =>
    cases ps with
    | nil => simp [turns_nil]
    | cons p ps =>
      -- the first target hands its selectors on first, the later ones as in the rest of the pass
      have first : Piece.selectorsAt ((turns (p :: ps)).map (·.target)) 0 = p.selectors := by
        rw [turns_cons]
        rfl
      have later : ∀ i, Piece.selectorsAt ((turns (p :: ps)).map (·.target)) (i + 1) =
          Piece.selectorsAt ((turns (Turn.others ⟨p, ps⟩)).map (·.target)) i := by
        intro i
        rw [turns_cons]
        rfl
      have step : (turns (p :: ps))[j + 1]? = (turns (Turn.others ⟨p, ps⟩))[j]? := by
        rw [turns_cons, List.getElem?_cons_succ]
      rw [step, ih, Turn.getElem?_others, Option.map_map, List.getElem?_cons_succ, giversTo_succ]
      apply congrArg (Option.map · ps[j]?)
      funext q
      dsimp only [Function.comp_apply]
      rw [List.flatMap_append, List.flatMap_map]
      simp only [later]
      split
      · rw [Piece.insertSelectors_append, List.flatMap_singleton, first]
      · rfl

theorem declarationsAt_cons_succ (p : Piece) (ps : List Piece) (i : Nat) :
    Piece.declarationsAt (p :: ps) (i + 1) = Piece.declarationsAt ps i := rfl

/-- A target comes to its turn with the declarations it was given with, and so do all pieces after
it. -/
theorem declarations_turns {ps : List Piece} {i : Nat} {t : Turn} (h : (turns ps)[i]? = some t) :
    t.target.declarations = Piece.declarationsAt ps i ∧
      ∀ k, Piece.declarationsAt t.rest k = Piece.declarationsAt ps (i + 1 + k) := by
  induction i generalizing ps with
  | zero =>
    cases ps with
    | nil => simp [turns_nil] at h
    | cons p ps =>
      rw [turns_cons, List.getElem?_cons_zero] at h
      cases Option.some.inj h
      refine ⟨rfl, fun k => ?_⟩
      rw [Nat.zero_add, Nat.add_comm, declarationsAt_cons_succ]
  | succ i ih =>
    cases ps with
    | nil => simp [turns_nil] at h
    | cons p ps =>
      rw [turns_cons, List.getElem?_cons_succ] at h
      obtain ⟨target, rest⟩ := ih h
      constructor
      · rw [target, Turn.declarationsAt_others, declarationsAt_cons_succ]
      · intro k
        have place : i + 1 + 1 + k = i + 1 + k + 1 := by omega
        rw [rest, Turn.declarationsAt_others, place, declarationsAt_cons_succ]

/-! What the turns come to, said of places in the list. -/

section

variable (ps : List Piece) (i : Nat)

theorem declarationsAt_of_turns_none (h : (turns ps)[i]? = none) :
    Piece.declarationsAt ps i = [] := by
  rw [List.getElem?_eq_none_iff, length_turns, ← List.getElem?_eq_none_iff] at h
  rw [Piece.declarationsAt, h, Option.elim_none]

theorem mem_candidatesAt {j : Nat} :
    j ∈ candidatesAt ps i ↔ i < j ∧ Piece.declarationsAt ps j ≠ [] ∧
      Piece.declarationsAt ps j ⊆ Piece.declarationsAt ps i := by
  cases h : (turns ps)[i]? with
  | none =>
    -- neither the place nor any later one is a place of the list
    simp only [candidatesAt, h, Option.elim_none, List.map_nil, List.not_mem_nil, false_iff]
    rintro ⟨_, declares, part⟩
    rw [declarationsAt_of_turns_none ps i h] at part
    exact declares (List.subset_nil.1 part)
  | some t =>
    obtain ⟨target, rest⟩ := declarations_turns h
    simp only [candidatesAt, h, Option.elim_some, List.mem_map, Turn.mem_candidates, target, rest]
    constructor
    · rintro ⟨k, isPart, rfl⟩
      exact ⟨by omega, isPart⟩
    · rintro ⟨behind, isPart⟩
      have place : i + 1 + (j - (i + 1)) = j := by omega
      exact ⟨j - (i + 1), place.symm ▸ isPart, place⟩

theorem membersAt_subset_candidatesAt : membersAt ps i ⊆ candidatesAt ps i := by
  unfold membersAt candidatesAt
  apply List.map_subset
  cases (turns ps)[i]? with
  | none => exact List.Subset.refl _
  | some t => exact t.members_subset_candidates

theorem membersAt_eq_nil_iff : membersAt ps i = [] ↔ candidatesAt ps i = [] := by
  unfold membersAt candidatesAt
  rw [List.map_eq_nil_iff, List.map_eq_nil_iff]
  cases (turns ps)[i]? with
  | none => rfl
  | some t => exact t.members_eq_nil_iff

theorem declarationsAt_finished :
    Piece.declarationsAt ((turns ps).map Turn.finished) i =
      (Piece.declarationsAt ps i).filter fun d =>
        ∀ j ∈ membersAt ps i, d ∉ Piece.declarationsAt ps j := by
  cases h : (turns ps)[i]? with
  | none =>
    rw [declarationsAt_of_turns_none ps i h, List.filter_nil]
    simp [Piece.declarationsAt, h]
  | some t =>
    obtain ⟨target, rest⟩ := declarations_turns h
    have own : Piece.declarationsAt ((turns ps).map Turn.finished) i = t.finished.declarations := by
      simp [Piece.declarationsAt, h]
    rw [own, Turn.declarations_finished, target]
    apply List.filter_congr
    intro d _
    simp [membersAt, h, rest]

theorem selectorsAt_finished :
    Piece.selectorsAt ((turns ps).map Turn.finished) =
      Piece.selectorsAt ((turns ps).map (·.target)) := by
  funext i
  simp only [Piece.selectorsAt, List.getElem?_map]
  cases (turns ps)[i]? with
  | none => rfl
  | some t => exact t.selectors_finished

end

namespace Piece

variable (ps : List Piece)

theorem largestFirst_perm : (largestFirst ps).Perm ps := List.mergeSort_perm ps _

theorem larger_trans (p q r : Piece)
    (first : decide (q.declarations.length ≤ p.declarations.length) = true)
    (second : decide (r.declarations.length ≤ q.declarations.length) = true) :
    decide (r.declarations.length ≤ p.declarations.length) = true := by
  simp only [decide_eq_true_eq] at first second ⊢
  omega

theorem larger_total (p q : Piece) :
    (decide (q.declarations.length ≤ p.declarations.length) ||
      decide (p.declarations.length ≤ q.declarations.length)) = true := by
  simp only [Bool.or_eq_true, decide_eq_true_eq]
  omega

theorem pairwise_largestFirst :
    (largestFirst ps).Pairwise fun p q => q.declarations.length ≤ p.declarations.length := by
  apply (List.pairwise_mergeSort larger_trans larger_total ps).imp
  intro p q larger
  exact of_decide_eq_true larger

/-- Pieces with equally many declarations stay in their order. -/
theorem filter_largestFirst (n : Nat) :
    (largestFirst ps).filter (·.declarations.length = n) =
      ps.filter (·.declarations.length = n) := by
  have equal : (ps.filter (·.declarations.length = n)).Pairwise
      fun p q => decide (q.declarations.length ≤ p.declarations.length) = true := by
    apply List.pairwise_of_forall_mem_list
    intro p hp q hq
    simp only [List.mem_filter, decide_eq_true_eq] at hp hq ⊢
    omega
  have stays : (ps.filter (·.declarations.length = n)).Sublist (largestFirst ps) :=
    List.sublist_mergeSort larger_trans larger_total equal List.filter_sublist
  have kept := stays.filter (·.declarations.length = n)
  rw [List.filter_filter] at kept
  simp only [Bool.and_self] at kept
  apply (kept.eq_of_length _).symm
  exact ((largestFirst_perm ps).filter _).length_eq.symm

end Piece

theorem origins_finished (ps : List Piece) :
    ((turns ps).map Turn.finished).map (·.origin) = ps.map (·.origin) := by
  apply List.ext_getElem?
  intro i
  have given := congrArg (Option.map (·.origin)) (target_turns ps i)
  rw [Option.map_map, Option.map_map] at given
  simp only [List.map_map, List.getElem?_map, Function.comp_def, Turn.origin_finished]
  exact given

/-- The pass sorts the list by the number of declarations, the largest piece first, and pieces with
equally many stay in their order. In the turn of a piece just those behind it are considered that
declare something and nothing that it does not declare, all as given. It loses what the members of
its cluster were given with. A piece gets the selectors of the targets whose clusters it is a member
of, as they are in the end, one target after the other and each selector once. The pieces that
declare something in the end are returned, in the order of the list. -/
theorem factorShared_turns (ps : List Piece) :
    let out := (factorShared ps).value
    let given := Piece.largestFirst ps
    (given.Perm ps ∧
      (given.Pairwise fun p q => q.declarations.length ≤ p.declarations.length) ∧
      ∀ n, given.filter (·.declarations.length = n) = ps.filter (·.declarations.length = n)) ∧
    (out.left = (turns given).map Turn.finished ∧
      out.left.map (·.origin) = given.map (·.origin)) ∧
    (∀ i j, j ∈ candidatesAt given i ↔ i < j ∧ Piece.declarationsAt given j ≠ [] ∧
      Piece.declarationsAt given j ⊆ Piece.declarationsAt given i) ∧
    (∀ i, membersAt given i ⊆ candidatesAt given i ∧
      (membersAt given i = [] ↔ candidatesAt given i = [])) ∧
    (∀ i, Piece.declarationsAt out.left i = (Piece.declarationsAt given i).filter fun d =>
      ∀ j ∈ membersAt given i, d ∉ Piece.declarationsAt given j) ∧
    (∀ j : Nat, out.left[j]?.map Piece.selectors = given[j]?.map fun p : Piece =>
      (p.insertSelectors ((giversTo given j).flatMap (Piece.selectorsAt out.left))).selectors) ∧
    out.result = out.left.filter (·.declarations ≠ []) := by
  intro out given
  have left : out.left = (turns given).map Turn.finished := value_factorFrom given
  have handed : ∀ j : Nat, out.left[j]?.map Piece.selectors = given[j]?.map fun p : Piece =>
      (p.insertSelectors ((giversTo given j).flatMap (Piece.selectorsAt out.left))).selectors := by
    intro j
    have final := congrArg (Option.map Piece.selectors) (target_turns given j)
    rw [Option.map_map, Option.map_map] at final
    rw [left, selectorsAt_finished]
    simp only [List.getElem?_map, Option.map_map, Function.comp_def, Turn.selectors_finished]
    exact final
  have returned : out.result = out.left.filter (·.declarations ≠ []) := by
    apply List.filter_congr
    intro p _
    cases p.declarations <;> rfl
  refine ⟨⟨Piece.largestFirst_perm ps, Piece.pairwise_largestFirst ps, Piece.filter_largestFirst ps⟩,
    ⟨left, ?_⟩, fun i j => mem_candidatesAt given i, fun i => ⟨?_, ?_⟩, ?_, handed, returned⟩
  · rw [left]
    exact origins_finished given
  · exact membersAt_subset_candidatesAt given i
  · exact membersAt_eq_nil_iff given i
  · intro i
    rw [left]
    exact declarationsAt_finished given i

end StyleFactor
