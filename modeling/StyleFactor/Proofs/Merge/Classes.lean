import Mathlib
import StyleFactor.Proofs.Merge.Partition

/-!
Merging equal groupings, said at once instead of step by step. Pieces fall into classes of one
style; each class is left to its first piece, which gets the selectors of all others, the last piece
first. Main statement: `mergeEqual_classes`.
-/
namespace StyleFactor

namespace Grouping

/-- Both declare something, and no property tells them apart. -/
def SameStyle (g h : Grouping String) : Prop :=
  g.declarations ≠ [] ∧ h.declarations ≠ [] ∧
    ∀ p, lookup g.declarations p = lookup h.declarations p

variable {g h k : Grouping String}

theorem agrees_iff_sameStyle : g.agrees h = true ↔ g.SameStyle h := by
  have equal : (∀ p, lookup g.declarations p = lookup h.declarations p) ↔
      ∀ d, d ∈ g.declarations ↔ d ∈ h.declarations := lookup_resolve_congr
  rw [agrees_iff, SameStyle, equal]
  constructor
  · rintro ⟨same, d, hd⟩
    exact ⟨List.ne_nil_of_mem hd, List.ne_nil_of_mem ((same d).1 hd), same⟩
  · rintro ⟨declares, -, same⟩
    exact ⟨same, List.exists_mem_of_ne_nil _ declares⟩

instance (g h : Grouping String) : Decidable (g.SameStyle h) :=
  decidable_of_iff _ agrees_iff_sameStyle

theorem SameStyle.symm (same : g.SameStyle h) : h.SameStyle g :=
  ⟨same.2.1, same.1, fun p => (same.2.2 p).symm⟩

theorem SameStyle.trans (first : g.SameStyle h) (second : h.SameStyle k) : g.SameStyle k :=
  ⟨first.1, second.2.1, fun p => (first.2.2 p).trans (second.2.2 p)⟩

end Grouping

/-! Pieces by their places in a list. -/

section

variable {n : Nat} (f : Fin n → Piece)

/-- The piece declares nothing, or no piece of its style comes before it. -/
def Leads (i : Fin n) : Prop :=
  (f i).declarations = [] ∨ ∀ j < i, ¬(f j).grouping.SameStyle (f i).grouping

instance : DecidablePred (Leads f) := fun _ => inferInstanceAs (Decidable (_ ∨ _))

/-- All places, the last one first. -/
def backwards (n : Nat) : List (Fin n) := (List.finRange n).reverse

/-- The places of the other pieces of the same style, the last one first. -/
def fellows (i : Fin n) : List (Fin n) :=
  (backwards n).filter fun j => j ≠ i ∧ (f i).grouping.SameStyle (f j).grouping

/-- The piece with the selectors of its fellows. -/
def joined (i : Fin n) : Piece := (f i).insertSelectors ((fellows f i).flatMap fun j => (f j).selectors)

end

theorem backwards_succ (n : Nat) :
    backwards (n + 1) = Fin.last n :: (backwards n).map Fin.castSucc := by
  simp [backwards, List.finRange_succ_last, List.map_reverse]

theorem map_filter_backwards {n : Nat} (P : Fin (n + 1) → Prop) [DecidablePred P]
    (f : Fin (n + 1) → Piece) :
    ((backwards (n + 1)).filter (P ·)).map f =
      (if P (Fin.last n) then [f (Fin.last n)] else []) ++
        ((backwards n).filter (P ·.castSucc)).map fun i => f i.castSucc := by
  rw [backwards_succ, List.filter_cons, List.filter_map]
  split <;> simp_all [Function.comp_def]

theorem reverse_ofFn_succ {n : Nat} (f : Fin (n + 1) → Piece) :
    (List.ofFn f).reverse = f (Fin.last n) :: (List.ofFn fun i => f i.castSucc).reverse := by
  rw [List.ofFn_succ', List.concat_eq_append, List.reverse_append]
  rfl

/-- The host is the last piece taken into account that agrees. -/
theorem absorb_append {c p : Piece} (front back : List Piece)
    (agree : c.grouping.agrees p.grouping = true)
    (others : ∀ q ∈ back, c.grouping.agrees q.grouping = false) :
    absorb c (front ++ p :: back) = some (p, front ++ p.insertSelectors c.selectors :: back) := by
  induction front with
  | nil =>
    rw [List.nil_append, absorb, absorb_eq_none.2 others]
    simp only [agree, if_true, List.nil_append]
  | cons q front ih => rw [List.cons_append, absorb, ih]; rfl

section

variable {n : Nat}

/-- The pieces, one of them with more selectors. -/
def handTo (f : Fin n → Piece) (i : Fin n) (ss : List String) : Fin n → Piece :=
  Function.update f i ((f i).insertSelectors ss)

variable (f : Fin n → Piece) (i j k : Fin n) (ss : List String)

theorem handTo_self : handTo f i ss i = (f i).insertSelectors ss := by simp [handTo]

variable {i j} in
theorem handTo_of_ne (other : j ≠ i) : handTo f i ss j = f j := by simp [handTo, other]

theorem declarations_handTo : (handTo f i ss j).declarations = (f j).declarations := by
  by_cases h : j = i
  · subst h
    rw [handTo_self]
    exact Grouping.declarations_insertSelectors _ ss
  · rw [handTo_of_ne f ss h]

theorem sameStyle_handTo :
    (handTo f i ss j).grouping.SameStyle (handTo f i ss k).grouping ↔
      (f j).grouping.SameStyle (f k).grouping := by
  have first := declarations_handTo f i j ss
  have second := declarations_handTo f i k ss
  simp only [Piece.declarations] at first second
  simp only [Grouping.SameStyle, first, second]

theorem leads_handTo : Leads (handTo f i ss) j ↔ Leads f j := by
  simp only [Leads, declarations_handTo, sameStyle_handTo]

theorem fellows_handTo : fellows (handTo f i ss) j = fellows f j := by
  simp only [fellows, sameStyle_handTo]

end

theorem ofFn_update {n : Nat} (f : Fin n → Piece) (i : Fin n) (p : Piece) :
    List.ofFn (Function.update f i p) =
      (List.ofFn f).take i ++ p :: (List.ofFn f).drop (i + 1) := by
  have changed : List.ofFn (Function.update f i p) = (List.ofFn f).set i p := by
    apply List.ext_getElem
    · simp
    · intro j _ _
      simp [List.getElem_set, Function.update_apply, Fin.ext_iff, eq_comm]
  rw [changed, List.set_eq_take_append_cons_drop, if_pos]
  simp

/-- The first piece of the style of `c` takes its selectors. -/
theorem absorb_ofFn {n : Nat} {f : Fin n → Piece} {c : Piece} {i : Fin n}
    (same : (f i).grouping.SameStyle c.grouping)
    (first : ∀ j < i, ¬(f j).grouping.SameStyle c.grouping) :
    absorb c (List.ofFn f).reverse =
      some (f i, (List.ofFn (handTo f i c.selectors)).reverse) := by
  have split := ofFn_update f i (f i)
  rw [Function.update_eq_self] at split
  have agree : c.grouping.agrees (f i).grouping = true := Grouping.agrees_iff_sameStyle.2 same.symm
  have others : ∀ q ∈ ((List.ofFn f).take i).reverse, c.grouping.agrees q.grouping = false := by
    intro q hq
    obtain ⟨j, before, rfl⟩ := List.mem_take_iff_getElem.1 (List.mem_reverse.1 hq)
    rw [List.length_ofFn, Nat.lt_min] at before
    rw [List.getElem_ofFn, ← Bool.not_eq_true, Grouping.agrees_iff_sameStyle]
    exact fun same => first ⟨j, before.2⟩ before.1 same.symm
  rw [handTo, ofFn_update]
  nth_rewrite 1 [split]
  simp only [List.reverse_append, List.reverse_cons, List.append_assoc, List.singleton_append]
  exact absorb_append _ _ agree others

section

variable {n : Nat} (f : Fin (n + 1) → Piece) (i : Fin n)

theorem leads_castSucc : Leads f i.castSucc ↔ Leads (fun i => f i.castSucc) i := by
  have below : (∀ j < i.castSucc, ¬(f j).grouping.SameStyle (f i.castSucc).grouping) ↔
      ∀ j < i, ¬(f j.castSucc).grouping.SameStyle (f i.castSucc).grouping := by
    constructor
    · intro h j before
      exact h j.castSucc (Fin.castSucc_lt_castSucc_iff.2 before)
    · intro h j before
      cases j using Fin.lastCases with
      | last => exact absurd before (Fin.castSucc_lt_last i).not_gt
      | cast j => exact h j (Fin.castSucc_lt_castSucc_iff.1 before)
  exact or_congr Iff.rfl below

theorem leads_last :
    Leads f (Fin.last n) ↔
      ∀ i : Fin n, ¬(f i.castSucc).grouping.SameStyle (f (Fin.last n)).grouping := by
  constructor
  · rintro (none | first) i same
    · exact same.2.1 none
    · exact first _ (Fin.castSucc_lt_last i) same
  · intro alone
    refine Or.inr fun j before => ?_
    cases j using Fin.lastCases with
    | last => exact absurd before (lt_irrefl _)
    | cast j => exact alone j

theorem fellows_castSucc :
    fellows f i.castSucc =
      (if (f i.castSucc).grouping.SameStyle (f (Fin.last n)).grouping then [Fin.last n] else []) ++
        (fellows (fun i => f i.castSucc) i).map Fin.castSucc := by
  have distinct : Fin.last n ≠ i.castSucc := (Fin.castSucc_lt_last i).ne'
  simp only [fellows, backwards_succ, List.filter_cons, List.filter_map, Function.comp_def]
  by_cases same : (f i.castSucc).grouping.SameStyle (f (Fin.last n)).grouping
  · simp [same, distinct]
  · simp [same]

theorem fellows_last
    (alone : ∀ i : Fin n, ¬(f i.castSucc).grouping.SameStyle (f (Fin.last n)).grouping) :
    fellows f (Fin.last n) = [] := by
  rw [fellows, List.filter_eq_nil_iff]
  intro j _
  cases j using Fin.lastCases with
  | last => simp
  | cast j =>
    have other : ¬(f (Fin.last n)).grouping.SameStyle (f j.castSucc).grouping :=
      fun same => alone j same.symm
    simp [other]

theorem joined_castSucc :
    joined f i.castSucc =
      (if (f i.castSucc).grouping.SameStyle (f (Fin.last n)).grouping then
        (f i.castSucc).insertSelectors (f (Fin.last n)).selectors else f i.castSucc).insertSelectors
          ((fellows (fun i => f i.castSucc) i).flatMap fun j => (f j.castSucc).selectors) := by
  rw [joined, fellows_castSucc]
  split
  · simp [List.flatMap_map, Piece.insertSelectors_append]
  · simp [List.flatMap_map]

variable {f i} {k : Fin n}

/-- Handing the selectors of the last piece to the first one of its style is what joining comes to,
for every piece that is left in the end. -/
theorem joined_handTo
    (same : (f i.castSucc).grouping.SameStyle (f (Fin.last n)).grouping)
    (first : ∀ j < i, ¬(f j.castSucc).grouping.SameStyle (f (Fin.last n)).grouping)
    (leads : Leads (fun i => f i.castSucc) k) :
    joined (handTo (fun i => f i.castSucc) i (f (Fin.last n)).selectors) k =
      joined f k.castSucc := by
  have member : (f k.castSucc).grouping.SameStyle (f (Fin.last n)).grouping ↔ k = i := by
    constructor
    · intro alike
      rcases lt_trichotomy k i with before | here | behind
      · exact absurd alike (first k before)
      · exact here
      · rcases leads with none | leads
        · exact absurd none alike.1
        · exact absurd (same.trans alike.symm) (leads i behind)
    · rintro rfl
      exact same
  have others : ∀ j ∈ fellows (fun i => f i.castSucc) k,
      (handTo (fun i => f i.castSucc) i (f (Fin.last n)).selectors j).selectors =
        (f j.castSucc).selectors := by
    intro j hj
    have fellow := (List.mem_filter.1 hj).2
    simp only [decide_eq_true_eq] at fellow
    rw [handTo_of_ne]
    rintro rfl
    exact fellow.1 (member.1 (fellow.2.trans same)).symm
  rw [joined_castSucc, joined, fellows_handTo, List.flatMap_congr others]
  by_cases here : k = i
  · rw [if_pos (member.2 here), here, handTo_self]
  · rw [if_neg (mt member.1 here), handTo_of_ne _ _ here]

end

/-- Which pieces are finished and which are absorbed, and how. -/
theorem mergeEqualFrom_ofFn {n : Nat} (f : Fin n → Piece) :
    (mergeEqualFrom (List.ofFn f).reverse).value =
      (((backwards n).filter (Leads f ·)).map (joined f),
        ((backwards n).filter (¬Leads f ·)).map f) := by
  induction n with
  | zero =>
    rw [List.ofFn_zero, List.reverse_nil, value_mergeEqualFrom_nil]
    rfl
  | succ n ih =>
    let c := f (Fin.last n)
    let g := fun i : Fin n => f i.castSucc
    rw [reverse_ofFn_succ, value_mergeEqualFrom_cons, map_filter_backwards, map_filter_backwards]
    simp only [leads_castSucc]
    by_cases alone : ∀ i, ¬(g i).grouping.SameStyle c.grouping
    · -- nobody takes the last piece in, and it has no fellows
      have none : absorb c (List.ofFn g).reverse = none := by
        rw [absorb_eq_none]
        intro p hp
        obtain ⟨i, rfl⟩ := List.mem_ofFn.1 (List.mem_reverse.1 hp)
        rw [← Bool.not_eq_true, Grouping.agrees_iff_sameStyle]
        exact fun same => alone i same.symm
      have leads : Leads f (Fin.last n) := (leads_last f).2 alone
      have itself : joined f (Fin.last n) = c := by rw [joined, fellows_last f alone]; rfl
      have rest : ∀ i, joined f i.castSucc = joined g i := by
        intro i
        rw [joined_castSucc, if_neg (alone i)]
        rfl
      rw [none, ih]
      simp [leads, itself, rest, c, g]
    · -- the first piece of its style takes it in
      simp only [not_forall, not_not] at alone
      obtain ⟨i, same, least⟩ := wellFounded_lt.has_min
        {i | (g i).grouping.SameStyle c.grouping} alone
      have first : ∀ j < i, ¬(g j).grouping.SameStyle c.grouping :=
        fun j before alike => least j alike before
      have follows : ¬Leads f (Fin.last n) := fun leads => (leads_last f).1 leads i same
      have host : Leads g i := Or.inr fun j before alike => first j before (alike.trans same)
      have merged := ih (handTo g i c.selectors)
      simp only [leads_handTo] at merged
      rw [absorb_ofFn same first]
      simp only [merged, follows, if_false, not_false_eq_true, if_true, List.nil_append,
        List.singleton_append]
      congr 1
      · apply List.map_congr_left
        intro k hk
        exact joined_handTo same first (of_decide_eq_true (List.mem_filter.1 hk).2)
      · congr 1
        apply List.map_congr_left
        intro k hk
        have other : k ≠ i := by
          rintro rfl
          exact of_decide_eq_true (List.mem_filter.1 hk).2 host
        exact handTo_of_ne g c.selectors other

/-- The pass takes the whole list. It returns, the last piece first, the pieces without declarations
and the first one of each style, which has the selectors of all others of its style, the last piece
first, behind its own. It drops the others as they are, changes no declarations, and returns no two
pieces of one style. -/
theorem mergeEqual_classes (ps : List Piece) :
    let out := (mergeEqual ps).value
    let places := backwards ps.length
    out.left = [] ∧
      out.result = (places.filter (Leads ps.get ·)).map (joined ps.get) ∧
      out.dropped = (places.filter (¬Leads ps.get ·)).map ps.get ∧
      (∀ i, (joined ps.get i).declarations = (ps.get i).declarations) ∧
      out.result.Pairwise fun p q => ¬p.grouping.SameStyle q.grouping := by
  intro out places
  have taken := mergeEqualFrom_ofFn ps.get
  rw [List.ofFn_get] at taken
  have result : out.result = (mergeEqualFrom ps.reverse).value.1 := rfl
  have dropped : out.dropped = (mergeEqualFrom ps.reverse).value.2 := rfl
  refine ⟨rfl, result.trans (congrArg Prod.fst taken), dropped.trans (congrArg Prod.snd taken), ?_, ?_⟩
  · intro i
    exact Grouping.declarations_insertSelectors _ _
  · rw [result]
    apply (pairwise_mergeEqualFrom ps.reverse).imp
    intro p q differ same
    rw [Grouping.agrees_iff_sameStyle.2 same] at differ
    cases differ

end StyleFactor
