import StyleFactor.Grouping.Size
import StyleFactor.Proofs.Grouping.Resolution

/-!
Laws of sizes. Main statements: declarations take at least two characters each, and handing a
grouping the selectors of another one costs at most one comma more than these took where they were
(`selectorSize_insertSelectors_le`).
-/
namespace StyleFactor

@[simp] theorem total_nil : total [] = 0 := rfl

@[simp] theorem total_cons (n : Nat) (ns : List Nat) : total (n :: ns) = n + total ns := rfl

theorem total_append (ms ns : List Nat) : total (ms ++ ns) = total ms + total ns := by
  induction ms with
  | nil => simp
  | cons m ms ih =>
    simp only [List.cons_append, total_cons, ih]
    omega

theorem total_perm {ms ns : List Nat} (h : ms.Perm ns) : total ms = total ns := by
  induction h with
  | nil => rfl
  | cons n _ ih => rw [total_cons, total_cons, ih]
  | swap m n ns =>
    simp only [total_cons]
    omega
  | trans _ _ first second => exact first.trans second

theorem total_le_of_sublist {ms ns : List Nat} (h : ms.Sublist ns) : total ms ≤ total ns := by
  induction h with
  | slnil => exact Nat.le_refl 0
  | cons n _ ih => exact Nat.le_trans ih (Nat.le_add_left _ _)
  | cons_cons n _ ih => exact Nat.add_le_add_left ih n

theorem totalSize_cons (g : Grouping String) (gs : List (Grouping String)) :
    totalSize (g :: gs) = g.size + totalSize gs := rfl

theorem totalSize_perm {gs hs : List (Grouping String)} (h : gs.Perm hs) :
    totalSize gs = totalSize hs := total_perm (h.map Grouping.size)

theorem totalSize_append (gs hs : List (Grouping String)) :
    totalSize (gs ++ hs) = totalSize gs + totalSize hs := by
  simp [totalSize, total_append]

theorem totalSize_le_of_sublist {gs hs : List (Grouping String)} (h : gs.Sublist hs) :
    totalSize gs ≤ totalSize hs := total_le_of_sublist (h.map Grouping.size)

theorem declarationsSize_cons (d : Declaration String) (ds : List (Declaration String)) :
    declarationsSize (d :: ds) = d.size + declarationsSize ds := rfl

theorem declarationsSize_append (ds es : List (Declaration String)) :
    declarationsSize (ds ++ es) = declarationsSize ds + declarationsSize es := by
  simp [declarationsSize, total_append]

theorem declarationsSize_le_of_sublist {ds es : List (Declaration String)} (h : ds.Sublist es) :
    declarationsSize ds ≤ declarationsSize es := total_le_of_sublist (h.map Declaration.size)

/-- A declaration has its colon and its semicolon, whatever texts it is made of. -/
theorem length_le_declarationsSize (ds : List (Declaration String)) :
    2 * ds.length ≤ declarationsSize ds := by
  induction ds with
  | nil => exact Nat.le_refl 0
  | cons d ds ih =>
    rw [declarationsSize_cons, Declaration.size, List.length_cons]
    omega

namespace Grouping

variable (g : Grouping String)

/-- A selector that is new adds its characters, and a comma if it is not the first. -/
theorem insertSelector_measures (s : String) :
    (g.insertSelector s).selectors.length ≤ g.selectors.length + 1 ∧
      total ((g.insertSelector s).selectors.map String.length) ≤
        total (g.selectors.map String.length) + s.length := by
  unfold insertSelector
  split
  · constructor <;> omega
  · simp [total_append]

theorem insertSelectors_measures (ss : List String) :
    (g.insertSelectors ss).selectors.length ≤ g.selectors.length + ss.length ∧
      total ((g.insertSelectors ss).selectors.map String.length) ≤
        total (g.selectors.map String.length) + total (ss.map String.length) := by
  unfold insertSelectors
  induction ss generalizing g with
  | nil => exact ⟨Nat.le_refl _, Nat.le_refl _⟩
  | cons s ss ih =>
    have first := g.insertSelector_measures s
    have others := ih (g.insertSelector s)
    simp only [List.foldl_cons, List.length_cons, List.map_cons, total_cons]
    constructor <;> omega

theorem selectorSize_insertSelectors_le (h : Grouping String) :
    (g.insertSelectors h.selectors).selectorSize ≤ g.selectorSize + h.selectorSize + 1 := by
  have measures := g.insertSelectors_measures h.selectors
  unfold selectorSize
  omega

theorem size_insertSelectors (ss : List String) :
    (g.insertSelectors ss).size = g.declarationSize + (g.insertSelectors ss).selectorSize := by
  rw [size, declarationSize, declarations_insertSelectors, declarationSize]

end Grouping

end StyleFactor
