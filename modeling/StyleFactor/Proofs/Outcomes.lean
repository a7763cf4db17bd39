import Mathlib.Data.List.Forall2
import StyleFactor.Outcomes

/-!
Traversals that may fail, item by item: they succeed if every item does (`mapM_eq_ok_iff`), and fail
as one of their items does (`exists_of_mapM_error`).
-/
namespace StyleFactor

variable {ε α β : Type}

theorem bind_eq_error {x : Except ε α} {f : α → Except ε β} {e : ε} :
    (x >>= f) = .error e ↔ x = .error e ∨ ∃ a, x = .ok a ∧ f a = .error e := by
  cases x with
  | error d =>
    have same : (Except.error d >>= f) = .error d := rfl
    simp [same]
  | ok a =>
    have same : (Except.ok a >>= f) = f a := rfl
    simp [same]

theorem mapM_eq_ok_iff {f : α → Except ε β} {xs : List α} {ys : List β} :
    xs.mapM f = .ok ys ↔ List.Forall₂ (fun x y => f x = .ok y) xs ys := by
  constructor
  · intro h
    induction xs generalizing ys with
    | nil =>
      cases h
      exact .nil
    | cons x xs ih =>
      obtain ⟨y, zs, first, rest, rfl⟩ := mapM_cons_eq_ok.1 h
      exact .cons first (ih rest)
  · intro h
    induction h with
    | nil => rfl
    | cons first _ ih => exact mapM_cons_eq_ok.2 ⟨_, _, first, ih, rfl⟩

theorem exists_ok_of_mem {f : α → Except ε β} {xs : List α} {ys : List β} (h : xs.mapM f = .ok ys) :
    ∀ x ∈ xs, ∃ y, f x = .ok y := by
  induction xs generalizing ys with
  | nil => exact List.forall_mem_nil _
  | cons x xs ih =>
    obtain ⟨y, zs, first, rest, -⟩ := mapM_cons_eq_ok.1 h
    exact List.forall_mem_cons.2 ⟨⟨y, first⟩, ih rest⟩

theorem exists_of_mapM_error {f : α → Except ε β} {xs : List α} {e : ε}
    (h : xs.mapM f = .error e) : ∃ x ∈ xs, f x = .error e := by
  induction xs with
  | nil => cases h
  | cons x xs ih =>
    rw [List.mapM_cons] at h
    rcases bind_eq_error.1 h with first | ⟨y, -, more⟩
    · exact ⟨x, List.mem_cons_self, first⟩
    · rcases bind_eq_error.1 more with rest | ⟨ys, -, done⟩
      · obtain ⟨z, member, refused⟩ := ih rest
        exact ⟨z, List.mem_cons_of_mem x member, refused⟩
      · cases done

end StyleFactor
