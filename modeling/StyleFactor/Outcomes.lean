/-!
Steps that may fail, one after the other: when all of them succeed.
-/
namespace StyleFactor

variable {ε α β γ : Type}

theorem bind_eq_ok {x : Except ε α} {f : α → Except ε β} {b : β} :
    (x >>= f) = .ok b ↔ ∃ a, x = .ok a ∧ f a = .ok b := by
  cases x with
  | error e => exact ⟨fun h => (nomatch h), fun ⟨_, h, _⟩ => (nomatch h)⟩
  | ok a => exact ⟨fun h => ⟨a, rfl, h⟩, fun ⟨_, h, k⟩ => (Except.ok.inj h) ▸ k⟩

theorem exists_of_map_ok {x : Except ε α} {f : α → β} {b : β} (h : x.map f = .ok b) :
    ∃ a, x = .ok a ∧ f a = b := by
  cases x with
  | error => cases h
  | ok a => exact ⟨a, rfl, Except.ok.inj h⟩

theorem mapM_cons_eq_ok {f : α → Except ε β} {x : α} {xs : List α} {ys : List β} :
    (x :: xs).mapM f = .ok ys ↔ ∃ z zs, f x = .ok z ∧ xs.mapM f = .ok zs ∧ ys = z :: zs := by
  rw [List.mapM_cons, bind_eq_ok]
  refine exists_congr fun z => ?_
  rw [bind_eq_ok]
  constructor
  · rintro ⟨first, zs, rest, h⟩
    exact ⟨zs, first, rest, (Except.ok.inj h).symm⟩
  · rintro ⟨zs, first, rest, rfl⟩
    exact ⟨first, zs, rest, rfl⟩

theorem mapM_map_ok {f : β → Except ε γ} {e : α → β} {g : α → γ} {xs : List α}
    (h : ∀ x ∈ xs, f (e x) = .ok (g x)) : (xs.map e).mapM f = .ok (xs.map g) := by
  induction xs with
  | nil => rfl
  | cons x xs ih =>
    obtain ⟨first, rest⟩ := List.forall_mem_cons.1 h
    exact mapM_cons_eq_ok.2 ⟨g x, xs.map g, first, ih rest, rfl⟩

theorem exists_mapM_ok {f : α → Except ε β} {xs : List α} (h : ∀ x ∈ xs, ∃ y, f x = .ok y) :
    ∃ ys, xs.mapM f = .ok ys := by
  induction xs with
  | nil => exact ⟨[], rfl⟩
  | cons x xs ih =>
    obtain ⟨⟨y, first⟩, rest⟩ := List.forall_mem_cons.1 h
    obtain ⟨ys, more⟩ := ih rest
    exact ⟨y :: ys, mapM_cons_eq_ok.2 ⟨y, ys, first, more, rfl⟩⟩

end StyleFactor
