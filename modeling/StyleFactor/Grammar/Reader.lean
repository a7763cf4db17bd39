/-!
Readers take what they can from the front of a text. They are put together in sequence, by ordered
choice and by greedy repetition; none of these ever gives back what it has taken, so a text is read
in at most one way. Main statement: a reader built from lossless ones is lossless, that is, what it
has read and what it has left are the text it was given.
-/
namespace StyleFactor.Grammar

/-- What was read from the front of a text and what is left of it, or `none` if the front does not
match. -/
def Reader (α : Type) : Type := List Char → Option (List α × List Char)

variable {α : Type}

namespace Reader

def nothing : Reader α := fun s => some ([], s)

def seq (a b : Reader α) : Reader α := fun s =>
  (a s).bind fun (xs, r) => (b r).map fun (ys, r') => (xs ++ ys, r')

def alt (a b : Reader α) : Reader α := fun s => (a s).or (b s)

instance : Append (Reader α) := ⟨seq⟩

instance : OrElse (Reader α) := ⟨fun a b => alt a (b ())⟩

def opt (a : Reader α) : Reader α := a <|> nothing

/-- Repeats `a` as long as it matches and takes something. -/
def many (a : Reader α) (s : List Char) : List α × List Char :=
  match a s with
  | none => ([], s)
  | some (xs, r) =>
    if r.length < s.length then
      let (ys, r') := many a r
      (xs ++ ys, r')
    else ([], s)
termination_by s.length

def star (a : Reader α) : Reader α := fun s => some (many a s)

def plus (a : Reader α) : Reader α := a ++ a.star

def map {β : Type} (f : List α → List β) (a : Reader α) : Reader β := fun s =>
  (a s).map fun (xs, r) => (f xs, r)

theorem append_apply (a b : Reader α) (s : List Char) :
    (a ++ b) s = (a s).bind fun (xs, r) => (b r).map fun (ys, r') => (xs ++ ys, r') := rfl

theorem orElse_apply (a b : Reader α) (s : List Char) : (a <|> b) s = (a s).or (b s) := rfl

theorem append_eq_some {a b : Reader α} {s r : List Char} {zs : List α} :
    (a ++ b) s = some (zs, r) ↔
      ∃ xs t ys, a s = some (xs, t) ∧ b t = some (ys, r) ∧ zs = xs ++ ys := by
  simp only [append_apply, Option.bind_eq_some_iff, Option.map_eq_some_iff, Prod.exists,
    Prod.mk.injEq]
  constructor
  · rintro ⟨xs, t, ha, ys, r', hb, hz, rfl⟩
    exact ⟨xs, t, ys, ha, hb, hz.symm⟩
  · rintro ⟨xs, t, ys, ha, hb, hz⟩
    exact ⟨xs, t, ha, ys, r, hb, hz.symm, rfl⟩

theorem orElse_eq_some {a b : Reader α} {s r : List Char} {xs : List α} :
    (a <|> b) s = some (xs, r) ↔ a s = some (xs, r) ∨ a s = none ∧ b s = some (xs, r) := by
  rw [orElse_apply]
  cases a s <;> simp

theorem map_eq_some {β : Type} {f : List α → List β} {a : Reader α} {s r : List Char}
    {ys : List β} : a.map f s = some (ys, r) ↔ ∃ xs, a s = some (xs, r) ∧ f xs = ys := by
  simp only [map, Option.map_eq_some_iff, Prod.exists, Prod.mk.injEq]
  constructor
  · rintro ⟨xs, t, ha, hf, rfl⟩
    exact ⟨xs, ha, hf⟩
  · rintro ⟨xs, ha, hf⟩
    exact ⟨xs, r, ha, hf, rfl⟩

/-- What was read, seen through `view`, and what is left are the text. -/
def Lossless (view : List α → List Char) (a : Reader α) : Prop :=
  ∀ s xs r, a s = some (xs, r) → view xs ++ r = s

section

variable {view : List α → List Char} {a b : Reader α}

theorem lossless_nothing (empty : view [] = []) : Lossless view (nothing : Reader α) := by
  intro s xs r h
  obtain ⟨rfl, rfl⟩ : [] = xs ∧ s = r := by simpa [nothing] using h
  simp [empty]

theorem Lossless.append (join : ∀ xs ys, view (xs ++ ys) = view xs ++ view ys)
    (ha : Lossless view a) (hb : Lossless view b) : Lossless view (a ++ b) := by
  intro s zs r h
  obtain ⟨xs, t, ys, h₁, h₂, rfl⟩ := append_eq_some.1 h
  rw [join, List.append_assoc, hb _ _ _ h₂, ha _ _ _ h₁]

theorem Lossless.orElse (ha : Lossless view a) (hb : Lossless view b) :
    Lossless view (a <|> b) := by
  intro s xs r h
  rcases orElse_eq_some.1 h with h | ⟨_, h⟩
  · exact ha _ _ _ h
  · exact hb _ _ _ h

theorem Lossless.opt (empty : view [] = []) (ha : Lossless view a) : Lossless view a.opt :=
  ha.orElse (lossless_nothing empty)

theorem Lossless.many (empty : view [] = [])
    (join : ∀ xs ys, view (xs ++ ys) = view xs ++ view ys)
    (ha : Lossless view a) (s : List Char) :
    view (a.many s).1 ++ (a.many s).2 = s := by
  fun_induction Reader.many a s with
  | case1 s h => simp [empty]
  | case2 s xs r h shorter ys r' eq ih =>
    rw [eq] at ih
    simp only [join, List.append_assoc]
    rw [ih, ha _ _ _ h]
  | case3 s xs r h shorter => simp [empty]

theorem Lossless.star (empty : view [] = [])
    (join : ∀ xs ys, view (xs ++ ys) = view xs ++ view ys)
    (ha : Lossless view a) : Lossless view a.star := by
  intro s xs r h
  have same : a.many s = (xs, r) := Option.some.inj h
  have := ha.many empty join s
  rwa [same] at this

theorem Lossless.plus (empty : view [] = [])
    (join : ∀ xs ys, view (xs ++ ys) = view xs ++ view ys)
    (ha : Lossless view a) : Lossless view a.plus :=
  ha.append join (ha.star empty join)

end

end Reader

end StyleFactor.Grammar
