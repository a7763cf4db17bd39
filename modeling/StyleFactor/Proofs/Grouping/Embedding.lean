import StyleFactor.Grouping.Live

/-!
Declarations whose sides are replaced by others that are equal just where the old ones were. Main
statements: resolving (`resolve_map`) and removing (`map_filter_confirmed`) do the same to both.
-/
namespace StyleFactor

def Declaration.map {α β : Type} (f : α → β) (d : Declaration α) : Declaration β :=
  ⟨f d.property, f d.value⟩

/-- Equality of what `f` gives is equality of what it is given. -/
def Embeds {α β : Type} [BEq α] [BEq β] (f : α → β) : Prop := ∀ a b, (f a == f b) = (a == b)

namespace Embeds

variable {α β : Type} [BEq α] [BEq β] {f : α → β}

theorem upsert_map (embeds : Embeds f) (d : Declaration α) (m : List (Declaration α)) :
    upsert (d.map f) (m.map (·.map f)) = (upsert d m).map (·.map f) := by
  induction m with
  | nil => rfl
  | cons e es ih =>
    have same : ((e.map f).property == (d.map f).property) = (e.property == d.property) :=
      embeds e.property d.property
    rw [List.map_cons, upsert, upsert, same, ih]
    split <;> rfl

theorem foldl_upsert_map (embeds : Embeds f) (log m : List (Declaration α)) :
    (log.map (·.map f)).foldl (fun m d => upsert d m) (m.map (·.map f)) =
      (log.foldl (fun m d => upsert d m) m).map (·.map f) := by
  induction log generalizing m with
  | nil => rfl
  | cons d log ih => rw [List.map_cons, List.foldl_cons, embeds.upsert_map, ih, List.foldl_cons]

theorem resolve_map (embeds : Embeds f) (log : List (Declaration α)) :
    resolve (log.map (·.map f)) = (resolve log).map (·.map f) :=
  embeds.foldl_upsert_map log []

theorem lookup_map (embeds : Embeds f) (m : List (Declaration α)) (p : α) :
    lookup (m.map (·.map f)) (f p) = (lookup m p).map f := by
  induction m with
  | nil => rfl
  | cons e es ih =>
    have same : ((e.map f).property == f p) = (e.property == p) := embeds e.property p
    simp only [lookup, List.map_cons, List.find?_cons, same] at ih ⊢
    split
    · rfl
    · exact ih

theorem contains_map (embeds : Embeds f) (xs : List α) (x : α) :
    (xs.map f).contains (f x) = xs.contains x := by
  induction xs with
  | nil => rfl
  | cons y ys ih => rw [List.map_cons, List.contains_cons, List.contains_cons, embeds, ih]

theorem confirmed_map (embeds : Embeds f) (m ds : List (Declaration α)) :
    Grouping.confirmed (m.map (·.map f)) (ds.map (·.map f)) = (Grouping.confirmed m ds).map f := by
  have same : ∀ d : Declaration α,
      (lookup (m.map (·.map f)) (f d.property)).any (· == f d.value) =
        (lookup m d.property).any (· == d.value) := by
    intro d
    rw [embeds.lookup_map]
    cases lookup m d.property with
    | none => rfl
    | some v => exact embeds v d.value
  simp only [Grouping.confirmed, List.filter_map, List.map_map]
  congr 1
  exact List.filter_congr fun d _ => same d

theorem filter_properties_map (embeds : Embeds f) (log : List (Declaration α)) (ps : List α) :
    (log.map (·.map f)).filter (!(ps.map f).contains ·.property) =
      (log.filter (!ps.contains ·.property)).map (·.map f) := by
  rw [List.filter_map]
  congr 1
  exact List.filter_congr fun d _ => congrArg not (embeds.contains_map ps d.property)

end Embeds

end StyleFactor
