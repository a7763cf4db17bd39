/-!
Groupings: a list of selectors bound to a list of declarations. Declarations are kept in a log in
the order in which they were added, and resolved when they are asked for: a later value for a
property wins, and a property keeps the place where it was first set. Main statements: what `lookup`
finds after one write (`lookup_upsert`), and that resolved properties are distinct
(`nodup_resolve`).
-/
namespace StyleFactor

structure Declaration (α : Type) where
  property : α
  value : α
  deriving DecidableEq, Repr, Inhabited

/-- Selectors without repetitions, in the order of their arrival, and a log of declarations. -/
structure Grouping (α : Type) where
  selectors : List α
  log : List (Declaration α)
  deriving DecidableEq, Repr, Inhabited

variable {α : Type} [BEq α]

/-- Gives a property its value where it stands, or adds it at the end. -/
def upsert (d : Declaration α) : List (Declaration α) → List (Declaration α)
  | [] => [d]
  | e :: es => if e.property == d.property then ⟨e.property, d.value⟩ :: es else e :: upsert d es

/-- What a log of declarations amounts to. -/
def resolve (log : List (Declaration α)) : List (Declaration α) :=
  log.foldl (fun m d => upsert d m) []

/-- The value that resolved declarations give a property. -/
def lookup (m : List (Declaration α)) (p : α) : Option α :=
  (m.find? (·.property == p)).map (·.value)

namespace Grouping

def declarations (g : Grouping α) : List (Declaration α) := resolve g.log

def insertSelector (g : Grouping α) (s : α) : Grouping α :=
  if g.selectors.contains s then g else { g with selectors := g.selectors ++ [s] }

def insertSelectors (g : Grouping α) (ss : List α) : Grouping α := ss.foldl insertSelector g

def declare (g : Grouping α) (ds : List (Declaration α)) : Grouping α :=
  { g with log := g.log ++ ds }

/-- The properties that `m` gives just the value they have in `ds`. -/
def confirmed (m ds : List (Declaration α)) : List α :=
  (ds.filter fun d => (lookup m d.property).any (· == d.value)).map (·.property)

/-- Drops a property from the log, with all that was ever set for it. -/
def dropProperties (g : Grouping α) (ps : List α) : Grouping α :=
  { g with log := g.log.filter fun d => !ps.contains d.property }

/-- Removes each declaration given if it is what its property resolves to. -/
def retract (g : Grouping α) (ds : List (Declaration α)) : Grouping α :=
  g.dropProperties (confirmed g.declarations ds)

/-- A grouping of declarations and selectors as they come; repeated selectors count once. -/
def ofLists (ds : List (Declaration α)) (ss : List α) : Grouping α :=
  (⟨[], ds⟩ : Grouping α).insertSelectors ss

end Grouping

section

variable [LawfulBEq α]

theorem lookup_upsert (d : Declaration α) (m : List (Declaration α)) (p : α) :
    lookup (upsert d m) p = if d.property == p then some d.value else lookup m p := by
  induction m with
  | nil => by_cases h : d.property = p <;> simp [upsert, lookup, h]
  | cons e es ih =>
    simp only [lookup] at ih ⊢
    by_cases he : e.property = d.property
    · by_cases h : d.property = p <;> simp [upsert, he, h]
    · by_cases hp : e.property = p
      · have h : ¬d.property = p := fun h => he (hp.trans h.symm)
        have hd : ¬p = d.property := fun hd => h hd.symm
        simp [upsert, hp, h, hd]
      · simp [upsert, he, hp, ih]

theorem properties_upsert (d : Declaration α) (m : List (Declaration α)) :
    (upsert d m).map (·.property) =
      if (m.map (·.property)).contains d.property then m.map (·.property)
      else m.map (·.property) ++ [d.property] := by
  induction m with
  | nil => simp [upsert]
  | cons e es ih =>
    by_cases he : e.property = d.property
    · simp [upsert, he]
    · have hd : ¬d.property = e.property := fun h => he h.symm
      by_cases hm : d.property ∈ es.map (·.property) <;> simp_all [upsert]

theorem nodup_upsert (d : Declaration α) {m : List (Declaration α)}
    (h : (m.map (·.property)).Nodup) : ((upsert d m).map (·.property)).Nodup := by
  rw [properties_upsert]
  split
  · exact h
  · next new =>
    refine List.nodup_append.2 ⟨h, by simp, fun a ha b hb hab => new ?_⟩
    rw [List.mem_singleton] at hb
    exact List.elem_eq_true_of_mem (hb ▸ hab ▸ ha)

theorem nodup_foldl_upsert (log : List (Declaration α)) {m : List (Declaration α)}
    (h : (m.map (·.property)).Nodup) :
    ((log.foldl (fun m d => upsert d m) m).map (·.property)).Nodup := by
  induction log generalizing m with
  | nil => exact h
  | cons d log ih => exact ih (nodup_upsert d h)

theorem nodup_resolve (log : List (Declaration α)) : ((resolve log).map (·.property)).Nodup :=
  nodup_foldl_upsert log List.nodup_nil

end

end StyleFactor
