import StyleFactor.Proofs.Grouping.Resolution
import StyleFactor.Grouping.Size

/-!
What a grouping is to those who use it: selectors in the order of their arrival, and a map from
properties to values in the order in which they were first set. Main
statements: setting properties is writing a log (`declarations_foldl_set`), and so is removing
declarations (`declarations_retract`).
-/
namespace StyleFactor

structure Table where
  selectors : List String
  declarations : List (Declaration String)
  selectors_nodup : selectors.Nodup
  properties_nodup : (declarations.map (·.property)).Nodup

inductive Change where
  | addSelectors (ss : List String)
  | addDeclarations (ds : List (Declaration String))
  | removeDeclarations (ds : List (Declaration String))

theorem nodup_concat {l : List String} {s : String} (distinct : l.Nodup) (new : s ∉ l) :
    (l ++ [s]).Nodup := by
  refine List.nodup_append.2 ⟨distinct, by simp, fun a ha b hb same => new ?_⟩
  rw [List.mem_singleton] at hb
  exact hb ▸ same ▸ ha

namespace Table

def empty : Table := ⟨[], [], List.nodup_nil, List.nodup_nil⟩

/-- A selector goes to the end, unless it is there. -/
def addSelector (t : Table) (s : String) : Table :=
  if there : s ∈ t.selectors then t
  else
    { t with
      selectors := t.selectors ++ [s]
      selectors_nodup := nodup_concat t.selectors_nodup there }

/-- Gives a property a value where it stands. -/
def put (d : Declaration String) (m : List (Declaration String)) : List (Declaration String) :=
  m.map fun e => if e.property = d.property then d else e

theorem properties_put (d : Declaration String) (m : List (Declaration String)) :
    (put d m).map (·.property) = m.map (·.property) := by
  rw [put, List.map_map]
  refine List.map_congr_left fun e _ => ?_
  dsimp only [Function.comp_apply]
  split
  · next same => exact same.symm
  · rfl

/-- A property that is there keeps its place and takes the new value, and a new one goes to the
end. -/
def set (t : Table) (d : Declaration String) : Table :=
  if there : d.property ∈ t.declarations.map (·.property) then
    { t with
      declarations := put d t.declarations
      properties_nodup := properties_put d t.declarations ▸ t.properties_nodup }
  else
    { t with
      declarations := t.declarations ++ [d]
      properties_nodup := by
        rw [List.map_append]
        exact nodup_concat t.properties_nodup there }

/-- Takes away just those of the declarations given that are there. -/
def remove (t : Table) (ds : List (Declaration String)) : Table :=
  { t with
    declarations := t.declarations.filter (· ∉ ds)
    properties_nodup := t.properties_nodup.sublist (List.filter_sublist.map _) }

def apply (t : Table) : Change → Table
  | .addSelectors ss => ss.foldl addSelector t
  | .addDeclarations ds => ds.foldl set t
  | .removeDeclarations ds => t.remove ds

/-- The table of a new grouping. -/
def new (ds : List (Declaration String)) (ss : List String) : Table :=
  ss.foldl addSelector (ds.foldl set empty)

/-- How many characters the selectors take, with a comma between two. -/
def selectorSize (t : Table) : Nat :=
  total (t.selectors.map String.length) + (t.selectors.length - 1)

theorem put_of_absent {d : Declaration String} {m : List (Declaration String)}
    (absent : d.property ∉ m.map (·.property)) : put d m = m := by
  refine (List.map_congr_left fun e member => ?_).trans (List.map_id m)
  exact if_neg fun same => absent (List.mem_map.2 ⟨e, member, same⟩)

theorem upsert_of_present {d : Declaration String} {m : List (Declaration String)}
    (distinct : (m.map (·.property)).Nodup) (there : d.property ∈ m.map (·.property)) :
    upsert d m = put d m := by
  induction m with
  | nil => cases there
  | cons e es ih =>
    obtain ⟨new, rest⟩ := List.nodup_cons.1 distinct
    by_cases same : e.property = d.property
    · have others : put d es = es := put_of_absent (same ▸ new)
      have here : put d (e :: es) = d :: put d es := by simp [put, same]
      rw [here, others]
      simp [upsert, same]
    · have later : d.property ∈ es.map (·.property) :=
        (List.mem_cons.1 there).resolve_left fun h => same h.symm
      have here : put d (e :: es) = e :: put d es := by simp [put, same]
      rw [here, ← ih rest later]
      simp [upsert, same]

theorem declarations_set (t : Table) (d : Declaration String) :
    (t.set d).declarations = upsert d t.declarations := by
  unfold set
  split
  · next there => exact (upsert_of_present t.properties_nodup there).symm
  · next absent => exact (upsert_of_absent absent).symm

theorem selectors_set (t : Table) (d : Declaration String) : (t.set d).selectors = t.selectors := by
  unfold set
  split <;> rfl

theorem declarations_foldl_set (t : Table) (ds : List (Declaration String)) :
    (ds.foldl set t).declarations = ds.foldl (fun m d => upsert d m) t.declarations := by
  induction ds generalizing t with
  | nil => rfl
  | cons d ds ih => rw [List.foldl_cons, ih, declarations_set, List.foldl_cons]

theorem selectors_foldl_set (t : Table) (ds : List (Declaration String)) :
    (ds.foldl set t).selectors = t.selectors := by
  induction ds generalizing t with
  | nil => rfl
  | cons d ds ih => rw [List.foldl_cons, ih, selectors_set]

theorem declarations_addSelector (t : Table) (s : String) :
    (t.addSelector s).declarations = t.declarations := by
  unfold addSelector
  split <;> rfl

/-- What a log resolves to once declarations were taken out of it is what they leave over. -/
theorem declarations_retract (g : Grouping String) (ds : List (Declaration String)) :
    (g.retract ds).declarations = g.declarations.filter (· ∉ ds) := by
  have dropped : (g.retract ds).declarations =
      g.declarations.filter (!(Grouping.confirmed g.declarations ds).contains ·.property) :=
    Grouping.declarations_dropProperties g _
  rw [dropped]
  refine List.filter_congr fun d member => ?_
  have stays : d ∈ (g.retract ds).declarations ↔ d ∈ g.declarations ∧ d ∉ ds :=
    Grouping.mem_declarations_retract
  rw [dropped, List.mem_filter, and_iff_right member, and_iff_right member] at stays
  exact Bool.eq_iff_iff.2 (stays.trans decide_eq_true_iff.symm)

end Table

end StyleFactor
