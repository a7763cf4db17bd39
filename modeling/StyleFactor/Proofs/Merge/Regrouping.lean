import StyleFactor.Merge.BySelector
import StyleFactor.Proofs.Merge.Conservation

/-!
What a selector comes to when groupings are applied one after the other, and how regrouping by
selector writes just that down. Main statements: the cascade of a selector depends on the order of
the groupings only where two of them disagree (`lookup_cascade_iff`), and regrouping makes one
grouping for each selector, which resolves to its cascade (`bySelector_eq`).
-/
namespace StyleFactor

/-- What a selector comes to: the groupings that have it are applied in order, each over those
before it. -/
def cascade (gs : List (Grouping String)) (s : String) : List (Declaration String) :=
  resolve ((gs.filter (·.selectors.contains s)).flatMap (·.declarations))

section

variable {gs : List (Grouping String)} {s p v : String}

theorem binds_of_mem_cascade (h : ⟨p, v⟩ ∈ cascade gs s) : Binds gs s p v := by
  obtain ⟨g, hg, hd⟩ := List.mem_flatMap.1 (mem_of_mem_resolve h)
  obtain ⟨member, has⟩ := List.mem_filter.1 hg
  exact ⟨g, member, by simpa using has, hd⟩

theorem isSome_cascade_iff : (lookup (cascade gs s) p).isSome ↔ ∃ v, Binds gs s p v := by
  constructor
  · intro h
    obtain ⟨v, hv⟩ := Option.isSome_iff_exists.1 h
    exact ⟨v, binds_of_mem_cascade (mem_of_lookup hv)⟩
  · rintro ⟨v, g, hg, hs, hd⟩
    have has : g ∈ gs.filter (·.selectors.contains s) := by simp [hg, hs]
    exact isSome_lookup_of_mem (List.mem_flatMap.2 ⟨g, has, hd⟩)

/-- Where no two groupings disagree, the value is the one that any of them gives. -/
theorem lookup_cascade_iff (consistent : ∀ v w, Binds gs s p v → Binds gs s p w → v = w) :
    lookup (cascade gs s) p = some v ↔ Binds gs s p v := by
  constructor
  · exact fun h => binds_of_mem_cascade (mem_of_lookup h)
  · intro bound
    obtain ⟨w, hw⟩ := Option.isSome_iff_exists.1 (isSome_cascade_iff.2 ⟨v, bound⟩)
    rw [hw, consistent v w bound (binds_of_mem_cascade (mem_of_lookup hw))]

end

/-! One grouping for each selector. -/

/-- Every selector of the groupings once, in the order in which they occur first. -/
def selectorsOf (gs : List (Grouping String)) : List String :=
  (Grouping.ofLists [] (gs.flatMap (·.selectors))).selectors

theorem mem_selectorsOf {gs : List (Grouping String)} {s : String} :
    s ∈ selectorsOf gs ↔ ∃ g ∈ gs, s ∈ g.selectors := by
  simp [selectorsOf, Grouping.ofLists, Grouping.mem_insertSelectors]

def ofLogs (ss : List String) (log : String → List (Declaration String)) : List (Grouping String) :=
  ss.map fun s => ⟨[s], log s⟩

theorem give_ofLogs (s : String) (ds : List (Declaration String)) (g : Grouping String)
    (log : String → List (Declaration String)) (distinct : g.selectors.Nodup)
    (fresh : s ∉ g.selectors → log s = []) :
    give s ds (ofLogs g.selectors log) =
      ofLogs (g.insertSelector s).selectors fun t => if t = s then log t ++ ds else log t := by
  have inserted : (g.insertSelector s).selectors =
      if s ∈ g.selectors then g.selectors else g.selectors ++ [s] := by
    unfold Grouping.insertSelector
    split <;> simp_all
  rw [inserted]
  generalize g.selectors = ss at distinct fresh
  induction ss with
  | nil => simp [ofLogs, give, fresh, Grouping.ofLists, Grouping.insertSelectors,
      Grouping.insertSelector]
  | cons t ss ih =>
    obtain ⟨new, rest⟩ := List.nodup_cons.1 distinct
    by_cases h : t = s
    · subst h
      have others : ∀ u ∈ ss, u ≠ t := fun u hu same => new (same ▸ hu)
      simpa [ofLogs, give, Grouping.declare] using fun u hu same => absurd same (others u hu)
    · have elsewhere : s ∈ t :: ss ↔ s ∈ ss := by simp [Ne.symm h]
      have ih := ih rest fun absent => fresh (mt elsewhere.1 absent)
      simp only [elsewhere]
      split <;> simp_all [ofLogs, give, Ne.symm h]

/-- All that groupings say, one selector at a time. -/
def sayings (gs : List (Grouping String)) : List (String × List (Declaration String)) :=
  gs.flatMap fun g => g.selectors.map fun s => (s, g.declarations)

def saidOf (s : String) (ws : List (String × List (Declaration String))) :
    List (Declaration String) :=
  (ws.filter (·.1 == s)).flatMap (·.2)

theorem foldl_give (ws : List (String × List (Declaration String))) (g : Grouping String)
    (log : String → List (Declaration String)) (distinct : g.selectors.Nodup)
    (fresh : ∀ s, s ∉ g.selectors → log s = []) :
    ws.foldl (fun made w => give w.1 w.2 made) (ofLogs g.selectors log) =
      ofLogs (g.insertSelectors (ws.map (·.1))).selectors fun s => log s ++ saidOf s ws := by
  induction ws generalizing g log with
  | nil => simp [saidOf, Grouping.insertSelectors]
  | cons w ws ih =>
    have stillFresh : ∀ s, s ∉ (g.insertSelector w.1).selectors →
        (if s = w.1 then log s ++ w.2 else log s) = [] := by
      intro s absent
      obtain ⟨old, other⟩ := not_or.1 (mt Grouping.mem_insertSelector.2 absent)
      rw [if_neg other, fresh s old]
    have logs : ∀ s, (if s = w.1 then log s ++ w.2 else log s) ++ saidOf s ws =
        log s ++ saidOf s (w :: ws) := by
      intro s
      by_cases h : s = w.1
      · simp [saidOf, h]
      · simp [saidOf, h, Ne.symm h]
    rw [List.foldl_cons, give_ofLogs _ _ _ _ distinct (fresh w.1),
      ih _ _ (Grouping.nodup_insertSelector distinct w.1) stillFresh]
    simp only [logs]
    rfl

theorem bySelector_eq (gs : List (Grouping String)) :
    bySelector gs = ofLogs (selectorsOf gs) fun s => saidOf s (sayings gs) := by
  have one : ∀ (made : List (Grouping String)) (g : Grouping String),
      g.selectors.foldl (fun made s => give s g.declarations made) made =
        (g.selectors.map fun s => (s, g.declarations)).foldl (fun made w => give w.1 w.2 made)
          made := by
    intro made g
    rw [List.foldl_map]
  have all : bySelector gs = (sayings gs).foldl (fun made w => give w.1 w.2 made) [] := by
    simp only [bySelector, sayings, List.foldl_flatMap, one]
  have heads : (sayings gs).map (·.1) = gs.flatMap (·.selectors) := by
    simp [sayings, List.map_flatMap, Function.comp_def]
  rw [all, selectorsOf, ← heads]
  exact foldl_give (sayings gs) ⟨[], []⟩ (fun _ => []) List.nodup_nil fun _ _ => rfl

theorem foldl_saidOf (ss : List String) (s : String) (log : List (Declaration String))
    {m : List (Declaration String)} (distinct : (m.map (·.property)).Nodup) :
    (saidOf s (ss.map fun t => (t, resolve log))).foldl (fun m d => upsert d m) m =
      if s ∈ ss then (resolve log).foldl (fun m d => upsert d m) m else m := by
  induction ss generalizing m with
  | nil => rfl
  | cons t ss ih =>
    by_cases h : t = s
    · have first : saidOf s ((t :: ss).map fun t => (t, resolve log)) =
          resolve log ++ saidOf s (ss.map fun t => (t, resolve log)) := by
        simp [saidOf, h]
      rw [first, List.foldl_append, ih (nodup_foldl_upsert _ distinct), foldl_upsert_twice log distinct]
      simp [h]
    · have none : saidOf s ((t :: ss).map fun t => (t, resolve log)) =
          saidOf s (ss.map fun t => (t, resolve log)) := by
        simp [saidOf, h]
      rw [none, ih distinct]
      simp [Ne.symm h]

theorem resolve_saidOf (gs : List (Grouping String)) (s : String) :
    resolve (saidOf s (sayings gs)) = cascade gs s := by
  have from_any : ∀ m : List (Declaration String), (m.map (·.property)).Nodup →
      (saidOf s (sayings gs)).foldl (fun m d => upsert d m) m =
        ((gs.filter (·.selectors.contains s)).flatMap (·.declarations)).foldl
          (fun m d => upsert d m) m := by
    induction gs with
    | nil => exact fun _ _ => rfl
    | cons g gs ih =>
      intro m distinct
      have split : saidOf s (sayings (g :: gs)) =
          saidOf s (g.selectors.map fun t => (t, resolve g.log)) ++ saidOf s (sayings gs) := by
        simp [saidOf, sayings, Grouping.declarations]
      rw [split, List.foldl_append, foldl_saidOf _ _ _ distinct]
      by_cases h : s ∈ g.selectors
      · rw [if_pos h, ih _ (nodup_foldl_upsert _ distinct)]
        simp [h, Grouping.declarations]
      · rw [if_neg h, ih _ distinct]
        simp [h]
  exact from_any [] List.nodup_nil

/-- Regrouping binds a selector to just what it came to before. -/
theorem binds_bySelector {gs : List (Grouping String)} {s p v : String} :
    Binds (bySelector gs) s p v ↔ ⟨p, v⟩ ∈ cascade gs s := by
  rw [bySelector_eq]
  constructor
  · rintro ⟨g, hg, hs, hd⟩
    obtain ⟨t, _, rfl⟩ := List.mem_map.1 hg
    cases List.mem_singleton.1 hs
    rwa [Grouping.declarations, resolve_saidOf] at hd
  · intro h
    obtain ⟨g, hg, hs, _⟩ := binds_of_mem_cascade h
    refine ⟨_, List.mem_map_of_mem (mem_selectorsOf.2 ⟨g, hg, hs⟩), List.mem_singleton_self s, ?_⟩
    rwa [Grouping.declarations, resolve_saidOf]

end StyleFactor
