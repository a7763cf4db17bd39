import StyleFactor.Grouping.Basic

/-!
What a log resolves to, seen one property at a time, and what the changes to a grouping do to it.
Main statements: of two logs written one after the other the later one wins (`lookup_append`), and
retracting declarations takes just those away that are in force (`mem_declarations_retract`).
-/
namespace StyleFactor

variable {α : Type} [BEq α] [LawfulBEq α]

theorem mem_of_lookup {m : List (Declaration α)} {p v : α} (h : lookup m p = some v) :
    ⟨p, v⟩ ∈ m := by
  simp only [lookup, Option.map_eq_some_iff] at h
  obtain ⟨d, found, rfl⟩ := h
  have same : d.property = p := by simpa using List.find?_some found
  exact same ▸ List.mem_of_find?_eq_some found

/-- Where every property occurs once, looking one up is finding its declaration. -/
theorem lookup_eq_some_iff {m : List (Declaration α)} (distinct : (m.map (·.property)).Nodup)
    {p v : α} : lookup m p = some v ↔ ⟨p, v⟩ ∈ m := by
  refine ⟨mem_of_lookup, fun member => ?_⟩
  induction m with
  | nil => cases member
  | cons e es ih =>
    obtain ⟨new, rest⟩ := List.nodup_cons.1 distinct
    rcases List.mem_cons.1 member with rfl | member
    · simp [lookup]
    · have other : ¬e.property = p := fun h => new (List.mem_map.2 ⟨_, member, h.symm⟩)
      have found := ih rest member
      simpa [lookup, other] using found

theorem lookup_resolve_iff {log : List (Declaration α)} {p v : α} :
    lookup (resolve log) p = some v ↔ ⟨p, v⟩ ∈ resolve log :=
  lookup_eq_some_iff (nodup_resolve log)

/-- Logs give all properties the same values if they resolve to the same declarations, in whatever
order. -/
theorem lookup_resolve_congr {a b : List (Declaration α)} :
    (∀ p, lookup (resolve a) p = lookup (resolve b) p) ↔ ∀ d, d ∈ resolve a ↔ d ∈ resolve b := by
  constructor
  · intro same d
    have first : lookup (resolve a) d.property = some d.value ↔ d ∈ resolve a := lookup_resolve_iff
    have second : lookup (resolve b) d.property = some d.value ↔ d ∈ resolve b := lookup_resolve_iff
    rw [← first, ← second, same]
  · intro same p
    apply Option.ext
    intro v
    rw [lookup_resolve_iff, lookup_resolve_iff]
    exact same ⟨p, v⟩

theorem value_unique {log : List (Declaration α)} {p v w : α} (hv : ⟨p, v⟩ ∈ resolve log)
    (hw : ⟨p, w⟩ ∈ resolve log) : v = w :=
  Option.some.inj ((lookup_resolve_iff.2 hv).symm.trans (lookup_resolve_iff.2 hw))

theorem eq_of_property {log : List (Declaration α)} {d e : Declaration α} (hd : d ∈ resolve log)
    (he : e ∈ resolve log) (same : d.property = e.property) : d = e := by
  obtain ⟨p, v⟩ := d
  obtain ⟨q, w⟩ := e
  obtain rfl : p = q := same
  rw [value_unique hd he]

/-- Writing a log over resolved declarations: what the log says of a property wins. -/
theorem lookup_foldl_upsert (ds : List (Declaration α)) (m : List (Declaration α)) (p : α) :
    lookup (ds.foldl (fun m d => upsert d m) m) p = (lookup (resolve ds) p).or (lookup m p) := by
  induction ds generalizing m with
  | nil => rfl
  | cons d ds ih =>
    have first : resolve (d :: ds) = ds.foldl (fun m d => upsert d m) [d] := rfl
    have alone : lookup [d] p = if d.property == p then some d.value else none :=
      lookup_upsert d [] p
    rw [List.foldl_cons, ih, lookup_upsert, first, ih, alone]
    by_cases h : d.property == p
    · cases lookup (resolve ds) p <;> simp [h]
    · simp [h]

theorem lookup_append (a b : List (Declaration α)) (p : α) :
    lookup (resolve (a ++ b)) p = (lookup (resolve b) p).or (lookup (resolve a) p) := by
  rw [resolve, List.foldl_append]
  exact lookup_foldl_upsert b (resolve a) p

theorem lookup_resolve_cons (d : Declaration α) (log : List (Declaration α)) (p : α) :
    lookup (resolve (d :: log)) p =
      (lookup (resolve log) p).or (if d.property == p then some d.value else none) := by
  have first : lookup (resolve [d]) p = if d.property == p then some d.value else none :=
    lookup_upsert d [] p
  rw [← first]
  exact lookup_append [d] log p

theorem mem_resolve_append {a b : List (Declaration α)} {d : Declaration α}
    (h : d ∈ resolve (a ++ b)) : d ∈ resolve a ∨ d ∈ resolve b := by
  have found := lookup_resolve_iff.2 h
  rw [lookup_append] at found
  cases hb : lookup (resolve b) d.property with
  | none =>
    rw [hb, Option.none_or] at found
    exact Or.inl (lookup_resolve_iff.1 found)
  | some v =>
    rw [hb, Option.some_or] at found
    exact Or.inr (lookup_resolve_iff.1 (hb.trans found))

theorem mem_of_mem_resolve {log : List (Declaration α)} {d : Declaration α}
    (h : d ∈ resolve log) : d ∈ log := by
  induction log with
  | nil => exact h
  | cons e log ih =>
    rcases mem_resolve_append (a := [e]) (b := log) h with h | h
    · exact List.mem_cons.2 (Or.inl (List.mem_singleton.1 h))
    · exact List.mem_cons_of_mem _ (ih h)

theorem isSome_lookup_of_mem {log : List (Declaration α)} {d : Declaration α} (h : d ∈ log) :
    (lookup (resolve log) d.property).isSome := by
  induction log with
  | nil => cases h
  | cons e log ih =>
    rw [lookup_resolve_cons, Option.isSome_or]
    rcases List.mem_cons.1 h with rfl | h
    · simp
    · simp [ih h]

/-- Where all that is written is in force elsewhere, nothing of it is written over. -/
theorem mem_resolve_of_subset {log other : List (Declaration α)} (within : log ⊆ resolve other)
    {d : Declaration α} : d ∈ resolve log ↔ d ∈ log := by
  constructor
  · exact mem_of_mem_resolve
  · intro member
    obtain ⟨v, found⟩ := Option.isSome_iff_exists.1 (isSome_lookup_of_mem member)
    have written : ⟨d.property, v⟩ ∈ resolve log := lookup_resolve_iff.1 found
    have same : v = d.value := value_unique (within (mem_of_mem_resolve written)) (within member)
    rw [same] at written
    exact written

theorem upsert_of_absent {d : Declaration α} {m : List (Declaration α)}
    (absent : d.property ∉ m.map (·.property)) : upsert d m = m ++ [d] := by
  induction m with
  | nil => rfl
  | cons e es ih =>
    obtain ⟨other, rest⟩ := not_or.1 (mt List.mem_cons.2 absent)
    have differs : ¬e.property = d.property := fun h => other h.symm
    simp [upsert, differs, ih rest]

theorem foldl_upsert_of_distinct {m ds : List (Declaration α)}
    (distinct : ((m ++ ds).map (·.property)).Nodup) :
    ds.foldl (fun m d => upsert d m) m = m ++ ds := by
  induction ds generalizing m with
  | nil => exact (List.append_nil m).symm
  | cons d ds ih =>
    have absent : d.property ∉ m.map (·.property) := by
      rw [List.map_append, List.nodup_append] at distinct
      exact fun h => distinct.2.2 _ h _ (List.mem_map_of_mem List.mem_cons_self) rfl
    rw [List.append_cons] at distinct ⊢
    rw [List.foldl_cons, upsert_of_absent absent, ih distinct]

/-- Resolved declarations resolve to themselves, in their order. -/
theorem resolve_resolve (log : List (Declaration α)) : resolve (resolve log) = resolve log :=
  foldl_upsert_of_distinct (m := []) (nodup_resolve log)

theorem upsert_of_mem {d : Declaration α} {m : List (Declaration α)}
    (distinct : (m.map (·.property)).Nodup) (member : d ∈ m) : upsert d m = m := by
  induction m with
  | nil => cases member
  | cons e es ih =>
    obtain ⟨new, rest⟩ := List.nodup_cons.1 distinct
    rcases List.mem_cons.1 member with rfl | member
    · simp [upsert]
    · have differs : ¬e.property = d.property := fun h => new (List.mem_map.2 ⟨d, member, h.symm⟩)
      simp [upsert, differs, ih rest member]

theorem foldl_upsert_twice (log : List (Declaration α)) {m : List (Declaration α)}
    (distinct : (m.map (·.property)).Nodup) :
    (resolve log).foldl (fun m d => upsert d m) ((resolve log).foldl (fun m d => upsert d m) m) =
      (resolve log).foldl (fun m d => upsert d m) m := by
  have written : ∀ d ∈ resolve log, d ∈ (resolve log).foldl (fun m d => upsert d m) m := by
    intro d hd
    refine mem_of_lookup ?_
    rw [lookup_foldl_upsert, resolve_resolve, lookup_resolve_iff.2 hd, Option.some_or]
  have stable := nodup_foldl_upsert (resolve log) distinct
  generalize (resolve log).foldl (fun m d => upsert d m) m = m' at written stable ⊢
  generalize resolve log = ds at written
  induction ds with
  | nil => rfl
  | cons d ds ih =>
    rw [List.foldl_cons, upsert_of_mem stable (written d List.mem_cons_self)]
    exact ih fun e he => written e (List.mem_cons_of_mem _ he)

section

omit [LawfulBEq α]

variable {keep : α → Bool} {P : α → Prop}

theorem property_of_mem_upsert {d e : Declaration α} {m : List (Declaration α)}
    (h : e ∈ upsert d m) : e.property ∈ m.map (·.property) ∨ e.property = d.property := by
  induction m with
  | nil => exact Or.inr (congrArg Declaration.property (List.mem_singleton.1 h))
  | cons f m ih =>
    unfold upsert at h
    split at h
    · rcases List.mem_cons.1 h with rfl | h
      · exact Or.inl List.mem_cons_self
      · exact Or.inl (List.mem_cons_of_mem _ (List.mem_map_of_mem h))
    · rcases List.mem_cons.1 h with rfl | h
      · exact Or.inl List.mem_cons_self
      · exact (ih h).imp_left (List.mem_cons_of_mem _)

theorem filter_upsert (respects : ∀ p q, P p → P q → p == q → keep p = keep q) {d : Declaration α}
    (hd : P d.property) {m : List (Declaration α)} (hm : ∀ e ∈ m, P e.property) :
    (upsert d m).filter (keep ·.property) =
      if keep d.property then upsert d (m.filter (keep ·.property))
      else m.filter (keep ·.property) := by
  induction m with
  | nil => cases h : keep d.property <;> simp [upsert, h]
  | cons e es ih =>
    have rest := ih fun f hf => hm f (List.mem_cons_of_mem _ hf)
    by_cases same : e.property == d.property
    · have alike := respects _ _ (hm e List.mem_cons_self) hd same
      cases h : keep d.property <;> simp [upsert, same, alike, h]
    · cases h : keep d.property <;> cases h' : keep e.property <;> simp_all [upsert]

theorem filter_foldl_upsert (respects : ∀ p q, P p → P q → p == q → keep p = keep q)
    {log m : List (Declaration α)} (hlog : ∀ d ∈ log, P d.property) (hm : ∀ e ∈ m, P e.property) :
    (log.foldl (fun m d => upsert d m) m).filter (keep ·.property) =
      (log.filter (keep ·.property)).foldl (fun m d => upsert d m)
        (m.filter (keep ·.property)) := by
  induction log generalizing m with
  | nil => rfl
  | cons d log ih =>
    have hd : P d.property := hlog d List.mem_cons_self
    have written : ∀ e ∈ upsert d m, P e.property := by
      intro e he
      rcases property_of_mem_upsert he with old | new
      · obtain ⟨f, hf, same⟩ := List.mem_map.1 old
        exact same ▸ hm f hf
      · exact new ▸ hd
    rw [List.foldl_cons, ih (fun e he => hlog e (List.mem_cons_of_mem _ he)) written,
      filter_upsert respects hd hm]
    cases h : keep d.property <;> simp [h]

theorem resolve_filter_of_respects (respects : ∀ p q, P p → P q → p == q → keep p = keep q)
    {log : List (Declaration α)} (hlog : ∀ d ∈ log, P d.property) :
    resolve (log.filter (keep ·.property)) = (resolve log).filter (keep ·.property) := by
  have none : ∀ e ∈ ([] : List (Declaration α)), P e.property := fun _ h => (nomatch h)
  exact (filter_foldl_upsert respects hlog none).symm

end

/-- Dropping properties from a log drops them from what it resolves to, and changes nothing else. -/
theorem resolve_filter (keep : α → Bool) (log : List (Declaration α)) :
    resolve (log.filter (keep ·.property)) = (resolve log).filter (keep ·.property) :=
  resolve_filter_of_respects (P := fun _ => True) (fun _ _ _ _ same => congrArg keep (eq_of_beq same))
    fun _ _ => trivial

namespace Grouping

@[simp] theorem resolve_declarations (g : Grouping α) : resolve g.declarations = g.declarations :=
  resolve_resolve g.log

omit [LawfulBEq α] in
theorem log_insertSelectors (g : Grouping α) (ss : List α) : (g.insertSelectors ss).log = g.log := by
  have one : ∀ (g : Grouping α) (s : α), (g.insertSelector s).log = g.log := by
    intro g s
    unfold insertSelector
    split <;> rfl
  unfold insertSelectors
  induction ss generalizing g with
  | nil => rfl
  | cons s ss ih => rw [List.foldl_cons, ih, one]

omit [LawfulBEq α] in
@[simp] theorem declarations_insertSelectors (g : Grouping α) (ss : List α) :
    (g.insertSelectors ss).declarations = g.declarations :=
  congrArg resolve (log_insertSelectors g ss)

omit [LawfulBEq α] in
@[simp] theorem declarations_ofLists (ds : List (Declaration α)) (ss : List α) :
    (ofLists ds ss).declarations = resolve ds :=
  declarations_insertSelectors _ ss

theorem mem_insertSelector {g : Grouping α} {s t : α} :
    t ∈ (g.insertSelector s).selectors ↔ t ∈ g.selectors ∨ t = s := by
  unfold insertSelector
  split
  · next present =>
    have member : s ∈ g.selectors := by simpa using present
    constructor
    · exact Or.inl
    · rintro (h | rfl)
      · exact h
      · exact member
  · simp

theorem mem_insertSelectors {g : Grouping α} {ss : List α} {t : α} :
    t ∈ (g.insertSelectors ss).selectors ↔ t ∈ g.selectors ∨ t ∈ ss := by
  unfold insertSelectors
  induction ss generalizing g with
  | nil => simp
  | cons s ss ih => rw [List.foldl_cons, ih, mem_insertSelector, List.mem_cons, or_assoc]

theorem nodup_insertSelector {g : Grouping α} (h : g.selectors.Nodup) (s : α) :
    (g.insertSelector s).selectors.Nodup := by
  unfold insertSelector
  split
  · exact h
  · next new =>
    refine List.nodup_append.2 ⟨h, by simp, fun a ha b hb same => new ?_⟩
    rw [List.mem_singleton] at hb
    exact List.elem_eq_true_of_mem (hb ▸ same ▸ ha)

theorem nodup_insertSelectors {g : Grouping α} (h : g.selectors.Nodup) (ss : List α) :
    (g.insertSelectors ss).selectors.Nodup := by
  unfold insertSelectors
  induction ss generalizing g with
  | nil => exact h
  | cons s ss ih => exact ih (nodup_insertSelector h s)

theorem insertSelectors_of_distinct {g : Grouping α} {ss : List α}
    (distinct : (g.selectors ++ ss).Nodup) :
    g.insertSelectors ss = ⟨g.selectors ++ ss, g.log⟩ := by
  unfold insertSelectors
  induction ss generalizing g with
  | nil => rw [List.append_nil]; rfl
  | cons s ss ih =>
    have new : s ∉ g.selectors := fun old =>
      (List.nodup_append.1 distinct).2.2 s old s List.mem_cons_self rfl
    have added : g.insertSelector s = ⟨g.selectors ++ [s], g.log⟩ := by
      simp [insertSelector, new]
    rw [List.append_cons] at distinct ⊢
    rw [List.foldl_cons, added, ih distinct]

theorem declarations_dropProperties (g : Grouping α) (ps : List α) :
    (g.dropProperties ps).declarations = g.declarations.filter (!ps.contains ·.property) :=
  resolve_filter (!ps.contains ·) g.log

theorem mem_confirmed {m ds : List (Declaration α)} {p : α} :
    p ∈ confirmed m ds ↔ ∃ v, ⟨p, v⟩ ∈ ds ∧ lookup m p = some v := by
  simp only [confirmed, List.mem_map, List.mem_filter, Option.any_eq_true, beq_iff_eq]
  constructor
  · rintro ⟨d, ⟨given, v, found, rfl⟩, rfl⟩
    exact ⟨d.value, given, found⟩
  · rintro ⟨v, given, found⟩
    exact ⟨⟨p, v⟩, ⟨given, v, found, rfl⟩, rfl⟩

theorem mem_declarations_retract {g : Grouping α} {ds : List (Declaration α)}
    {d : Declaration α} :
    d ∈ (g.retract ds).declarations ↔ d ∈ g.declarations ∧ d ∉ ds := by
  rw [retract, declarations_dropProperties, List.mem_filter]
  refine and_congr_right fun member => ?_
  have found : lookup g.declarations d.property = some d.value := lookup_resolve_iff.2 member
  have confirms : d.property ∈ confirmed g.declarations ds ↔ d ∈ ds := by
    rw [mem_confirmed]
    constructor
    · rintro ⟨v, given, same⟩
      cases found.symm.trans same
      exact given
    · exact fun given => ⟨d.value, given, found⟩
  simp [confirms]

end Grouping

end StyleFactor
