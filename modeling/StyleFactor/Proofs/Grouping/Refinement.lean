import StyleFactor.Proofs.Grouping.Calls
import StyleFactor.Proofs.Grouping.Embedding
import StyleFactor.Proofs.Grouping.Table

/-!
A grouping in use is a table of selectors and declarations, as long as it is given texts only. The
relation between the two (`Live.Shows`) holds of a new grouping, and one lemma for each kind of call
says that it stays. Main statement: whatever calls are made, what is read afterwards is what the
table holds after the same changes, and reading in between makes no difference (`refines_table`).
-/
namespace StyleFactor

theorem embeds_text : Embeds Value.text := fun _ _ => rfl

abbrev Declaration.ofTexts : Declaration String → Declaration Value := Declaration.map .text

/-- The changes that calls with texts only amount to. Reading is none. -/
inductive Amounts : List Call → List Change → Prop
  | nil : Amounts [] []
  | read {calls changes} : Amounts calls changes → Amounts (.read :: calls) changes
  | addSelectors {arg ss calls changes} :
      arg.selectorItems = .ok (ss.map .text) → Amounts calls changes →
      Amounts (.addSelectors arg :: calls) (.addSelectors ss :: changes)
  | addDeclarations {arg ds calls changes} :
      arg.toDeclarations = .ok (ds.map .ofTexts) → Amounts calls changes →
      Amounts (.addDeclarations arg :: calls) (.addDeclarations ds :: changes)
  | removeDeclarations {arg ds calls changes} :
      arg.toDeclarations = .ok (ds.map .ofTexts) → Amounts calls changes →
      Amounts (.removeDeclarations arg :: calls) (.removeDeclarations ds :: changes)

theorem Amounts.withoutReads {calls : List Call} {changes : List Change}
    (h : Amounts calls changes) : Amounts (calls.filter (!·.isRead)) changes := by
  induction h with
  | nil => exact .nil
  | read _ ih => exact ih
  | addSelectors given _ ih => exact .addSelectors given ih
  | addDeclarations given _ ih => exact .addDeclarations given ih
  | removeDeclarations given _ ih => exact .removeDeclarations given ih

def Table.view (t : Table) : Live.View where
  selectors := t.selectors.map .text
  declarations := t.declarations.map .ofTexts
  declarationSize := declarationsSize t.declarations
  selectorSize := t.selectorSize

namespace Live

/-- The grouping `g` is the table `t` to those who use it: its log resolves to the declarations of
the table, and nothing else is remembered. -/
structure Shows (g : Live Value) (t : Table) : Prop where
  sound : g.Sound
  fresh : g.Fresh
  selectors : g.grouping.selectors = t.selectors.map .text
  log : ∃ log, g.grouping.log = log.map .ofTexts ∧ resolve log = t.declarations

section

variable {g : Live Value} {t : Table}

theorem needHashable_texts (ds : List (Declaration String)) :
    needHashable (ds.map .ofTexts) = .ok () := by
  rw [needHashable, if_pos]
  simp [Declaration.map, Value.isHashable]

theorem Shows.declarations (shows : g.Shows t) : g.declarations = t.declarations.map .ofTexts := by
  obtain ⟨log, hlog, resolved⟩ := shows.log
  rw [shows.fresh, Grouping.declarations, hlog, embeds_text.resolve_map, resolved]

theorem Shows.needHashable (shows : g.Shows t) : needHashable g.grouping.log = .ok () := by
  obtain ⟨log, hlog, -⟩ := shows.log
  rw [hlog, needHashable_texts]

theorem Shows.resolved (shows : g.Shows t) : g.resolved = .ok (t.declarations.map .ofTexts) := by
  rw [← shows.declarations, Live.resolved, shows.needHashable]
  cases remembered : g.seen with
  | none => rfl
  | some m => rw [Live.declarations, remembered]; rfl

theorem Shows.read (shows : g.Shows t) : g.read.Shows t :=
  ⟨shows.sound.read, shows.fresh.read, shows.selectors, shows.log⟩

theorem Shows.readRequest (shows : g.Shows t) :
    g.readRequest = (g.read, .ok (t.declarations.map .ofTexts)) := by
  rw [Live.readRequest, shows.resolved]

theorem Shows.contains_known (shows : g.Shows t) (s : String) :
    g.known.contains (.text s) = t.selectors.contains s := by
  rw [shows.sound.contains_known, shows.selectors, embeds_text.contains_map]

theorem Shows.insertSelector (shows : g.Shows t) (s : String) :
    (g.insertSelector (.text s)).Shows (t.addSelector s) := by
  have fresh : (g.insertSelector (.text s)).Fresh := by
    simpa [Fresh, Live.declarations, Grouping.declarations] using shows.fresh
  refine ⟨shows.sound.insertSelector _, fresh, ?_, ?_⟩
  · have looked := shows.contains_known s
    by_cases there : s ∈ t.selectors
    · simpa [Live.insertSelector, Table.addSelector, looked, there] using shows.selectors
    · simp [Live.insertSelector, Table.addSelector, looked, there, shows.selectors]
  · rw [log_insertSelector, Table.declarations_addSelector]
    exact shows.log

theorem Shows.insertSelectors (shows : g.Shows t) (ss : List String) :
    (g.insertSelectors (ss.map .text)).Shows (ss.foldl Table.addSelector t) := by
  induction ss generalizing g t with
  | nil => exact shows
  | cons s ss ih => exact ih (shows.insertSelector s)

theorem Shows.declare (shows : g.Shows t) (ds : List (Declaration String)) :
    (g.declare (ds.map .ofTexts)).Shows (ds.foldl Table.set t) := by
  obtain ⟨log, hlog, resolved⟩ := shows.log
  refine ⟨(shows.sound.declarePartly _).touch, fresh_of_seen (shows.sound.seen_declare _), ?_,
    log ++ ds, ?_, ?_⟩
  · rw [Table.selectors_foldl_set]
    exact shows.selectors
  · rw [List.map_append, ← hlog]
    rfl
  · rw [Table.declarations_foldl_set, ← resolved, resolve, List.foldl_append, resolve]

theorem Shows.retract (shows : g.Shows t) (ds : List (Declaration String)) :
    (g.retract (ds.map .ofTexts)).Shows (t.remove ds) := by
  obtain ⟨log, hlog, resolved⟩ := shows.log
  have confirmed : Grouping.confirmed g.declarations (ds.map .ofTexts) =
      (Grouping.confirmed (resolve log) ds).map .text := by
    rw [shows.declarations, ← resolved, embeds_text.confirmed_map]
  have left := Table.declarations_retract ⟨[], log⟩ ds
  refine ⟨shows.sound.retract _, shows.fresh.retract shows.sound _, ?_, _, ?_,
    left.trans ?_⟩
  · rw [grouping_retract]
    exact shows.selectors
  · rw [grouping_retract, confirmed, Grouping.dropProperties, hlog]
    exact embeds_text.filter_properties_map log _
  · rw [Grouping.declarations, resolved]
    rfl

omit t in
theorem perform_addSelectors (g : Live Value) {arg : Value} {ss : List String}
    (given : arg.selectorItems = .ok (ss.map .text)) :
    g.perform (.addSelectors arg) = (g.insertSelectors (ss.map .text), none) := by
  have all : (ss.map Value.text).mapM
      (fun v => if v.isHashable then Except.ok v else .error Fault.notHashable) =
        .ok (ss.map .text) :=
    mapM_map_ok fun _ _ => rfl
  simp only [perform, requestSelectors, given, upToFault_of_mapM all]

theorem perform_addDeclarations (g : Live Value) {arg : Value} {ds : List (Declaration String)}
    (given : arg.toDeclarations = .ok (ds.map .ofTexts)) :
    g.perform (.addDeclarations arg) = (g.declare (ds.map .ofTexts), none) := by
  obtain ⟨vs, items, each⟩ := bind_eq_ok.1 given
  simp only [perform, requestDeclarations, items, upToFault_of_mapM each]

theorem wanted_texts {arg : Value} {ds : List (Declaration String)}
    (given : arg.toDeclarations = .ok (ds.map .ofTexts)) : wanted arg = .ok (ds.map .ofTexts) := by
  obtain ⟨vs, items, each⟩ := bind_eq_ok.1 given
  refine bind_eq_ok.2 ⟨vs, items, ?_⟩
  clear given items
  induction vs generalizing ds with
  | nil => exact each
  | cons v vs ih =>
    obtain ⟨z, zs, first, rest, eq⟩ := mapM_cons_eq_ok.1 each
    obtain ⟨d, ds, rfl, rfl, rfl⟩ := List.map_eq_cons_iff.1 eq
    refine mapM_cons_eq_ok.2 ⟨d.ofTexts, ds.map .ofTexts, ?_, ih rest, rfl⟩
    rw [first]
    rfl

theorem Shows.perform_removeDeclarations (shows : g.Shows t) {arg : Value}
    {ds : List (Declaration String)} (given : arg.toDeclarations = .ok (ds.map .ofTexts)) :
    g.perform (.removeDeclarations arg) = (g.retract (ds.map .ofTexts), none) := by
  simp only [perform, requestRemoval, shows.resolved, wanted_texts given, shows.needHashable]
  cases Grouping.confirmed (t.declarations.map .ofTexts) (ds.map .ofTexts) <;> rfl

theorem Shows.perform_read (shows : g.Shows t) : g.perform .read = (g.read, none) := by
  simp only [perform, shows.readRequest]

/-- Calls with texts only are all completed, and the grouping goes on to show the table. -/
theorem Shows.run {calls : List Call} {changes : List Change} (amounts : Amounts calls changes) :
    ∀ {g : Live Value} {t : Table}, g.Shows t →
      ∃ h, g.run calls = .ok h ∧ h.Shows (changes.foldl Table.apply t) := by
  induction amounts with
  | nil => exact fun shows => ⟨_, rfl, shows⟩
  | read _ ih =>
    intro g t shows
    simp only [Live.run, shows.perform_read]
    exact ih shows.read
  | addSelectors given _ ih =>
    intro g t shows
    simp only [Live.run, perform_addSelectors g given]
    exact ih (shows.insertSelectors _)
  | addDeclarations given _ ih =>
    intro g t shows
    simp only [Live.run, perform_addDeclarations g given]
    exact ih (shows.declare _)
  | removeDeclarations given _ ih =>
    intro g t shows
    simp only [Live.run, shows.perform_removeDeclarations given]
    exact ih (shows.retract _)

theorem shows_ofLists (ds : List (Declaration String)) (ss : List String) :
    (Live.ofLists (ds.map .ofTexts) (ss.map .text) : Live Value).Shows (Table.new ds ss) := by
  have bare : (Live.ofLists (ds.map .ofTexts) [] : Live Value).Shows (ds.foldl Table.set .empty) := by
    refine ⟨sound_ofLists _ _, rfl, ?_, ds, rfl, ?_⟩
    · rw [Table.selectors_foldl_set]
      rfl
    · rw [Table.declarations_foldl_set]
      rfl
  exact bare.insertSelectors ss

theorem shows_request {declarations selectors : Value} {ds : List (Declaration String)}
    {ss : List String} (declared : gathered declarations = .ok (ds.map .ofTexts))
    (named : selectors.selectorItems = .ok (ss.map .text)) :
    ∃ g, request declarations selectors = .ok g ∧ g.Shows (Table.new ds ss) :=
  ⟨_, request_eq_ok.2 ⟨_, declared, perform_addSelectors _ named⟩, shows_ofLists ds ss⟩

theorem declarationMeasure_texts (ds : List (Declaration String)) :
    declarationMeasure (ds.map .ofTexts) = .ok (declarationsSize ds) := by
  have each : (ds.map Declaration.ofTexts).mapM
      (fun d => do return (← d.property.length) + (← d.value.length) + 2) =
        Except.ok (ds.map Declaration.size) :=
    mapM_map_ok fun _ _ => rfl
  rw [declarationMeasure, each]
  rfl

theorem Shows.selectorMeasure (shows : g.Shows t) : g.selectorMeasure = .ok t.selectorSize := by
  have each : (t.selectors.map Value.text).mapM Value.length =
      .ok (t.selectors.map String.length) :=
    mapM_map_ok fun _ _ => rfl
  rw [Live.selectorMeasure, shows.selectors, each]
  refine congrArg (fun n => Except.ok (total (t.selectors.map String.length) + (n - 1))) ?_
  exact List.length_map String.length

theorem Shows.view (shows : g.Shows t) : g.view.2 = .ok t.view := by
  simp only [Live.view, shows.readRequest, shows.read.selectorMeasure]
  exact bind_eq_ok.2 ⟨_, rfl, bind_eq_ok.2 ⟨_, declarationMeasure_texts _, by
    rw [shows.read.selectors]; rfl⟩⟩

/-- What is remembered is up to date, or known not to be. -/
theorem Shows.cache (shows : g.Shows t) :
    ∀ r ∈ g.cache, r.1 ≤ g.version ∧ (r.1 = g.version → r.2 = g.grouping.declarations) := by
  refine fun r cached => ⟨shows.sound.stamp r cached, fun current => ?_⟩
  have remembered : g.seen = some r.2 := by
    rw [seen, Option.mem_def.1 cached, Option.filter_some, if_pos (beq_iff_eq.2 current)]
    rfl
  rw [← shows.fresh, Live.declarations, remembered]
  rfl

theorem nodup_texts {l : List String} (distinct : l.Nodup) : (l.map Value.text).Nodup :=
  List.pairwise_map.2 (distinct.imp fun differ same => differ (Value.text.inj same))

theorem Shows.nodup_selectors (shows : g.Shows t) : g.grouping.selectors.Nodup := by
  rw [shows.selectors]
  exact nodup_texts t.selectors_nodup

theorem Shows.nodup_properties (shows : g.Shows t) :
    (g.declarations.map (·.property)).Nodup := by
  have properties : (t.declarations.map Declaration.ofTexts).map Declaration.property =
      (t.declarations.map Declaration.property).map Value.text := by
    rw [List.map_map, List.map_map]
    rfl
  rw [shows.declarations, properties]
  exact nodup_texts t.properties_nodup

end

/-- For every new grouping and all calls on it, made with texts only: they are completed, and what
is read afterwards is what the table holds after the same changes, whether or not anything was read
in between. Nothing out of date is remembered as of the current version, the selectors are looked up
among just themselves, and no selector or property occurs twice. -/
theorem refines_table {declarations selectors : Value} {ds : List (Declaration String)}
    {ss : List String} (declared : gathered declarations = .ok (ds.map .ofTexts))
    (named : selectors.selectorItems = .ok (ss.map .text)) {calls : List Call}
    {changes : List Change} (amounts : Amounts calls changes) :
    ∃ new g h, request declarations selectors = .ok new ∧ new.run calls = .ok g ∧
      new.run (calls.filter (!·.isRead)) = .ok h ∧
      g.view.2 = .ok (changes.foldl Table.apply (.new ds ss)).view ∧ h.view.2 = g.view.2 ∧
      (∀ r ∈ g.cache, r.1 ≤ g.version ∧ (r.1 = g.version → r.2 = g.grouping.declarations)) ∧
      (∀ s, s ∈ g.known ↔ s ∈ g.grouping.selectors) ∧
      g.grouping.selectors.Nodup ∧ (g.declarations.map (·.property)).Nodup := by
  obtain ⟨new, made, start⟩ := shows_request declared named
  obtain ⟨g, ran, shows⟩ := start.run amounts
  obtain ⟨h, unread, alike⟩ := start.run amounts.withoutReads
  exact ⟨new, g, h, made, ran, unread, shows.view, alike.view.trans shows.view.symm, shows.cache,
    shows.sound.known, shows.nodup_selectors, shows.nodup_properties⟩

/-- A declaration that is taken away and added again goes to the end, and what was read before is
not remembered. -/
theorem refines_table_of_readdition :
    ∃ new g, request (.list [.tuple [.text "color", .text "red"]]) (.text "a") = .ok new ∧
      new.run [.addDeclarations (.tuple [.text "top", .text "0"]), .read,
        .removeDeclarations (.tuple [.text "color", .text "red"]), .read,
        .addDeclarations (.list [.pair (.text "color") (.text "red")]),
        .addSelectors (.list [.text "b", .text "a"])] = .ok g ∧
      g.view.2 = .ok ⟨[.text "a", .text "b"],
        [⟨.text "top", .text "0"⟩, ⟨.text "color", .text "red"⟩], 16, 3⟩ := by
  have amounts : Amounts
      [.addDeclarations (.tuple [.text "top", .text "0"]), .read,
        .removeDeclarations (.tuple [.text "color", .text "red"]), .read,
        .addDeclarations (.list [.pair (.text "color") (.text "red")]),
        .addSelectors (.list [.text "b", .text "a"])]
      [.addDeclarations [⟨"top", "0"⟩], .removeDeclarations [⟨"color", "red"⟩],
        .addDeclarations [⟨"color", "red"⟩], .addSelectors ["b", "a"]] :=
    .addDeclarations rfl (.read (.removeDeclarations rfl (.read (.addDeclarations rfl
      (.addSelectors rfl .nil)))))
  have declared : gathered (.list [.tuple [.text "color", .text "red"]]) =
      .ok ([⟨"color", "red"⟩].map .ofTexts) := rfl
  have named : (Value.text "a").selectorItems = .ok (["a"].map .text) := rfl
  obtain ⟨new, g, h, made, ran, -, seen, -⟩ := refines_table declared named amounts
  exact ⟨new, g, made, ran, seen.trans rfl⟩

end Live

end StyleFactor
