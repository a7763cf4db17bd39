import StyleFactor.Proofs.Grouping.Extraction
import StyleFactor.Proofs.Grouping.FirstOccurrence
import StyleFactor.Proofs.Grouping.Refinement
import StyleFactor.Proofs.Grouping.Validation

/-!
Groupings written as rules and made from them again. A rule has the selectors of its grouping and
what its log resolves to; both are free of repetitions, so nothing is lost on the way back. Main
statement: a grouping and its copy look the same, whatever the log holds, and a rule is tidied once
and for all (`copies_alike`).
-/
namespace StyleFactor

/-! A table from its own selectors and declarations. -/

namespace Table

theorem eq_of_lists {t u : Table} (selectors : t.selectors = u.selectors)
    (declarations : t.declarations = u.declarations) : t = u := by
  cases t
  cases u
  cases selectors
  cases declarations
  rfl

theorem selectors_foldl_addSelector (t : Table) (ss : List String) :
    (ss.foldl addSelector t).selectors =
      t.selectors ++ (ss.removeAll t.selectors).eraseDups := by
  rw [← foldl_concat_new]
  refine (List.foldl_hom Table.selectors fun t s => ?_).symm
  by_cases there : s ∈ t.selectors <;> simp [addSelector, there]

theorem declarations_foldl_addSelector (t : Table) (ss : List String) :
    (ss.foldl addSelector t).declarations = t.declarations := by
  induction ss generalizing t with
  | nil => rfl
  | cons s ss ih => rw [List.foldl_cons, ih, declarations_addSelector]

theorem resolve_declarations (t : Table) : resolve t.declarations = t.declarations :=
  foldl_upsert_of_distinct (m := []) t.properties_nodup

theorem new_self (t : Table) : Table.new t.declarations t.selectors = t := by
  refine eq_of_lists ?_ ?_
  · rw [Table.new, selectors_foldl_addSelector, selectors_foldl_set, empty, removeAll_nil,
      List.nil_append, eraseDups_of_nodup t.selectors_nodup]
  · rw [Table.new, declarations_foldl_addSelector, declarations_foldl_set]
    exact t.resolve_declarations

/-- The grouping that holds what the table holds, and nothing else. -/
def grouping (t : Table) : Grouping String := ⟨t.selectors, t.declarations⟩

theorem declarations_grouping (t : Table) : t.grouping.declarations = t.declarations :=
  t.resolve_declarations

end Table

/-- Whether a change adds a selector. -/
def Change.Adds (c : Change) (s : String) : Prop :=
  match c with
  | .addSelectors ss => s ∈ ss
  | _ => False

theorem mem_selectors_apply {t : Table} {c : Change} {s : String}
    (member : s ∈ (t.apply c).selectors) : s ∈ t.selectors ∨ c.Adds s := by
  cases c with
  | addSelectors ss =>
    rw [Table.apply, Table.selectors_foldl_addSelector, List.mem_append, List.mem_eraseDups] at member
    exact member.imp_right fun new => (List.mem_filter.1 new).1
  | addDeclarations ds =>
    rw [Table.apply, Table.selectors_foldl_set] at member
    exact .inl member
  | removeDeclarations ds => exact .inl member

theorem mem_selectors_foldl_apply {t : Table} {changes : List Change} {s : String}
    (member : s ∈ (changes.foldl Table.apply t).selectors) :
    s ∈ t.selectors ∨ ∃ c ∈ changes, c.Adds s := by
  induction changes generalizing t with
  | nil => exact .inl member
  | cons c changes ih =>
    rcases ih member with before | ⟨d, later, adds⟩
    · rcases mem_selectors_apply before with old | adds
      · exact .inl old
      · exact .inr ⟨c, List.mem_cons_self, adds⟩
    · exact .inr ⟨d, List.mem_cons_of_mem c later, adds⟩

theorem mem_selectors_new {ds : List (Declaration String)} {ss : List String} {s : String} :
    s ∈ (Table.new ds ss).selectors ↔ s ∈ ss := by
  rw [Table.new, Table.selectors_foldl_addSelector, Table.selectors_foldl_set, Table.empty,
    removeAll_nil, List.nil_append, List.mem_eraseDups]

/-! Rules and groupings. -/

namespace Grouping

/-- A grouping that is read back from its rule has the same selectors, and its log is what the
grouping resolves to. -/
theorem ofDraft_toRule {g : Grouping String} (distinct : g.selectors.Nodup)
    (solid : "" ∉ g.selectors) :
    ofDraft (Entry.rule g.toRule).toDraft = .ok ⟨g.selectors, g.declarations⟩ := by
  rw [ofDraft_rule fun s member none => solid (none ▸ member), grouping_toRule distinct]

theorem toRule_resolved (g : Grouping String) :
    (⟨g.selectors, g.declarations⟩ : Grouping String).toRule = g.toRule := by
  have resolves : (⟨g.selectors, g.declarations⟩ : Grouping String).declarations =
      g.declarations := g.resolve_declarations
  rw [toRule, resolves, toRule]

theorem toRule_ofLists (ds : List (Declaration String)) (ss : List String) :
    (ofLists ds ss).toRule =
      ⟨ss.eraseDups, (lastWrites ds).map fun e => ⟨e.property, e.value, none⟩, none⟩ := by
  rw [toRule, selectors_ofLists, declarations_ofLists, resolve_eq_lastWrites]

end Grouping

/-! Copies of groupings in use. -/

namespace Live

variable {g : Live Value} {t : Table}

theorem Shows.toDraft (shows : g.Shows t) :
    g.toDraft = (g.read, .ok (Entry.rule t.grouping.toRule).toDraft) := by
  have declarations : t.grouping.toRule.declarations.map Decl.toValue =
      (t.declarations.map Declaration.ofTexts).map fun d => .decl d.property d.value none := by
    rw [Grouping.toRule, Table.declarations_grouping, List.map_map, List.map_map]
    rfl
  rw [Live.toDraft, shows.readRequest]
  refine congrArg (fun d => (g.read, Except.ok d)) ?_
  rw [shows.read.selectors, Entry.toDraft, declarations]
  rfl

theorem shows_ofGrouping (t : Table) : (ofGrouping t.grouping).Shows t := by
  have made := shows_ofLists t.declarations t.selectors
  rwa [Table.new_self] at made

theorem log_ofGrouping (g : Grouping String) :
    (ofGrouping g).grouping.log = g.log.map .ofTexts :=
  log_insertSelectors _ _

theorem Shows.copy (shows : g.Shows t) (solid : "" ∉ t.selectors) :
    g.copy = (g.read, .ok (ofGrouping t.grouping)) := by
  have back : Grouping.ofDraft (Entry.rule t.grouping.toRule).toDraft = .ok t.grouping := by
    rw [Grouping.ofDraft_toRule t.selectors_nodup solid, Table.declarations_grouping]
    rfl
  rw [Live.copy, shows.toDraft]
  exact congrArg (Prod.mk g.read) (bind_eq_ok.2 ⟨_, rfl, bind_eq_ok.2 ⟨_, back, rfl⟩⟩)

end Live

/-- For every new grouping and all calls on it that are made with texts only, none of them an empty
selector: the calls are completed, the grouping can be copied by way of a rule, and the copy shows
what the grouping shows, though it logs nothing else. And for every entry that lists selectors and
declarations: the rule that its grouping is written as has each selector once and the last value of
each property, in the order in which these occur first, and from that rule it is made again. -/
theorem copies_alike :
    (∀ (declarations selectors : Value) (ds : List (Declaration String)) (ss : List String)
      (calls : List Call) (changes : List Change),
      Live.gathered declarations = .ok (ds.map .ofTexts) →
      selectors.selectorItems = .ok (ss.map .text) → Amounts calls changes →
      "" ∉ ss → (∀ c ∈ changes, ¬c.Adds "") →
      ∃ new g h v, Live.request declarations selectors = .ok new ∧ new.run calls = .ok g ∧
        g.copy.2 = .ok h ∧ g.view.2 = .ok v ∧ h.view.2 = .ok v ∧ h.grouping.log = v.declarations) ∧
    ∀ (d : Draft) (ss : List String) (ws : List Value) (ds : List (Declaration String)),
      d.selectors = .list (ss.map .text) → "" ∉ ss → d.declarations = .list ws →
      List.Forall₂ Value.Declares ws ds →
      ∃ g h, Grouping.ofDraft d = .ok g ∧
        g.toRule = ⟨ss.eraseDups, (lastWrites ds).map fun e => ⟨e.property, e.value, none⟩, none⟩ ∧
        Grouping.ofDraft (Entry.rule g.toRule).toDraft = .ok h ∧ h.toRule = g.toRule := by
  constructor
  · intro declarations selectors ds ss calls changes declared named amounts solid none
    obtain ⟨new, made, start⟩ := Live.shows_request declared named
    obtain ⟨g, ran, shows⟩ := start.run amounts
    have filled : "" ∉ (changes.foldl Table.apply (.new ds ss)).selectors := by
      intro member
      rcases mem_selectors_foldl_apply member with first | ⟨c, later, adds⟩
      · exact solid (mem_selectors_new.1 first)
      · exact none c later adds
    exact ⟨new, g, _, _, made, ran, congrArg Prod.snd (shows.copy filled), shows.view,
      (Live.shows_ofGrouping _).view, Live.log_ofGrouping _⟩
  · intro d ss ws ds selectors solid declarations each
    have distinct : (Grouping.ofLists ds ss).selectors.Nodup :=
      Grouping.nodup_insertSelectors List.nodup_nil ss
    have filled : "" ∉ (Grouping.ofLists ds ss).selectors := by
      rwa [Grouping.selectors_ofLists, List.mem_eraseDups]
    exact ⟨_, _, Grouping.ofDraft_of_lists selectors solid declarations each,
      Grouping.toRule_ofLists ds ss, Grouping.ofDraft_toRule distinct filled,
      Grouping.toRule_resolved _⟩

/-- A value that was set again and a property that was taken away and added again are copied as they
stand. A rule that says a selector and a property twice is written with the last value. -/
theorem copies_alike_of_rewritten :
    (∃ new g h, Live.request (.list [.tuple [.text "color", .text "red"],
          .tuple [.text "top", .text "0"]]) (.list [.text "a"]) = .ok new ∧
      new.run [.addDeclarations (.tuple [.text "color", .text "blue"]),
        .removeDeclarations (.tuple [.text "top", .text "0"]),
        .addDeclarations (.tuple [.text "top", .text "1px"]), .addSelectors (.text "b")] = .ok g ∧
      g.copy.2 = .ok h ∧ g.grouping.log.length = 3 ∧ h.grouping.log.length = 2 ∧
      h.view.2 = .ok ⟨[.text "a", .text "b"],
        [⟨.text "color", .text "blue"⟩, ⟨.text "top", .text "1px"⟩], 19, 3⟩) ∧
    ∃ g, Grouping.ofDraft (.rule (.list [.text "a", .text "b", .text "a"])
        (.list [.decl (.text "color") (.text "red") none, .decl (.text "top") (.text "0") none,
          .decl (.text "color") (.text "blue") none]) none) = .ok g ∧
      g.toRule = ⟨["a", "b"], [⟨"color", "blue", none⟩, ⟨"top", "0", none⟩], none⟩ := by
  constructor
  · have amounts : Amounts
        [.addDeclarations (.tuple [.text "color", .text "blue"]),
          .removeDeclarations (.tuple [.text "top", .text "0"]),
          .addDeclarations (.tuple [.text "top", .text "1px"]), .addSelectors (.text "b")]
        [.addDeclarations [⟨"color", "blue"⟩], .removeDeclarations [⟨"top", "0"⟩],
          .addDeclarations [⟨"top", "1px"⟩], .addSelectors ["b"]] :=
      .addDeclarations rfl (.removeDeclarations rfl (.addDeclarations rfl (.addSelectors rfl .nil)))
    obtain ⟨new, g, h, v, made, ran, copied, seen, same, log⟩ := copies_alike.1
      (.list [.tuple [.text "color", .text "red"], .tuple [.text "top", .text "0"]])
      (.list [.text "a"]) [⟨"color", "red"⟩, ⟨"top", "0"⟩] ["a"] _ _ rfl rfl amounts (by decide)
      (by simp [Change.Adds])
    have view : v = ⟨[.text "a", .text "b"],
        [⟨.text "color", .text "blue"⟩, ⟨.text "top", .text "1px"⟩], 19, 3⟩ := by
      obtain rfl := Except.ok.inj made
      obtain rfl := Except.ok.inj ran
      exact Except.ok.inj (seen.symm.trans rfl)
    refine ⟨new, g, h, made, ran, copied, ?_, ?_, same.trans (congrArg _ view)⟩
    · obtain rfl := Except.ok.inj made
      obtain rfl := Except.ok.inj ran
      rfl
    · rw [log, view]
      rfl
  · obtain ⟨g, h, made, written, -⟩ := copies_alike.2
      (.rule (.list [.text "a", .text "b", .text "a"])
        (.list [.decl (.text "color") (.text "red") none, .decl (.text "top") (.text "0") none,
          .decl (.text "color") (.text "blue") none]) none)
      ["a", "b", "a"] _ [⟨"color", "red"⟩, ⟨"top", "0"⟩, ⟨"color", "blue"⟩] rfl (by decide) rfl
      (.cons rfl (.cons rfl (.cons rfl .nil)))
    exact ⟨g, made, written.trans (by decide)⟩

end StyleFactor
