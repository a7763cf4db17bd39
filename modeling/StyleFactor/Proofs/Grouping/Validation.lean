import StyleFactor.Grouping.Request
import StyleFactor.Proofs.Grouping.FirstOccurrence
import StyleFactor.Proofs.Outcomes

/-!
What an entry has to have so that a grouping is made from it, and what of it the grouping keeps. The
selectors are gone through twice, once to be looked at and once to be kept, and the two need not see
the same: a text is looked at character by character and kept whole, and nothing is left of a stream.
Main statements: which grouping is made (`ofDraft_eq_ok_iff`), which entries are malformed
(`ofDraft_eq_malformed_iff`), and that the empty text is all that this lets through
(`ofDraft_checked`).
-/
namespace StyleFactor

namespace Value

/-- A text that is not empty. -/
def IsSelector (v : Value) : Prop := ∃ s, v = .text s ∧ s ≠ ""

/-- Its two sides are the texts of the declaration. -/
def Declares (v : Value) (d : Declaration String) : Prop :=
  v.sides = (some (.text d.property), some (.text d.value))

/-- The items of selectors that were gone through before. A single text is one item. -/
def selectorItemsLeft : Value → Except Fault (List Value)
  | .stream _ => .ok []
  | v => v.selectorItems

theorem isNull_iff {v : Value} : v.isNull = true ↔ v = .null := by
  cases v <;> simp [isNull]

theorem checkSelector_eq_ok {v : Value} {s : String} :
    v.checkSelector = .ok s ↔ v = .text s ∧ s ≠ "" := by
  cases v with
  | text t =>
    rw [checkSelector]
    split
    · next empty =>
      have none : t = "" := String.isEmpty_iff.1 empty
      simp [none]
    · next solid =>
      have some : t ≠ "" := fun none => solid (String.isEmpty_iff.2 none)
      constructor
      · rintro ⟨⟩
        exact ⟨rfl, some⟩
      · rintro ⟨⟨⟩, -⟩
        rfl
  | _ => simp [checkSelector]

theorem checkDeclaration_eq_ok {v : Value} {d : Declaration String} :
    v.checkDeclaration = .ok d ↔ v.Declares d := by
  unfold checkDeclaration Declares
  split
  · next p w sides =>
    rw [sides]
    constructor
    · rintro ⟨⟩
      rfl
    · intro same
      obtain ⟨rfl, rfl⟩ : p = d.property ∧ w = d.value := by simpa using same
      rfl
  · next other => exact iff_of_false nofun fun same => other _ _ same

theorem mapM_checkSelector_eq_ok {vs : List Value} {ss : List String} :
    vs.mapM checkSelector = .ok ss ↔ vs = ss.map .text ∧ "" ∉ ss := by
  rw [mapM_eq_ok_iff]
  constructor
  · intro each
    induction each with
    | nil => exact ⟨rfl, List.not_mem_nil⟩
    | cons first _ ih =>
      obtain ⟨rfl, solid⟩ := checkSelector_eq_ok.1 first
      obtain ⟨rfl, rest⟩ := ih
      refine ⟨rfl, fun member => ?_⟩
      rcases List.mem_cons.1 member with here | later
      · exact solid here.symm
      · exact rest later
  · rintro ⟨rfl, solid⟩
    rw [List.forall₂_map_left_iff, List.forall₂_same]
    exact fun s member => checkSelector_eq_ok.2 ⟨rfl, fun none => solid (none ▸ member)⟩

theorem mapM_checkDeclaration_eq_ok {ws : List Value} {ds : List (Declaration String)} :
    ws.mapM checkDeclaration = .ok ds ↔ List.Forall₂ Declares ws ds := by
  simp only [mapM_eq_ok_iff, checkDeclaration_eq_ok]

/-- Checks that only ever find something malformed do so where an item does not pass. -/
theorem mapM_eq_malformed_iff {α : Type} {check : Value → Except Refusal α}
    (malformed : ∀ v r, check v = .error r → ∃ m, r = .malformed m) {vs : List Value} :
    (∃ m, vs.mapM check = .error (.malformed m)) ↔ ∃ v ∈ vs, ∀ a, check v ≠ .ok a := by
  constructor
  · rintro ⟨m, refused⟩
    obtain ⟨v, member, here⟩ := exists_of_mapM_error refused
    refine ⟨v, member, fun a passed => ?_⟩
    rw [here] at passed
    cases passed
  · rintro ⟨v, member, stuck⟩
    cases all : vs.mapM check with
    | ok as =>
      obtain ⟨a, passed⟩ := exists_ok_of_mem all v member
      exact absurd passed (stuck a)
    | error r =>
      obtain ⟨w, -, here⟩ := exists_of_mapM_error all
      obtain ⟨m, rfl⟩ := malformed w r here
      exact ⟨m, rfl⟩

theorem mapM_checkSelector_eq_malformed {vs : List Value} :
    (∃ m, vs.mapM checkSelector = .error (.malformed m)) ↔ ∃ v ∈ vs, ¬v.IsSelector := by
  rw [mapM_eq_malformed_iff]
  · simp only [IsSelector, ne_eq, checkSelector_eq_ok, not_exists]
  · intro v r refused
    unfold checkSelector at refused
    repeat' split at refused
    all_goals cases refused
    all_goals exact ⟨_, rfl⟩

theorem mapM_checkDeclaration_eq_malformed {ws : List Value} :
    (∃ m, ws.mapM checkDeclaration = .error (.malformed m)) ↔ ∃ w ∈ ws, ∀ d, ¬w.Declares d := by
  rw [mapM_eq_malformed_iff]
  · simp only [ne_eq, checkDeclaration_eq_ok]
  · intro v r refused
    unfold checkDeclaration at refused
    split at refused
    · cases refused
    · cases refused
      exact ⟨_, rfl⟩

end Value

/-- What the selectors and declarations of an entry are gone through for: texts that are not empty,
and sides that are texts. -/
structure Draft.Says (d : Draft) (ss : List String) (ds : List (Declaration String)) : Prop where
  selectors : d.selectors.items = .ok (ss.map .text)
  solid : "" ∉ ss
  declarations : ∃ ws, d.declarations.items = .ok ws ∧ List.Forall₂ Value.Declares ws ds

theorem refuse_eq_ok {α : Type} {x : Except Fault α} {a : α} :
    Fault.refuse x = .ok a ↔ x = .ok a := by
  cases x <;> simp [Fault.refuse, Except.mapError]

theorem refuse_ne_malformed {α : Type} {x : Except Fault α} {m : Malformed} :
    Fault.refuse x ≠ .error (.malformed m) := by
  cases x <;> simp [Fault.refuse, Except.mapError]

namespace Grouping

theorem map_text_inj {ss ts : List String} : ss.map Value.text = ts.map .text ↔ ss = ts :=
  (List.map_injective_iff.2 fun _ _ same => Value.text.inj same).eq_iff

/-- What is kept of selectors that were found to be texts. -/
theorem kept_iff {v : Value} {ss : List String} {ds : List (Declaration String)}
    {g : Grouping String} : v.items = .ok (ss.map .text) →
    ((match v with
      | .text s => return ofLists ds [s]
      | .stream _ => return ofLists ds []
      | _ => return ofLists ds ss : Except Refusal (Grouping String)) = .ok g ↔
      ∃ kept, v.selectorItemsLeft = .ok (kept.map .text) ∧ g = ofLists ds kept) := by
  intro items
  have one : ∀ ts : List String, (.ok (ofLists ds ts) : Except Refusal _) = .ok g ↔
      ∃ kept, (.ok (ts.map Value.text) : Except Fault _) = .ok (kept.map .text) ∧
        g = ofLists ds kept := by
    intro ts
    simp [map_text_inj, eq_comm]
  split
  · next s => exact one [s]
  · exact one []
  · next whole used =>
    have all : v.selectorItemsLeft = v.items := by
      cases v with
      | text s => exact absurd rfl (whole s)
      | stream vs => exact absurd rfl (used vs)
      | _ => rfl
    rw [all, items]
    exact one ss

/-- A grouping is made from an entry that says texts, and keeps what is left of its selectors. -/
theorem ofDraft_eq_ok_iff {d : Draft} {g : Grouping String} :
    ofDraft d = .ok g ↔ ∃ ss ds kept, d.Says ss ds ∧
      d.selectors.selectorItemsLeft = .ok (kept.map .text) ∧ g = ofLists ds kept := by
  unfold ofDraft
  split
  · next null =>
    refine iff_of_false nofun ?_
    rintro ⟨ss, ds, kept, said, -⟩
    have items := said.selectors
    rw [Value.isNull_iff.1 null] at items
    cases items
  · split
    · next null =>
      refine iff_of_false nofun ?_
      rintro ⟨ss, ds, kept, said, -⟩
      obtain ⟨ws, items, -⟩ := said.declarations
      rw [Value.isNull_iff.1 null] at items
      cases items
    · simp only [bind_eq_ok, refuse_eq_ok, Value.mapM_checkSelector_eq_ok,
        Value.mapM_checkDeclaration_eq_ok]
      constructor
      · rintro ⟨vs, items, ss, ⟨rfl, solid⟩, ws, items', ds, each, made⟩
        obtain ⟨kept, left, rfl⟩ := (kept_iff items).1 made
        exact ⟨ss, ds, kept, ⟨items, solid, ws, items', each⟩, left, rfl⟩
      · rintro ⟨ss, ds, kept, ⟨items, solid, ws, items', each⟩, left, rfl⟩
        exact ⟨_, items, ss, ⟨rfl, solid⟩, ws, items', ds, each,
          (kept_iff items).2 ⟨kept, left, rfl⟩⟩

theorem ofDraft_of_lists {d : Draft} {ss : List String} {ws : List Value}
    {ds : List (Declaration String)} (selectors : d.selectors = .list (ss.map .text))
    (solid : "" ∉ ss) (declarations : d.declarations = .list ws)
    (each : List.Forall₂ Value.Declares ws ds) : ofDraft d = .ok (ofLists ds ss) := by
  have said : d.Says ss ds := ⟨selectors ▸ rfl, solid, ws, declarations ▸ rfl, each⟩
  exact ofDraft_eq_ok_iff.2 ⟨ss, ds, ss, said, selectors ▸ rfl, rfl⟩

/-- An entry is malformed if something is missing, or if an item that is looked at is not what it
has to be. -/
theorem ofDraft_eq_malformed_iff {d : Draft} :
    (∃ m, ofDraft d = .error (.malformed m)) ↔
      d.selectors = .null ∨ d.declarations = .null ∨
      (∃ vs, d.selectors.items = .ok vs ∧ ∃ v ∈ vs, ¬v.IsSelector) ∨
      ∃ vs ws, d.selectors.items = .ok vs ∧ (∀ v ∈ vs, v.IsSelector) ∧
        d.declarations.items = .ok ws ∧ ∃ w ∈ ws, ∀ e, ¬w.Declares e := by
  unfold ofDraft
  split
  · next null => exact iff_of_true ⟨_, rfl⟩ (.inl (Value.isNull_iff.1 null))
  · next selectors =>
    split
    · next null => exact iff_of_true ⟨_, rfl⟩ (.inr (.inl (Value.isNull_iff.1 null)))
    · next declarations =>
      rw [Value.isNull_iff] at selectors declarations
      rw [or_iff_right selectors, or_iff_right declarations]
      constructor
      · rintro ⟨m, failed⟩
        rcases bind_eq_error.1 failed with refused | ⟨vs, items, failed⟩
        · exact absurd refused refuse_ne_malformed
        rcases bind_eq_error.1 failed with refused | ⟨ss, checked, failed⟩
        · exact .inl ⟨vs, refuse_eq_ok.1 items, Value.mapM_checkSelector_eq_malformed.1 ⟨m, refused⟩⟩
        rcases bind_eq_error.1 failed with refused | ⟨ws, items', failed⟩
        · exact absurd refused refuse_ne_malformed
        rcases bind_eq_error.1 failed with refused | ⟨ds, -, failed⟩
        · refine .inr ⟨vs, ws, refuse_eq_ok.1 items, ?_, refuse_eq_ok.1 items',
            Value.mapM_checkDeclaration_eq_malformed.1 ⟨m, refused⟩⟩
          intro v member
          obtain ⟨s, passed⟩ := exists_ok_of_mem checked v member
          exact ⟨s, Value.checkSelector_eq_ok.1 passed⟩
        · split at failed <;> cases failed
      · rintro (⟨vs, items, bad⟩ | ⟨vs, ws, items, good, items', bad⟩)
        · obtain ⟨m, refused⟩ := Value.mapM_checkSelector_eq_malformed.2 bad
          exact ⟨m, bind_eq_error.2 (.inr ⟨vs, refuse_eq_ok.2 items, bind_eq_error.2 (.inl refused)⟩)⟩
        · obtain ⟨m, refused⟩ := Value.mapM_checkDeclaration_eq_malformed.2 bad
          have passes : ∀ v ∈ vs, ∃ s, v.checkSelector = .ok s := fun v member =>
            (good v member).imp fun s text => Value.checkSelector_eq_ok.2 text
          obtain ⟨ss, checked⟩ := exists_mapM_ok passes
          refine ⟨m, bind_eq_error.2 (.inr ⟨vs, refuse_eq_ok.2 items, ?_⟩)⟩
          refine bind_eq_error.2 (.inr ⟨ss, checked, ?_⟩)
          exact bind_eq_error.2 (.inr ⟨ws, refuse_eq_ok.2 items', bind_eq_error.2 (.inl refused)⟩)

/-- Only an empty text is kept as an empty selector: looking at it, no item is seen. -/
theorem empty_mem_selectors_iff {d : Draft} {g : Grouping String} (made : ofDraft d = .ok g) :
    "" ∈ g.selectors ↔ d.selectors = .text "" := by
  obtain ⟨ss, ds, kept, ⟨items, solid, -⟩, left, rfl⟩ := ofDraft_eq_ok_iff.1 made
  rw [selectors_ofLists, List.mem_eraseDups]
  generalize d.selectors = v at items left
  cases v with
  | text s =>
    obtain rfl : [s] = kept := map_text_inj.1 (Except.ok.inj left)
    simp [eq_comm]
  | stream vs =>
    obtain rfl : [] = kept := map_text_inj.1 (Except.ok.inj left)
    simp
  | _ =>
    obtain rfl : ss = kept := map_text_inj.1 (Except.ok.inj (items.symm.trans left))
    simpa using solid

/-- For every entry: the selectors of a grouping that is made from it are the texts that are kept,
each once, and its declarations are those that were looked at; an empty selector is among them just
if the selectors of the entry are a single text without characters. The entry is malformed if its
selectors or declarations are missing or null, if an item of its selectors is no text or empty, or
else if an item of its declarations has not texts on both sides. -/
theorem ofDraft_checked (d : Draft) :
    (∀ g, ofDraft d = .ok g →
      (∃ kept : List String, d.selectors.selectorItemsLeft = .ok (kept.map .text) ∧
        g.selectors = kept.eraseDups) ∧
      (∃ ws, d.declarations.items = .ok ws ∧ List.Forall₂ Value.Declares ws g.log) ∧
      ("" ∈ g.selectors ↔ d.selectors = .text "")) ∧
    ((∃ m, ofDraft d = .error (.malformed m)) ↔
      d.selectors = .null ∨ d.declarations = .null ∨
      (∃ vs, d.selectors.items = .ok vs ∧ ∃ v ∈ vs, ¬v.IsSelector) ∨
      ∃ vs ws, d.selectors.items = .ok vs ∧ (∀ v ∈ vs, v.IsSelector) ∧
        d.declarations.items = .ok ws ∧ ∃ w ∈ ws, ∀ e, ¬w.Declares e) := by
  refine ⟨fun g made => ⟨?_, ?_, empty_mem_selectors_iff made⟩, ofDraft_eq_malformed_iff⟩
  · obtain ⟨ss, ds, kept, -, left, rfl⟩ := ofDraft_eq_ok_iff.1 made
    exact ⟨kept, left, selectors_ofLists ds kept⟩
  · obtain ⟨ss, ds, kept, ⟨-, -, ws, items, each⟩, -, rfl⟩ := ofDraft_eq_ok_iff.1 made
    refine ⟨ws, items, ?_⟩
    rwa [ofLists, log_insertSelectors]

/-- An empty text in the place of selectors is kept as an empty selector. -/
theorem empty_text_kept :
    ¬∀ (d : Draft) (g : Grouping String), ofDraft d = .ok g → ∀ s ∈ g.selectors, s ≠ "" := by
  intro solid
  have made : ofDraft (.rule (.text "") (.list [.decl (.text "color") (.text "red") none]) none) =
      .ok ⟨[""], [⟨"color", "red"⟩]⟩ := rfl
  exact solid _ _ made "" List.mem_cons_self rfl

end Grouping

end StyleFactor
