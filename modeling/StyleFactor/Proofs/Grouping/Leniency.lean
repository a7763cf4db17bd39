import StyleFactor.Outcomes
import StyleFactor.Grouping.OfDocument

/-!
What leniency changes. An extraction meets four kinds of entries: those that are no rules, rules that
give a grouping, malformed ones, and ones that cannot even be looked at (`Draft.Met`). Only on the
malformed ones do a strict and a lenient extraction differ. Main statement: a lenient extraction is a
strict one of the entries that are left without the malformed ones, and warns of each of these
(`lenient_extraction`).
-/
namespace StyleFactor

/-! The kinds of entries. -/

namespace Draft

/-- What an extraction meets in an entry. -/
inductive Met (d : Draft) : Prop
  | other (kind : d.isType "rule" = false)
  | grouped (g : Grouping String) (kind : d.isType "rule" = true) (made : Grouping.ofDraft d = .ok g)
  | malformed (m : Malformed) (kind : d.isType "rule" = true)
      (refused : Grouping.ofDraft d = .error (.malformed m))
  | unreadable (f : Fault) (kind : d.isType "rule" = true)
      (stuck : Grouping.ofDraft d = .error (.fault f))

theorem met (d : Draft) : d.Met := by
  cases kind : d.isType "rule" with
  | false => exact .other kind
  | true =>
    cases made : Grouping.ofDraft d with
    | ok g => exact .grouped g kind made
    | error r =>
      cases r with
      | malformed m => exact .malformed m kind made
      | fault f => exact .unreadable f kind made

/-- What is wrong with an entry that is taken for a rule and is a malformed one. -/
def malformed? (d : Draft) : Option Malformed :=
  if d.isType "rule" then
    match Grouping.ofDraft d with
    | .error (.malformed m) => some m
    | _ => none
  else none

/-- It is taken for a rule and cannot be looked at. -/
def Unreadable (d : Draft) : Prop :=
  d.isType "rule" = true ∧ ∃ f, Grouping.ofDraft d = .error (.fault f)

/-- What is logged when the entry is skipped. -/
def skipped (d : Draft) (m : Malformed) : Event :=
  ⟨.warning, "skipping malformed rule at " ++ displayPosition d.position ++ ": " ++ m.message⟩

/-- The warning that a malformed entry is skipped with. -/
def warning? (d : Draft) : Option Event := d.malformed?.map d.skipped

section

variable {d : Draft}

theorem malformed?_other (kind : d.isType "rule" = false) : d.malformed? = none := by
  rw [malformed?, kind]
  rfl

theorem malformed?_grouped {g : Grouping String} (made : Grouping.ofDraft d = .ok g) :
    d.malformed? = none := by
  rw [malformed?, made]
  exact ite_self none

theorem malformed?_malformed {m : Malformed} (kind : d.isType "rule" = true)
    (refused : Grouping.ofDraft d = .error (.malformed m)) : d.malformed? = some m := by
  rw [malformed?, kind, refused]
  rfl

theorem malformed?_unreadable {f : Fault} (stuck : Grouping.ofDraft d = .error (.fault f)) :
    d.malformed? = none := by
  rw [malformed?, stuck]
  exact ite_self none

theorem warning?_eq_none (fit : d.malformed? = none) : d.warning? = none := by
  rw [warning?, fit]
  rfl

end

end Draft

/-- The same result with the warnings left out of the log. -/
def Logged.withoutWarnings {α : Type} (x : Logged α) : Logged α :=
  ⟨x.log.filter (·.level ≠ .warning), x.value⟩

theorem withoutWarnings_bind {α β : Type} (x : Logged α) (f : α → Logged β) :
    (x >>= f).withoutWarnings = x.withoutWarnings >>= fun a => (f a).withoutWarnings :=
  congrArg (Logged.mk · (f x.value).value) (List.filter_append x.log (f x.value).log)

/-- The groupings of the entries that follow, and in front of them one that was just made, unless it
resolves to nothing. -/
def Grouping.enter (g : Grouping String)
    (rest : Logged (Except Refusal (List (Grouping String)))) :
    Logged (Except Refusal (List (Grouping String))) :=
  if g.declarations.isEmpty then do
    .event .debug ("dropping empty rule " ++ displayTexts g.selectors)
    rest
  else do
    let rest ← rest
    return rest.map (g :: ·)

section

variable {g : Grouping String} {rest : Logged (Except Refusal (List (Grouping String)))}

theorem withoutWarnings_enter : (g.enter rest).withoutWarnings = g.enter rest.withoutWarnings := by
  rw [Grouping.enter, Grouping.enter]
  split
  · exact withoutWarnings_bind _ _
  · exact withoutWarnings_bind _ _

theorem warnings_enter : (g.enter rest).log.filter (·.level = .warning) =
    rest.log.filter (·.level = .warning) := by
  rw [Grouping.enter]
  split <;> simp

theorem value_enter : (g.enter rest).value =
    rest.value.map fun gs => if g.declarations.isEmpty then gs else g :: gs := by
  rw [Grouping.enter]
  split
  · exact (congrFun Except.map_id rest.value).symm
  · rfl

end

/-! One entry. -/

section

variable {d : Draft} {ds : List Draft} {strict : Bool}

theorem groupingsFrom_other (kind : d.isType "rule" = false) :
    groupingsFrom strict (d :: ds) = groupingsFrom strict ds := by
  rw [groupingsFrom, kind]
  rfl

theorem groupingsFrom_grouped {g : Grouping String} (kind : d.isType "rule" = true)
    (made : Grouping.ofDraft d = .ok g) :
    groupingsFrom strict (d :: ds) = g.enter (groupingsFrom strict ds) := by
  rw [groupingsFrom, kind, made]
  rfl

theorem groupingsFrom_strict {m : Malformed} (kind : d.isType "rule" = true)
    (refused : Grouping.ofDraft d = .error (.malformed m)) :
    groupingsFrom true (d :: ds) = pure (.error (.malformed m)) := by
  rw [groupingsFrom, kind, refused]
  rfl

theorem groupingsFrom_lenient {m : Malformed} (kind : d.isType "rule" = true)
    (refused : Grouping.ofDraft d = .error (.malformed m)) :
    groupingsFrom false (d :: ds) =
      ⟨d.skipped m :: (groupingsFrom false ds).log, (groupingsFrom false ds).value⟩ := by
  rw [groupingsFrom, kind, refused]
  rfl

theorem groupingsFrom_unreadable {f : Fault} (kind : d.isType "rule" = true)
    (stuck : Grouping.ofDraft d = .error (.fault f)) :
    groupingsFrom strict (d :: ds) = pure (.error (.fault f)) := by
  rw [groupingsFrom, kind, stuck]
  rfl

end

/-! A list of entries. -/

/-- Skipping malformed entries is extracting from the others, but for the warnings. -/
theorem withoutWarnings_groupingsFrom (ds : List Draft) :
    (groupingsFrom false ds).withoutWarnings =
      groupingsFrom true (ds.filter (·.malformed?.isNone)) := by
  induction ds with
  | nil => rfl
  | cons d ds ih =>
    cases d.met with
    | other kind =>
      rw [List.filter_cons_of_pos (by simp [Draft.malformed?_other kind]), groupingsFrom_other kind,
        groupingsFrom_other kind, ih]
    | grouped g kind made =>
      rw [List.filter_cons_of_pos (by simp [Draft.malformed?_grouped made]),
        groupingsFrom_grouped kind made, groupingsFrom_grouped kind made, withoutWarnings_enter, ih]
    | malformed m kind refused =>
      rw [List.filter_cons_of_neg (by simp [Draft.malformed?_malformed kind refused]),
        groupingsFrom_lenient kind refused, ← ih]
      rfl
    | unreadable f kind stuck =>
      rw [List.filter_cons_of_pos (by simp [Draft.malformed?_unreadable stuck]),
        groupingsFrom_unreadable kind stuck, groupingsFrom_unreadable kind stuck]
      rfl

/-- An extraction that goes through has warned of every malformed entry. -/
theorem warnings_groupingsFrom {ds : List Draft} {gs : List (Grouping String)}
    (completed : (groupingsFrom false ds).value = .ok gs) :
    (groupingsFrom false ds).log.filter (·.level = .warning) = ds.filterMap Draft.warning? := by
  induction ds generalizing gs with
  | nil => rfl
  | cons d ds ih =>
    cases d.met with
    | other kind =>
      rw [groupingsFrom_other kind] at completed ⊢
      rw [List.filterMap_cons_none (Draft.warning?_eq_none (Draft.malformed?_other kind))]
      exact ih completed
    | grouped g kind made =>
      rw [groupingsFrom_grouped kind made] at completed ⊢
      rw [List.filterMap_cons_none (Draft.warning?_eq_none (Draft.malformed?_grouped made)),
        warnings_enter]
      rw [value_enter] at completed
      obtain ⟨_, rest, -⟩ := exists_of_map_ok completed
      exact ih rest
    | malformed m kind refused =>
      rw [groupingsFrom_lenient kind refused] at completed ⊢
      have warned : d.warning? = some (d.skipped m) :=
        congrArg (Option.map _) (Draft.malformed?_malformed kind refused)
      rw [List.filterMap_cons_some warned, ← ih completed]
      rfl
    | unreadable f kind stuck =>
      rw [groupingsFrom_unreadable kind stuck] at completed
      cases completed

/-- A property of some member, with another that no member before it has, at the first member or
further on. -/
theorem exists_append_cons {α : Type} {p q : α → Prop} {a : α} {as : List α} :
    (∃ before e after, a :: as = before ++ e :: after ∧ p e ∧ ∀ b ∈ before, ¬q b) ↔
      p a ∨ ¬q a ∧ ∃ before e after, as = before ++ e :: after ∧ p e ∧ ∀ b ∈ before, ¬q b := by
  constructor
  · rintro ⟨before, e, after, split, here, free⟩
    cases before with
    | nil =>
      obtain ⟨rfl, rfl⟩ := List.cons.inj split
      exact .inl here
    | cons b before =>
      obtain ⟨rfl, rfl⟩ := List.cons.inj split
      obtain ⟨first, more⟩ := List.forall_mem_cons.1 free
      exact .inr ⟨first, before, e, after, rfl, here, more⟩
  · rintro (here | ⟨first, before, e, after, rfl, here, more⟩)
    · exact ⟨[], a, as, rfl, here, List.forall_mem_nil _⟩
    · exact ⟨a :: before, e, after, rfl, here, List.forall_mem_cons.2 ⟨first, more⟩⟩

/-- A strict extraction is ended by a malformed entry if there is one before all that cannot be
looked at. -/
theorem groupingsFrom_malformed_iff (ds : List Draft) :
    (∃ m, (groupingsFrom true ds).value = .error (.malformed m)) ↔
      ∃ before e after, ds = before ++ e :: after ∧ e.malformed?.isSome ∧
        ∀ b ∈ before, ¬b.Unreadable := by
  induction ds with
  | nil => simp [groupingsFrom]
  | cons d ds ih =>
    rw [exists_append_cons, ← ih]
    -- an entry that does not end the extraction itself leaves it to those that follow
    cases d.met with
    | other kind =>
      have readable : ¬d.Unreadable := fun ⟨rule, _⟩ => by simp [kind] at rule
      simp [groupingsFrom_other kind, Draft.malformed?_other kind, readable]
    | grouped g kind made =>
      have readable : ¬d.Unreadable := fun ⟨_, f, stuck⟩ => by simp [made] at stuck
      rw [groupingsFrom_grouped kind made, value_enter]
      simp only [Draft.malformed?_grouped made, readable]
      cases (groupingsFrom true ds).value <;> simp [Except.map]
    | malformed m kind refused =>
      simp [groupingsFrom_strict kind refused, Draft.malformed?_malformed kind refused]
    | unreadable f kind stuck =>
      have unreadable : d.Unreadable := ⟨kind, f, stuck⟩
      simp [groupingsFrom_unreadable kind stuck, Draft.malformed?_unreadable stuck, unreadable]

/-- Without malformed entries there is none that could end an extraction. -/
theorem groupingsFrom_ne_malformed {ds : List Draft} {m : Malformed} :
    (groupingsFrom false ds).value ≠ .error (.malformed m) := by
  intro ended
  have strictly : (groupingsFrom true (ds.filter (·.malformed?.isNone))).value =
      .error (.malformed m) := by
    rw [← withoutWarnings_groupingsFrom]
    exact ended
  obtain ⟨before, e, after, split, malformed, -⟩ := (groupingsFrom_malformed_iff _).1 ⟨m, strictly⟩
  have member : e ∈ ds.filter (·.malformed?.isNone) := split ▸ List.mem_append_cons_self
  rw [Option.isNone_iff_eq_none.1 (List.mem_filter.1 member).2] at malformed
  cases malformed

/-- What resolves to nothing is dropped, whether or not malformed entries are skipped. -/
theorem groupingsFrom_declares {strict : Bool} {ds : List Draft} {gs : List (Grouping String)}
    (completed : (groupingsFrom strict ds).value = .ok gs) : ∀ g ∈ gs, g.declarations ≠ [] := by
  induction ds generalizing gs with
  | nil =>
    cases completed
    exact List.forall_mem_nil _
  | cons d ds ih =>
    cases d.met with
    | other kind => exact ih (groupingsFrom_other kind ▸ completed)
    | grouped g kind made =>
      rw [groupingsFrom_grouped kind made, value_enter] at completed
      obtain ⟨gs', rest, rfl⟩ := exists_of_map_ok completed
      split
      · exact ih rest
      · next declares => exact List.forall_mem_cons.2 ⟨by simpa using declares, ih rest⟩
    | malformed m kind refused =>
      cases strict with
      | true =>
        rw [groupingsFrom_strict kind refused] at completed
        cases completed
      | false =>
        rw [groupingsFrom_lenient kind refused] at completed
        exact ih completed
    | unreadable f kind stuck =>
      rw [groupingsFrom_unreadable kind stuck] at completed
      cases completed

theorem rules_filter (d : Document) (keep : Draft → Bool) :
    Document.rules { d with entries := d.entries.filter keep } = d.rules.filter keep := by
  simp only [Document.rules, List.filter_filter, Bool.and_comm]

/-- A lenient extraction gives what a strict one gives of the entries without the malformed ones, be
it groupings or an entry that cannot be looked at, and logs the same but for a warning of each
malformed entry, in their order, if it goes through; nothing malformed ends it. A strict extraction
is ended by a malformed entry just if one stands before all entries that cannot be looked at.
Neither returns a grouping that resolves to nothing. -/
theorem lenient_extraction (d : Document) :
    let wellFormed : Document := { d with entries := d.entries.filter (·.malformed?.isNone) }
    (d.groupings false).value = (wellFormed.groupings true).value ∧
    (d.groupings false).log.filter (·.level ≠ .warning) = (wellFormed.groupings true).log ∧
    (∀ gs, (d.groupings false).value = .ok gs →
      (d.groupings false).log.filter (·.level = .warning) = d.rules.filterMap Draft.warning?) ∧
    (∀ m, (d.groupings false).value ≠ .error (.malformed m)) ∧
    ((∃ m, (d.groupings true).value = .error (.malformed m)) ↔
      ∃ before e after, d.rules = before ++ e :: after ∧ e.malformed?.isSome ∧
        ∀ b ∈ before, ¬b.Unreadable) ∧
    ∀ strict gs, (d.groupings strict).value = .ok gs → ∀ g ∈ gs, g.declarations ≠ [] := by
  intro wellFormed
  have same : (d.groupings false).withoutWarnings = wellFormed.groupings true := by
    rw [Document.groupings, Document.groupings, rules_filter, withoutWarnings_groupingsFrom]
  refine ⟨congrArg (·.value) same, congrArg (·.log) same, fun gs => warnings_groupingsFrom,
    fun m => groupingsFrom_ne_malformed, groupingsFrom_malformed_iff d.rules,
    fun _ gs => groupingsFrom_declares⟩

end StyleFactor
