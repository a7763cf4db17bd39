import StyleFactor.Grouping.Basic

/-!
A grouping in use. It keeps its selectors a second time, as a set to look them up in, and counts the
changes to its log that were completed. What it resolves to is remembered together with the count at
which it was read, and counts as forgotten once the log has changed. Main statements: what every
operation keeps (`Sound`), and that a completed change leaves nothing remembered
(`seen_declare`), so that as long as every change is completed (`Fresh`), what is remembered is what
the log resolves to.
-/
namespace StyleFactor

structure Live (α : Type) where
  grouping : Grouping α
  /-- The selectors once more, in no order that counts. -/
  known : List α
  /-- How many changes to the log were completed. -/
  version : Nat
  /-- The resolved declarations as they were last read, and the version at which that was. -/
  cache : Option (Nat × List (Declaration α))
  deriving Repr, Inhabited

namespace Live

variable {α : Type}

/-- What is remembered, unless a change was completed since. -/
def seen (g : Live α) : Option (List (Declaration α)) :=
  (g.cache.filter (·.1 == g.version)).map (·.2)

def touch (g : Live α) : Live α := { g with version := g.version + 1 }

/-- Adds to the log and stops before the change is completed. -/
def declarePartly (g : Live α) (ds : List (Declaration α)) : Live α :=
  { g with grouping := g.grouping.declare ds }

def declare (g : Live α) (ds : List (Declaration α)) : Live α := (g.declarePartly ds).touch

variable [BEq α]

def insertSelector (g : Live α) (s : α) : Live α :=
  if g.known.contains s then g
  else
    { g with
      grouping := { g.grouping with selectors := g.grouping.selectors ++ [s] }
      known := s :: g.known }

def insertSelectors (g : Live α) (ss : List α) : Live α := ss.foldl insertSelector g

def ofLists (ds : List (Declaration α)) (ss : List α) : Live α :=
  insertSelectors ⟨⟨[], ds⟩, [], 0, none⟩ ss

/-- The resolved declarations: those remembered, or else those of the log. -/
def declarations (g : Live α) : List (Declaration α) := g.seen.getD g.grouping.declarations

def read (g : Live α) : Live α := { g with cache := some (g.version, g.declarations) }

/-- Removes each declaration given if it is what its property is seen to resolve to. The log only
changes if there is one. -/
def retract (g : Live α) (ds : List (Declaration α)) : Live α :=
  match Grouping.confirmed g.declarations ds with
  | [] => g.read
  | ps => { g.read with grouping := g.grouping.dropProperties ps }.touch

/-- Nothing was read at a version that is still to come, and the selectors are looked up among
themselves. -/
structure Sound (g : Live α) : Prop where
  stamp : ∀ r ∈ g.cache, r.1 ≤ g.version
  known : ∀ s, s ∈ g.known ↔ s ∈ g.grouping.selectors

/-- What is remembered is what the log resolves to. -/
def Fresh (g : Live α) : Prop := g.declarations = g.grouping.declarations

@[simp] theorem seen_read (g : Live α) : g.read.seen = some g.declarations := by
  simp [seen, read]

@[simp] theorem declarations_read (g : Live α) : g.read.declarations = g.declarations := by
  simp [declarations]

section

omit [BEq α]

theorem sound_new (ds : List (Declaration α)) : (⟨⟨[], ds⟩, [], 0, none⟩ : Live α).Sound :=
  ⟨fun _ read => (nomatch read), fun _ => Iff.rfl⟩

theorem Sound.declarePartly {g : Live α} (h : g.Sound) (ds : List (Declaration α)) :
    (g.declarePartly ds).Sound := ⟨h.stamp, h.known⟩

theorem Sound.touch {g : Live α} (h : g.Sound) : g.touch.Sound :=
  ⟨fun r hr => Nat.le_succ_of_le (h.stamp r hr), h.known⟩

theorem Sound.seen_touch {g : Live α} (h : g.Sound) : g.touch.seen = none := by
  rw [seen, Option.map_eq_none_iff, Option.filter_eq_none_iff]
  intro r cached current
  have earlier : r.1 ≤ g.version := h.stamp r cached
  have now : r.1 = g.version + 1 := beq_iff_eq.1 current
  omega

theorem Sound.seen_declare {g : Live α} (h : g.Sound) (ds : List (Declaration α)) :
    (g.declare ds).seen = none := (h.declarePartly ds).seen_touch

end

theorem Sound.contains_known {g : Live α} (h : g.Sound) (s : α) :
    g.known.contains s = g.grouping.selectors.contains s := by
  rw [Bool.eq_iff_iff, List.contains_iff_exists_mem_beq, List.contains_iff_exists_mem_beq]
  simp only [h.known]

theorem Sound.insertSelector {g : Live α} (h : g.Sound) (s : α) : (g.insertSelector s).Sound := by
  unfold Live.insertSelector
  split
  · exact h
  · refine ⟨h.stamp, fun t => ?_⟩
    simp [h.known, or_comm]

theorem Sound.insertSelectors {g : Live α} (h : g.Sound) (ss : List α) :
    (g.insertSelectors ss).Sound := by
  unfold Live.insertSelectors
  induction ss generalizing g with
  | nil => exact h
  | cons s ss ih => exact ih (h.insertSelector s)

@[simp] theorem log_insertSelector (g : Live α) (s : α) :
    (g.insertSelector s).grouping.log = g.grouping.log := by
  unfold insertSelector
  split <;> rfl

@[simp] theorem seen_insertSelector (g : Live α) (s : α) : (g.insertSelector s).seen = g.seen := by
  unfold insertSelector
  split <;> rfl

@[simp] theorem log_insertSelectors (g : Live α) (ss : List α) :
    (g.insertSelectors ss).grouping.log = g.grouping.log := by
  unfold insertSelectors
  induction ss generalizing g with
  | nil => rfl
  | cons s ss ih => rw [List.foldl_cons, ih, log_insertSelector]

@[simp] theorem seen_insertSelectors (g : Live α) (ss : List α) :
    (g.insertSelectors ss).seen = g.seen := by
  unfold insertSelectors
  induction ss generalizing g with
  | nil => rfl
  | cons s ss ih => rw [List.foldl_cons, ih, seen_insertSelector]

theorem sound_ofLists (ds : List (Declaration α)) (ss : List α) : (ofLists ds ss).Sound :=
  (sound_new ds).insertSelectors ss

theorem Sound.read {g : Live α} (h : g.Sound) : g.read.Sound := by
  refine ⟨?_, h.known⟩
  rintro r ⟨⟩
  exact Nat.le_refl _

theorem Sound.retract {g : Live α} (h : g.Sound) (ds : List (Declaration α)) :
    (g.retract ds).Sound := by
  unfold Live.retract
  split
  · exact h.read
  · exact Sound.touch ⟨h.read.stamp, h.known⟩

theorem grouping_retract (g : Live α) (ds : List (Declaration α)) :
    (g.retract ds).grouping =
      g.grouping.dropProperties (Grouping.confirmed g.declarations ds) := by
  unfold Live.retract
  cases Grouping.confirmed g.declarations ds with
  | nil =>
    have all : g.grouping.log.filter (fun d => !([] : List α).contains d.property) =
        g.grouping.log := List.filter_eq_self.2 fun _ _ => rfl
    rw [Grouping.dropProperties, all]
    rfl
  | cons p ps => rfl

theorem fresh_of_seen {g : Live α} (h : g.seen = none) : g.Fresh := by
  simp [Fresh, declarations, h]

theorem Fresh.read {g : Live α} (h : g.Fresh) : g.read.Fresh :=
  (declarations_read g).trans h

theorem retract_of_none {g : Live α} {ds : List (Declaration α)}
    (none : Grouping.confirmed g.declarations ds = []) : g.retract ds = g.read := by
  rw [Live.retract, none]

theorem Sound.seen_retract {g : Live α} (h : g.Sound) {ds : List (Declaration α)}
    (some : Grouping.confirmed g.declarations ds ≠ []) : (g.retract ds).seen = none := by
  unfold Live.retract
  split
  · next none => exact absurd none some
  · next ps _ =>
    have kept : ({ g.read with grouping := g.grouping.dropProperties ps } : Live α).Sound :=
      ⟨h.read.stamp, h.known⟩
    exact kept.seen_touch

theorem Fresh.retract {g : Live α} (h : g.Fresh) (sound : g.Sound) (ds : List (Declaration α)) :
    (g.retract ds).Fresh := by
  by_cases none : Grouping.confirmed g.declarations ds = []
  · rw [retract_of_none none]
    exact h.read
  · exact fresh_of_seen (sound.seen_retract none)

end Live

end StyleFactor
