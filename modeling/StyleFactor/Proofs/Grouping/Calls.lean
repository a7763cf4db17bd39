import StyleFactor.Grouping.Request
import StyleFactor.Outcomes

/-!
Calls on a grouping in use, one after the other, with arguments that nobody has checked. Main
statement: all that a call can do to a grouping (`perform_cases`), completed or not, and so what
every call keeps.
-/
namespace StyleFactor

inductive Call where
  | addSelectors (arg : Value)
  | addDeclarations (arg : Value)
  | removeDeclarations (arg : Value)
  /-- Asks for something that the resolved declarations are read for. -/
  | read

def Call.isRead : Call → Bool
  | read => true
  | _ => false

theorem upToFault_of_mapM {α β : Type} {f : α → Except Fault β} {xs : List α} {ys : List β}
    (h : xs.mapM f = .ok ys) : upToFault f xs = (ys, none) := by
  induction xs generalizing ys with
  | nil =>
    cases h
    rfl
  | cons x xs ih =>
    obtain ⟨z, zs, first, rest, rfl⟩ := mapM_cons_eq_ok.1 h
    simp only [upToFault, first, ih rest]

namespace Live

def perform (g : Live Value) : Call → Live Value × Option Fault
  | .addSelectors arg => g.requestSelectors arg
  | .addDeclarations arg => g.requestDeclarations arg
  | .removeDeclarations arg => g.requestRemoval arg
  | .read =>
    match g.readRequest with
    | (g, .ok _) => (g, none)
    | (g, .error f) => (g, some f)

/-- Calls each of which has to be completed before the next is made. -/
def run (g : Live Value) : List Call → Except Fault (Live Value)
  | [] => .ok g
  | c :: cs =>
    match g.perform c with
    | (h, none) => h.run cs
    | (_, some f) => .error f

/-- What calls leave, whether or not they can be completed. -/
def after (g : Live Value) (cs : List Call) : Live Value := cs.foldl (fun g c => (g.perform c).1) g

/-- A new grouping after any calls at all. -/
def Reachable (g : Live Value) : Prop :=
  ∃ declarations selectors new calls,
    request declarations selectors = .ok new ∧ g = new.after calls

/-- All that a call can do. -/
theorem perform_cases (g : Live Value) (c : Call) :
    (g.perform c).1 = g ∨ (g.perform c).1 = g.read ∨
      (∃ ss, (g.perform c).1 = g.insertSelectors ss) ∨
      (∃ ds, (g.perform c).1 = g.declarePartly ds) ∨
      (∃ ds, (g.perform c).1 = g.declare ds) ∨ ∃ ds, (g.perform c).1 = g.retract ds := by
  cases c with
  | addSelectors arg =>
    simp only [perform, requestSelectors]
    split
    · exact Or.inl rfl
    · exact Or.inr (Or.inr (Or.inl ⟨_, rfl⟩))
  | addDeclarations arg =>
    simp only [perform, requestDeclarations]
    split
    · exact Or.inl rfl
    · split
      · exact Or.inr (Or.inr (Or.inr (Or.inr (Or.inl ⟨_, rfl⟩))))
      · exact Or.inr (Or.inr (Or.inr (Or.inl ⟨_, rfl⟩)))
  | removeDeclarations arg =>
    simp only [perform, requestRemoval]
    split
    · exact Or.inl rfl
    · split
      · exact Or.inr (Or.inl rfl)
      · split
        · exact Or.inr (Or.inl rfl)
        · exact Or.inr (Or.inr (Or.inr (Or.inr (Or.inr ⟨_, rfl⟩))))
  | read =>
    simp only [perform, readRequest]
    cases g.resolved with
    | ok m => exact Or.inr (Or.inl rfl)
    | error f => exact Or.inl rfl

theorem Sound.perform {g : Live Value} (h : g.Sound) (c : Call) : (g.perform c).1.Sound := by
  rcases perform_cases g c with same | same | ⟨ss, same⟩ | ⟨ds, same⟩ | ⟨ds, same⟩ | ⟨ds, same⟩ <;>
    rw [same]
  · exact h
  · exact h.read
  · exact h.insertSelectors ss
  · exact h.declarePartly ds
  · exact (h.declarePartly ds).touch
  · exact h.retract ds

theorem Sound.after {g : Live Value} (h : g.Sound) (cs : List Call) : (g.after cs).Sound := by
  unfold Live.after
  induction cs generalizing g with
  | nil => exact h
  | cons c cs ih => exact ih (h.perform c)

/-- The declarations of a new grouping, each of which has to have both sides. -/
def gathered (declarations : Value) : Except Fault (List (Declaration Value)) := do
  (← declarations.items).mapM Value.toDeclaration

/-- A new grouping is one without selectors, to which selectors were added. -/
theorem request_eq_ok {declarations selectors : Value} {g : Live Value} :
    request declarations selectors = .ok g ↔
      ∃ ds, gathered declarations = .ok ds ∧
        (ofLists ds []).perform (.addSelectors selectors) = (g, none) := by
  unfold request gathered
  cases declarations.items with
  | error f => simp [bind, Except.bind]
  | ok vs =>
    cases made : vs.mapM Value.toDeclaration with
    | error f => simp [bind, Except.bind, made]
    | ok ds =>
      simp only [bind, Except.bind, made, perform, Except.ok.injEq, exists_eq_left']
      rcases (ofLists ds []).requestSelectors selectors with ⟨h, none | f⟩ <;>
        simp [pure, Except.pure]

theorem sound_request {declarations selectors : Value} {g : Live Value}
    (h : request declarations selectors = .ok g) : g.Sound := by
  obtain ⟨ds, -, added⟩ := request_eq_ok.1 h
  have kept := (sound_ofLists ds ([] : List Value)).perform (.addSelectors selectors)
  rwa [added] at kept

theorem Reachable.sound {g : Live Value} (h : g.Reachable) : g.Sound := by
  obtain ⟨_, _, new, calls, made, rfl⟩ := h
  exact (sound_request made).after calls

end Live

end StyleFactor
